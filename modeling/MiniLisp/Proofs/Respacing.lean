import MiniLisp.Proofs.Decomposition

namespace MiniLisp

/-- The texts of the tokens among the segments. -/
def Segment.tokens (ps : List Segment) : List (List Char) :=
  ps.filterMap Segment.token?

section Before

variable {cs rest : List Char} {c : Char}

theorem not_wordChar_of_separator (h : isSeparator c = true) : isWordChar c = false := by
  simp [isWordChar, h]

/-- No token starts with a separator. -/
theorem Segment.Before.head_token (h : (Segment.token cs).Before rest) :
    ∃ c ds, cs = c :: ds ∧ isSeparator c = false := by
  cases h with
  | spliceMark => exact ⟨_, _, rfl, rfl⟩
  | special hc =>
    refine ⟨_, _, rfl, ?_⟩
    revert hc
    simp only [Scanner.specialChars, List.mem_cons, List.not_mem_nil, or_false]
    rintro (rfl | rfl | rfl | rfl | rfl | rfl | rfl | rfl | rfl | rfl | rfl) <;> rfl
  | closed => exact ⟨_, _, rfl, rfl⟩
  | unclosed => exact ⟨_, _, rfl, rfl⟩
  | unclosedEscape => exact ⟨_, _, rfl, rfl⟩
  | word _ hcs => exact ⟨_, _, rfl, separator_of_word (hcs _ List.mem_cons_self)⟩

/-- A token may stand at the end of a text. -/
theorem Segment.Before.last (h : (Segment.token cs).Before rest) : (Segment.token cs).Before [] := by
  cases h with
  | spliceMark => exact .spliceMark []
  | special hc => exact .special hc (by simp)
  | closed hcs => exact .closed hcs []
  | unclosed hcs => exact .unclosed hcs
  | unclosedEscape hcs => exact .unclosedEscape hcs
  | word hstart hcs => exact .word hstart hcs (by simp)

/-- A token that stands in front of something may stand in front of a separator. Only a literal
without an end may not: it takes the separator, but nothing stands behind it. -/
theorem Segment.Before.separated (h : (Segment.token cs).Before rest) (hrest : rest ≠ [])
    (hc : isSeparator c = true) (ds : List Char) : (Segment.token cs).Before (c :: ds) := by
  cases h with
  | spliceMark => exact .spliceMark _
  | special hspecial =>
    refine .special hspecial fun _ hat => ?_
    obtain rfl : c = '@' := Option.some.inj hat
    cases hc
  | closed hcs => exact .closed hcs _
  | unclosed => exact absurd rfl hrest
  | unclosedEscape => exact absurd rfl hrest
  | word hstart hcs =>
    refine .word hstart hcs fun d hd => ?_
    obtain rfl : c = d := Option.some.inj hd
    exact not_wordChar_of_separator hc

end Before

namespace Decomposes

variable {cs sep : List Char} {ps : List Segment}

theorem tokenize {s : String} (h : Decomposes s.toList ps) :
    MiniLisp.tokenize s = (Segment.tokens ps).map String.ofList := by
  obtain ⟨last, -, -, hm⟩ := Scanner.many_token s.toList
  rw [tokenize_eq_tokens, Scanner.tokens, hm, h.scan]
  simp only [List.filterMap_filterMap, Segment.tokens]
  congr 2
  funext p
  cases p <;> rfl

/-- What the tokens of a text consist of when they are joined by separators. -/
theorem intercalate (hne : sep ≠ []) (hsep : ∀ c ∈ sep, isSeparator c = true)
    (h : Decomposes cs ps) :
    Decomposes (sep.intercalate (Segment.tokens ps))
        (((Segment.tokens ps).map .token).intersperse (.separators sep)) ∧
      ∀ c ∈ (sep.intercalate (Segment.tokens ps)).head?, isSeparator c = false := by
  induction h with
  | nil => exact ⟨.nil, by simp [Segment.tokens]⟩
  | @cons p rest ps hp hps ih =>
    cases p with
    | separators | comment => exact ih
    | token cs =>
      obtain ⟨hjoined, hhead⟩ := ih
      obtain ⟨c, ds, rfl, hc⟩ := hp.head_token
      have hfirst : Segment.tokens (.token (c :: ds) :: ps) = (c :: ds) :: Segment.tokens ps := rfl
      rw [hfirst]
      rcases htokens : Segment.tokens ps with _ | ⟨t, ts⟩
      · refine ⟨?_, by simpa using hc⟩
        simpa [Segment.text] using Decomposes.cons hp.last .nil
      · have hrest : rest ≠ [] := by
          rintro rfl
          rw [hps.eq_nil] at htokens
          cases htokens
        rw [htokens] at hjoined hhead
        obtain ⟨d, sep, rfl⟩ := List.exists_cons_of_ne_nil hne
        have hbehind := hp.separated hrest (hsep d List.mem_cons_self)
          (sep ++ (d :: sep).intercalate (t :: ts))
        have hgap : (Segment.separators (d :: sep)).Before ((d :: sep).intercalate (t :: ts)) :=
          .separators hne hsep hhead
        rw [List.intercalate_cons_cons]
        refine ⟨?_, by simpa using hc⟩
        rw [List.append_assoc]
        exact .cons hbehind (.cons hgap hjoined)

end Decomposes

theorem Segment.tokens_intersperse (ts : List (List Char)) (sep : List Char) :
    tokens ((ts.map .token).intersperse (.separators sep)) = ts := by
  induction ts with
  | nil => rfl
  | cons t ts ih =>
    cases ts with
    | nil => rfl
    | cons u ts => exact congrArg (t :: ·) ih

/-- The tokens of a text, joined by separators of whatever kind, are the tokens of what comes out. -/
theorem tokenize_intercalate {sep : String} (hne : sep.toList ≠ [])
    (hsep : ∀ c ∈ sep.toList, isSeparator c = true) (s : String) :
    tokenize (sep.intercalate (tokenize s)) = tokenize s := by
  obtain ⟨segments, h⟩ := Decomposes.exists_segments s.toList
  have htext : (sep.intercalate (tokenize s)).toList =
      sep.toList.intercalate (Segment.tokens segments) := by
    rw [String.toList_intercalate, h.tokenize, List.map_map]
    simp
  have hjoined := (h.intercalate hne hsep).1
  rw [← htext] at hjoined
  rw [hjoined.tokenize, h.tokenize, Segment.tokens_intersperse]

/-- A text whose tokens are put on one line, or each on a line of its own, has the same tokens as
before. What it had between them does not matter, nor that comments are gone, that marks which might
be one stand apart, or that the last token is a literal without an end. -/
theorem tokenize_respaced (s : String) :
    tokenize (" ".intercalate (tokenize s)) = tokenize s ∧
      tokenize ("\n".intercalate (tokenize s)) = tokenize s := by
  have hspace : ∀ c ∈ " ".toList, isSeparator c = true := by
    intro c hc
    obtain rfl : c = ' ' := List.mem_singleton.mp hc
    rfl
  have hline : ∀ c ∈ "\n".toList, isSeparator c = true := by
    intro c hc
    obtain rfl : c = '\n' := List.mem_singleton.mp hc
    rfl
  exact ⟨tokenize_intercalate (by decide) hspace s, tokenize_intercalate (by decide) hline s⟩

end MiniLisp
