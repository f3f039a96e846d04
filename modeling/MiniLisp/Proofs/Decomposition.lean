import MiniLisp.Proofs.OrderedChoice

namespace MiniLisp

/-- A part of a text, with its characters. -/
inductive Segment where
  | separators (cs : List Char)
  | comment (cs : List Char)
  | token (cs : List Char)

namespace Segment

def text : Segment → List Char
  | separators cs => cs
  | comment cs => cs
  | token cs => cs

/-- The text of a token. -/
def token? : Segment → Option (List Char)
  | token cs => some cs
  | _ => none

/-- What is found at a lexeme: nothing at a comment, and the text of a token. -/
def found? : Segment → Option (Option (List Char))
  | separators _ => none
  | comment _ => some none
  | token cs => some (some cs)

def ofLexeme : Lexeme → Segment
  | .comment body => comment (';' :: body)
  | .token t => token t.text

theorem text_ofLexeme (l : Lexeme) : (ofLexeme l).text = l.text := by
  cases l <;> rfl

end Segment

/-- The inside of a string literal: pairs of a backslash and any character, and characters that are
neither a backslash nor a double quote. -/
inductive Escaping : List Char → Prop
  | nil : Escaping []
  | pair (c : Char) {cs : List Char} (h : Escaping cs) : Escaping ('\\' :: c :: cs)
  | plain {c : Char} {cs : List Char} (hb : c ≠ '\\') (hq : c ≠ '\x22') (h : Escaping cs) :
    Escaping (c :: cs)

/-- The segment that stands in front of the text. -/
inductive Segment.Before : Segment → List Char → Prop
  | separators {cs rest : List Char} (hne : cs ≠ []) (hcs : ∀ c ∈ cs, isSeparator c = true)
    (hmax : ∀ c ∈ rest.head?, isSeparator c = false) : Before (.separators cs) rest
  | comment {cs rest : List Char} (hcs : '\n' ∉ cs) (hmax : ∀ c ∈ rest.head?, c = '\n') :
    Before (.comment (';' :: cs)) rest
  | spliceMark (rest : List Char) : Before (.token ['~', '@']) rest
  | special {c : Char} {rest : List Char} (hc : c ∈ Scanner.specialChars)
    (hmark : c = '~' → rest.head? ≠ some '@') : Before (.token [c]) rest
  | closed {cs : List Char} (h : Escaping cs) (rest : List Char) :
    Before (.token ('\x22' :: cs ++ ['\x22'])) rest
  | unclosed {cs : List Char} (h : Escaping cs) : Before (.token ('\x22' :: cs)) []
  | unclosedEscape {cs : List Char} (h : Escaping cs) : Before (.token ('\x22' :: cs ++ ['\\'])) []
  | word {c : Char} {cs rest : List Char} (hstart : c ∉ Scanner.specialChars)
    (hcs : ∀ d ∈ c :: cs, isWordChar d = true) (hmax : ∀ d ∈ rest.head?, isWordChar d = false) :
    Before (.token (c :: cs)) rest

/-- The text is the row of the segments, each of which stands in front of those after it. -/
inductive Decomposes : List Char → List Segment → Prop
  | nil : Decomposes [] []
  | cons {p : Segment} {rest : List Char} {ps : List Segment} (hp : p.Before rest)
    (hps : Decomposes rest ps) : Decomposes (p.text ++ rest) (p :: ps)

/-- The first segment of a text that starts with `c`, and what is left of `cs` after it. -/
def Segment.first (c : Char) (cs : List Char) : Segment × List Char :=
  if isSeparator c then
    (.separators (c :: cs.takeWhile isSeparator), cs.dropWhile isSeparator)
  else (.ofLexeme (Lexeme.next c cs).1, (Lexeme.next c cs).2)

theorem Escaping.splitString_append {body : List Char} (h : Escaping body) (rest : List Char) :
    Lexeme.splitString (body ++ rest) =
      (body ++ (Lexeme.splitString rest).1, (Lexeme.splitString rest).2) := by
  induction h with
  | nil => rfl
  | pair c _ ih => simp [Lexeme.splitString, ih]
  | plain hb hq _ ih =>
    rw [List.cons_append, Lexeme.splitString.eq_def]
    simp [hb, hq, ih]

/-- What is split off is the inside of a literal, up to its closing double quote or to the end of
the text, where a lone backslash may stand. -/
theorem splitString_cases (cs : List Char) : ∃ body, Escaping body ∧
    (Lexeme.splitString cs = (body, []) ∨ Lexeme.splitString cs = (body ++ ['\\'], []) ∨
      Lexeme.splitString cs = (body ++ ['\x22'], (Lexeme.splitString cs).2)) := by
  fun_induction Lexeme.splitString cs with
  | case1 => exact ⟨[], .nil, .inl rfl⟩
  | case2 c cs split ih =>
    obtain ⟨body, hbody, h⟩ := ih
    refine ⟨'\\' :: c :: body, .pair c hbody, ?_⟩
    simpa [split, Prod.ext_iff] using h
  | case3 cs => exact ⟨[], .nil, .inr (.inr rfl)⟩
  | case4 c cs hpair hq split ih =>
    obtain ⟨body, hbody, h⟩ := ih
    by_cases hb : c = '\\'
    · cases cs with
      | nil =>
        subst hb
        exact ⟨[], .nil, .inr (.inl rfl)⟩
      | cons d ds => exact absurd rfl (hpair d ds hb)
    · refine ⟨c :: body, .plain hb hq hbody, ?_⟩
      simpa [split, Prod.ext_iff] using h

namespace Segment

/-- A literal is split off where its description ends it. -/
theorem before_string (cs : List Char) :
    (token ('\x22' :: (Lexeme.splitString cs).1)).Before (Lexeme.splitString cs).2 := by
  obtain ⟨body, hbody, h | h | h⟩ := splitString_cases cs <;> rw [h]
  · exact .unclosed hbody
  · exact .unclosedEscape hbody
  · exact .closed hbody _

theorem first_text (c : Char) (cs : List Char) : (first c cs).1.text ++ (first c cs).2 = c :: cs := by
  unfold first
  split
  · simp [text]
  · rw [text_ofLexeme, Lexeme.next_append]

theorem before_of_next {c : Char} (hc : isSeparator c = false) (cs : List Char) :
    (ofLexeme (Lexeme.next c cs).1).Before (Lexeme.next c cs).2 := by
  unfold Lexeme.next
  split
  · refine .comment (fun h => ?_) (fun d hd => ?_)
    · simpa using List.all_eq_true.mp List.all_takeWhile '\n' h
    · simpa using head_dropWhile _ cs d hd
  all_goals try exact .special (by decide) (fun h => absurd h (by decide))
  · split
    · exact .spliceMark _
    · rename_i hmark
      refine .special (by decide) (fun _ h => ?_)
      obtain ⟨ds, rfl⟩ := List.head?_eq_some_iff.mp h
      exact hmark ds rfl
  · exact before_string cs
  · have hcomma : c ≠ ',' := by
      rintro rfl
      cases hc
    have hword : isWordChar c = true := by simp_all [isWordChar, delimiters]
    refine .word (by simp_all [Scanner.specialChars]) ?_ (head_dropWhile isWordChar cs)
    rw [← List.takeWhile_cons_of_pos hword]
    exact fun d hd => List.all_eq_true.mp List.all_takeWhile d hd

/-- Every text that is not empty starts with a segment. -/
theorem first_before (c : Char) (cs : List Char) : (first c cs).1.Before (first c cs).2 := by
  unfold first
  split
  · next hc =>
    refine .separators (List.cons_ne_nil _ _) ?_ (head_dropWhile isSeparator cs)
    rw [← List.takeWhile_cons_of_pos hc]
    exact fun d hd => List.all_eq_true.mp List.all_takeWhile d hd
  · exact before_of_next (by simp_all) cs

theorem first_separator {c : Char} (hc : isSeparator c = true) (cs : List Char) :
    first c cs = (separators (c :: cs.takeWhile isSeparator), cs.dropWhile isSeparator) :=
  if_pos hc

theorem first_lexeme {c : Char} {cs rest : List Char} {l : Lexeme} (hc : isSeparator c = false)
    (h : Lexeme.next c cs = (l, rest)) : first c cs = (ofLexeme l, rest) := by
  simp [first, hc, h]

theorem first_string {cs body rest : List Char} (h : Lexeme.splitString cs = (body, rest)) :
    first '\x22' cs = (token ('\x22' :: body), rest) :=
  first_lexeme rfl (l := .token (.string body)) (by simp [Lexeme.next, h])

/-- There is no other segment that a text starts with. -/
theorem Before.first {p : Segment} {rest : List Char} (h : p.Before rest) :
    ∃ c cs, p.text ++ rest = c :: cs ∧ first c cs = (p, rest) := by
  cases h with
  | @separators cs _ hne hcs hmax =>
    obtain ⟨c, cs, rfl⟩ := List.exists_cons_of_ne_nil hne
    have hall : ∀ d ∈ cs, isSeparator d = true := fun d hd => hcs d (List.mem_cons_of_mem _ hd)
    refine ⟨c, cs ++ rest, rfl, ?_⟩
    rw [first_separator (hcs c (List.mem_cons_self ..)), takeWhile_run hall hmax,
      dropWhile_run hall hmax]
  | @comment cs _ hcs hmax =>
    have hall : ∀ d ∈ cs, (d != '\n') = true := by
      intro d hd
      have hne : d ≠ '\n' := fun h => hcs (h ▸ hd)
      simpa using hne
    have hstop : ∀ d ∈ rest.head?, (d != '\n') = false := by simpa using hmax
    refine ⟨';', cs ++ rest, rfl, first_lexeme rfl (l := .comment cs) ?_⟩
    simp only [Lexeme.next, takeWhile_run hall hstop, dropWhile_run hall hstop]
  | spliceMark => exact ⟨_, _, rfl, rfl⟩
  | @special c _ hc hmark =>
    refine ⟨c, rest, rfl, ?_⟩
    simp only [Scanner.specialChars, List.mem_cons, List.not_mem_nil, or_false] at hc
    rcases hc with rfl | rfl | rfl | rfl | rfl | rfl | rfl | rfl | rfl | rfl | rfl
    all_goals try rfl
    refine first_lexeme rfl (l := .token (.mark .unquote)) ?_
    simp only [Lexeme.next]
    split
    · exact absurd rfl (hmark rfl)
    · rfl
  | @closed cs h =>
    refine ⟨'\x22', cs ++ ['\x22'] ++ rest, rfl, first_string ?_⟩
    rw [List.append_assoc, h.splitString_append]
    rfl
  | @unclosed cs h =>
    refine ⟨'\x22', cs ++ [], rfl, first_string ?_⟩
    rw [h.splitString_append]
    simp [Lexeme.splitString]
  | @unclosedEscape cs h =>
    refine ⟨'\x22', cs ++ ['\\'] ++ [], rfl, first_string ?_⟩
    rw [List.append_assoc, h.splitString_append]
    rfl
  | @word c cs _ hstart hcs hmax =>
    have hc := separator_of_word (hcs c (List.mem_cons_self ..))
    have hw : IsWord (c :: cs) := ⟨by simp_all [Scanner.specialChars], hcs⟩
    exact ⟨c, cs ++ rest, rfl, first_lexeme hc (Lexeme.next_word hw hmax)⟩

theorem Before.text_ne_nil {p : Segment} {rest : List Char} (h : p.Before rest) : p.text ≠ [] := by
  cases h with
  | separators hne => exact hne
  | _ => exact List.cons_ne_nil _ _

end Segment

namespace Decomposes

variable {cs : List Char} {ps qs : List Segment}

theorem exists_segments (cs : List Char) : ∃ ps, Decomposes cs ps := by
  induction hn : cs.length using Nat.strongRecOn generalizing cs with
  | ind n ih =>
    cases cs with
    | nil => exact ⟨[], .nil⟩
    | cons c cs =>
      have htext := Segment.first_text c cs
      have hne := (Segment.first_before c cs).text_ne_nil
      have hlt : (Segment.first c cs).2.length < n := by
        rw [← hn, ← htext, List.length_append]
        have := List.length_pos_iff.mpr hne
        omega
      obtain ⟨ps, hps⟩ := ih _ hlt _ rfl
      exact ⟨_, htext ▸ cons (Segment.first_before c cs) hps⟩

theorem eq_nil (h : Decomposes [] ps) : ps = [] := by
  generalize hcs : ([] : List Char) = cs at h
  cases h with
  | nil => rfl
  | cons hp => exact absurd (List.append_eq_nil_iff.mp hcs.symm).1 hp.text_ne_nil

theorem of_cons {c : Char} (h : Decomposes (c :: cs) ps) :
    ∃ tail, ps = (Segment.first c cs).1 :: tail ∧ Decomposes (Segment.first c cs).2 tail := by
  generalize hcs : c :: cs = text at h
  cases h with
  | nil => cases hcs
  | @cons _ _ tail hp hps =>
    obtain ⟨d, ds, htext, hfirst⟩ := hp.first
    rw [← hcs] at htext
    cases htext
    rw [hfirst]
    exact ⟨tail, rfl, hps⟩

theorem unique (hp : Decomposes cs ps) (hq : Decomposes cs qs) : ps = qs := by
  induction hp generalizing qs with
  | nil => exact hq.eq_nil.symm
  | cons hp hps ih =>
    obtain ⟨c, cs, htext, hfirst⟩ := hp.first
    rw [htext] at hq
    obtain ⟨tail, rfl, htail⟩ := hq.of_cons
    rw [hfirst] at htail ⊢
    rw [ih htail]

theorem flatMap_text (h : Decomposes cs ps) : ps.flatMap Segment.text = cs := by
  induction h with
  | nil => rfl
  | cons hp hps ih => rw [List.flatMap_cons, ih]

/-- The scanner finds the lexemes of the row. -/
theorem scan (h : Decomposes cs ps) :
    (Lexeme.scan cs).map (fun l => l.token?.map Token.text) = ps.filterMap Segment.found? := by
  induction h with
  | nil => rw [Lexeme.scan_nil]; rfl
  | @cons p rest ps hp hps ih =>
    obtain ⟨c, cs, htext, hfirst⟩ := hp.first
    rw [htext, List.filterMap_cons, ← ih]
    by_cases hc : isSeparator c = true
    · rw [Segment.first_separator hc] at hfirst
      cases hfirst
      rw [Lexeme.scan_separator hc, Lexeme.scan_dropWhile]
      rfl
    · have hc : isSeparator c = false := by simpa using hc
      rcases hnext : Lexeme.next c cs with ⟨l, last⟩
      rw [Segment.first_lexeme hc hnext] at hfirst
      cases hfirst
      rw [Lexeme.scan_cons hc, hnext, List.map_cons]
      cases l <;> rfl

end Decomposes

/-- Every text is in exactly one way a row of maximal runs of separators and lexemes. Its tokens are
the lexemes that are no comments, in order, and an ordered choice of scanners that is repeated until
it fails finds all of them: it stops where only separators are left. -/
theorem tokenize_accounts (s : String) :
    ∃ segments, (∀ row, Decomposes s.toList row ↔ row = segments) ∧
      segments.flatMap Segment.text = s.toList ∧
      tokenize s = (segments.filterMap Segment.token?).map String.ofList ∧
      ∃ last, (∀ c ∈ last, isSeparator c = true) ∧ last <:+ s.toList ∧
        Scanner.many Scanner.token s.toList = some (segments.filterMap Segment.found?, last) := by
  obtain ⟨segments, h⟩ := Decomposes.exists_segments s.toList
  obtain ⟨last, hlast, hsuffix, hm⟩ := Scanner.many_token s.toList
  rw [h.scan] at hm
  refine ⟨segments, fun row => ⟨fun hrow => hrow.unique h, fun hrow => hrow ▸ h⟩, h.flatMap_text, ?_,
    last, hlast, hsuffix, hm⟩
  rw [tokenize_eq_tokens, Scanner.tokens, hm]
  simp only [List.filterMap_filterMap]
  congr 2
  funext p
  cases p <;> rfl

end MiniLisp
