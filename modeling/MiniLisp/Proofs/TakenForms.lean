import MiniLisp.Proofs.Wrapping

namespace MiniLisp

namespace Lexeme

theorem splitString_no_mark {cs : List Char} (h : '\x22' ∉ cs) : splitString cs = (cs, []) := by
  fun_induction splitString cs with
  | case1 => rfl
  | case2 c cs split ih =>
    simp only [List.mem_cons, not_or] at h
    simp only [split, ih h.2.2]
  | case3 cs => simp at h
  | case4 c cs _ _ split ih =>
    simp only [List.mem_cons, not_or] at h
    simp only [split, ih h.2]

/-- A literal without an end takes all of the text, and whatever stands behind it as well. -/
theorem splitString_unended {cs : List Char}
    (h : ∀ text, ¬ Quoted.Spells (splitString cs).1 text) {rest : List Char}
    (hrest : '\x22' ∉ rest) :
    splitString cs = (cs, []) ∧ splitString (cs ++ '\n' :: rest) = (cs ++ '\n' :: rest, []) := by
  have hline : splitString ('\n' :: rest) = ('\n' :: rest, []) :=
    splitString_no_mark (by simpa using hrest)
  fun_induction splitString cs with
  | case1 => exact ⟨rfl, hline⟩
  | case2 c cs split ih =>
    have hinner : ∀ text, ¬ Quoted.Spells split.1 text := by
      intro text hspells
      by_cases hn : c = 'n'
      · subst hn
        exact h _ (.lineFeed hspells)
      · by_cases hspecial : c = Quoted.mark ∨ c = '\\'
        · exact h _ (.escaped hspecial hspells)
        · exact h _ (.kept (by simp_all) hspells)
    obtain ⟨hone, hboth⟩ := ih hinner
    simp only [split, hone, List.cons_append, splitString, hboth, and_self]
  | case3 cs => exact absurd .closing (h [])
  | case4 c cs hb hm split ih =>
    by_cases hc : c = '\\'
    · subst hc
      -- a backslash that is taken alone is the last character
      cases cs with
      | nil =>
        have hnone : splitString rest = (rest, []) := splitString_no_mark hrest
        simp only [split, splitString, List.cons_append, List.nil_append, hnone, and_self]
      | cons d ds => exact (hb d ds rfl rfl).elim
    · have hplain : c ∉ [Quoted.mark, '\\'] := by simp [Quoted.mark, hm, hc]
      obtain ⟨hone, hboth⟩ := ih fun text hspells => h _ (.plain hplain hspells)
      refine ⟨by simp only [split, hone], ?_⟩
      rw [List.cons_append, splitString.eq_def]
      simp [hc, hm, hboth]

end Lexeme

namespace Token

/-- Behind a line feed a text without string literals is scanned as if it stood alone, unless the last
token in front of it is a literal without an end: that literal takes all of it. -/
theorem scan_lineFeed_cases (cs : List Char) {rest : List Char} (hrest : '\x22' ∉ rest) :
    scan (cs ++ '\n' :: rest) = scan cs ++ scan rest ∨
      ∃ front body, scan cs = front ++ [string body] ∧
        scan (cs ++ '\n' :: rest) = front ++ [string (body ++ '\n' :: rest)] := by
  induction hn : cs.length using Nat.strongRecOn generalizing cs with
  | ind n ih =>
    subst hn
    cases cs with
    | nil =>
      left
      rw [List.nil_append, scan_nil, List.nil_append, scan_separator rfl]
    | cons c cs =>
      by_cases hc : isSeparator c = true
      · rw [List.cons_append, scan_separator hc, scan_separator hc]
        exact ih cs.length (Nat.lt_succ_self _) cs rfl
      · have hc : isSeparator c = false := by simpa using hc
        by_cases hopen : c = '\x22' ∧ ∀ text, ¬ Quoted.Spells (Lexeme.splitString cs).1 text
        · obtain ⟨rfl, hopen⟩ := hopen
          obtain ⟨hone, hboth⟩ := Lexeme.splitString_unended hopen hrest
          right
          refine ⟨[], cs, ?_, ?_⟩
          · rw [scan_next hc, Lexeme.next, hone, scan_nil]
            rfl
          · rw [List.cons_append, scan_next hc, Lexeme.next, hboth, scan_nil]
            rfl
        · have hended : ∀ body, (Lexeme.next c cs).1 = .token (.string body) →
              ∃ text, Quoted.Spells body text := by
            intro body hbody
            obtain ⟨hmark, rfl⟩ := Lexeme.splitString_of_next hbody
            by_contra hnone
            exact hopen ⟨hmark, not_exists.mp hnone⟩
          have hshort : (Lexeme.next c cs).2.length < (c :: cs).length :=
            Nat.lt_succ_of_le (Lexeme.next_length c cs)
          rw [List.cons_append, scan_next hc, scan_next hc, Lexeme.next_append_lineFeed rest hended]
          obtain hboth | ⟨front, body, hone, hboth⟩ := ih _ hshort _ rfl
          · left
            rw [hboth, List.append_assoc]
          · right
            refine ⟨(Lexeme.next c cs).1.token?.toList ++ front, body, ?_, ?_⟩
            · rw [hone, List.append_assoc]
            · rw [hboth, List.append_assoc]

end Token

theorem append_cons_eq_concat {α : Type} {xs ys zs : List α} {a b : α}
    (h : xs ++ a :: ys = zs ++ [b]) :
    (ys = [] ∧ xs = zs ∧ a = b) ∨ ∃ ys', ys = ys' ++ [b] ∧ zs = xs ++ a :: ys' := by
  obtain rfl | ⟨ys, c, rfl⟩ := List.eq_nil_or_concat ys
  · obtain ⟨rfl, hlast⟩ := List.append_inj' h rfl
    exact .inl ⟨rfl, rfl, List.singleton_inj.mp hlast⟩
  · rw [List.concat_eq_append] at h ⊢
    rw [← List.cons_append, ← List.append_assoc] at h
    obtain ⟨hfront, hlast⟩ := List.append_inj' h rfl
    rw [List.singleton_inj.mp hlast]
    exact .inr ⟨ys, rfl, hfront.symm⟩

namespace Value

/-- What stands behind the text of a file where all its forms are made into one. -/
def fileEnd : List Char :=
  ['n', 'i', 'l', ')']

theorem scan_fileEnd : Token.scan fileEnd = [.word ['n', 'i', 'l'], .closing .round] := by
  with_unfolding_all rfl

/-- What the text of a file is put between does not depend on the text. -/
theorem scan_file (c : String) :
    Token.scan ("(do " ++ c ++ "\nnil)").toList =
      .opening .round :: .word ['d', 'o'] :: Token.scan (c.toList ++ '\n' :: fileEnd) := by
  have htext : ("(do " ++ c ++ "\nnil)").toList =
      Bracket.round.opening :: (['d', 'o'] ++ ' ' :: (c.toList ++ '\n' :: fileEnd)) := by
    rw [String.toList_append, String.toList_append, List.append_assoc]
    rfl
  have hspace : EndsWord (' ' :: (c.toList ++ '\n' :: fileEnd)) := by
    rintro _ ⟨⟩
    rfl
  rw [htext, Token.scan_opening, Token.scan_word (by decide) hspace, Token.scan_separator rfl]

/-- The forms that are taken for those of a file with these tokens. -/
inductive Taken (ts : List Token) (forms : List Value) : Prop where
  /-- All of the tokens, and the last word of the text around them. -/
  | all (row : Row 511 (ts ++ [.word ['n', 'i', 'l']]) forms)
  /-- The tokens up to a closing bracket that nothing has opened. -/
  | closed {front rest : List Token} (split : ts = front ++ .closing .round :: rest)
      (row : Row 511 front forms)

/-- The forms of a file are taken, with one more behind them. -/
theorem Row.taken {ts : List Token} {forms : List Value} (h : Row 511 ts forms) :
    Taken ts (forms ++ [Value.nil]) :=
  .all (h.append (.cons (.atom .nil) (.nil 511)))

/-- The first closing bracket that does not belong to a form of the file ends the row of forms. -/
theorem taken_iff {c : String} {forms : List Value} :
    Taken (Token.scan c.toList) forms ↔ ∃ front rest,
      Token.scan (c.toList ++ '\n' :: fileEnd) = front ++ .closing .round :: rest ∧
        Row 511 front forms := by
  have hmark : '\x22' ∉ fileEnd := by decide
  have hcases := Token.scan_lineFeed_cases c.toList hmark
  rw [scan_fileEnd] at hcases
  constructor
  · intro h
    cases h with
    | all row =>
      have hspelled : ∀ body, .string body ∈ Token.scan c.toList → ∃ text, Quoted.Spells body text :=
        fun body hb => row.spelled body (List.mem_append_left _ hb)
      refine ⟨_, [], ?_, row⟩
      rw [Token.scan_append_lineFeed hspelled, scan_fileEnd, List.append_assoc]
      rfl
    | @closed front rest split row =>
      obtain hboth | ⟨init, body, hone, hboth⟩ := hcases
      · refine ⟨front, rest ++ [.word ['n', 'i', 'l'], .closing .round], ?_, row⟩
        rw [hboth, split, List.append_assoc, List.cons_append]
      · rw [split] at hone
        obtain ⟨-, -, hlast⟩ | ⟨rest', -, hinit⟩ := append_cons_eq_concat hone
        · cases hlast
        · refine ⟨front, rest' ++ [.string (body ++ '\n' :: fileEnd)], ?_, row⟩
          rw [hboth, hinit, List.append_assoc, List.cons_append]
  · rintro ⟨front, rest, hscan, row⟩
    obtain hboth | ⟨init, body, hone, hboth⟩ := hcases
    · have hsame : front ++ .closing .round :: rest =
          (Token.scan c.toList ++ [.word ['n', 'i', 'l']]) ++ [.closing .round] := by
        rw [← hscan, hboth, List.append_assoc]
        rfl
      obtain ⟨-, rfl, -⟩ | ⟨rest', -, hfront⟩ := append_cons_eq_concat hsame
      · exact .all row
      · obtain ⟨-, -, hlast⟩ | ⟨later, -, hsplit⟩ := append_cons_eq_concat hfront.symm
        · cases hlast
        · exact .closed hsplit row
    · obtain ⟨-, -, hlast⟩ | ⟨rest', -, hinit⟩ := append_cons_eq_concat (hscan.symm.trans hboth)
      · cases hlast
      · have hsplit : Token.scan c.toList =
            front ++ .closing .round :: (rest' ++ [.string body]) := by
          rw [hone, hinit, List.append_assoc, List.cons_append]
        exact .closed hsplit row

/-- The text around a file makes one form of the forms that are taken. -/
theorem Taken.read {c : String} {forms : List Value} (h : Taken (Token.scan c.toList) forms) :
    read ("(do " ++ c ++ "\nnil)") = .ok (some (ofList (sym "do" :: forms))) := by
  obtain ⟨front, rest, hscan, row⟩ := taken_iff.mp h
  have hform : Form 512 (.opening .round :: ((.word ['d', 'o'] :: front) ++ [.closing .round]))
      (ofList (sym "do" :: forms)) := .bracket (.cons (.atom atom_do) row) (.list _)
  have hread := hform.ofTokens rest
  rw [Value.read, scan_file, hscan]
  simpa using hread

/-- A row of forms that begins with a word has that word for its first form. -/
theorem Row.tail_of_word {levels : Nat} {w : List Char} {ts : List Token} {vs : List Value}
    (h : Row levels (.word w :: ts) vs) : ∃ forms, Row levels ts forms := by
  generalize hts : Token.word w :: ts = us at h
  cases h with
  | nil => cases hts
  | cons first rest =>
    cases first with
    | atom made =>
      cases hts
      exact ⟨_, rest⟩
    | bracket | mark | withMeta => cases hts

/-- Where no forms are taken, the text around the file cannot be read. -/
theorem read_error_of_not_taken {c : String} (h : ∀ forms, ¬ Taken (Token.scan c.toList) forms) :
    ∃ f, read ("(do " ++ c ++ "\nnil)") = .error f ∧
      f.kind ∈ [Kind.parse, Kind.paren, Kind.hash] := by
  have hscanned := scanned_scan ("(do " ++ c ++ "\nnil)").toList
  rw [scan_file] at hscanned
  have hinside : Scanned (.word ['d', 'o'] :: Token.scan (c.toList ++ '\n' :: fileEnd)) :=
    fun body hb => hscanned body (List.mem_cons_of_mem _ hb)
  have hlevels : ([] : List Pending).length + 1 + 511 = maxFormDepth := rfl
  obtain ⟨used, rest, vs, hsplit, hrow⟩ | ⟨f, hf, hk⟩ :=
    row_or_rejects (b := .round) hlevels (form_or_rejects 511) [] _ hinside
  · cases used with
    | nil => cases hsplit
    | cons t used =>
      obtain ⟨rfl, hscan⟩ := List.cons.inj hsplit
      obtain ⟨forms, hforms⟩ := hrow.tail_of_word
      exact absurd (taken_iff.mpr ⟨used, rest, hscan, hforms⟩) (h forms)
  · refine ⟨f, ?_, hk⟩
    have hopen : feed [] (.opening .round) = .ok (.more [.seq .round []]) := by
      apply feed_opening
      decide
    rw [Value.read, scan_file, ofTokens_ne_nil (List.cons_ne_nil _ _), readOn_cons hopen, resume, hf]
    rfl

end Value
end MiniLisp
