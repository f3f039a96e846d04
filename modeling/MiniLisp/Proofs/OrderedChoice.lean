import MiniLisp.Proofs.Lexing

namespace MiniLisp

/-- Takes something off the front of a text, or fails. -/
abbrev Scanner (α : Type) := List Char → Option (α × List Char)

namespace Scanner

variable {α β : Type}

def satisfy (p : Char → Bool) : Scanner Char
  | [] => none
  | c :: cs => if p c then some (c, cs) else none

/-- Never fails. -/
def run (p : Char → Bool) : Scanner (List Char) :=
  fun cs => some (cs.takeWhile p, cs.dropWhile p)

/-- Fails where there is no character to take. -/
def run1 (p : Char → Bool) : Scanner (List Char) :=
  fun cs => if (cs.takeWhile p).isEmpty then none else run p cs

def tag (text : List Char) : Scanner (List Char) :=
  fun cs => if text.isPrefixOf cs then some (text, cs.drop text.length) else none

def optional (p : Scanner α) : Scanner (Option α) :=
  fun cs =>
    match p cs with
    | none => some (none, cs)
    | some (a, rest) => some (some a, rest)

def pair (p : Scanner α) (q : Scanner β) : Scanner (α × β) :=
  fun cs => do
    let (a, rest) ← p cs
    let (b, rest) ← q rest
    return ((a, b), rest)

def map (f : α → β) (p : Scanner α) : Scanner β :=
  fun cs => (p cs).map fun (a, rest) => (f a, rest)

def preceded (p : Scanner α) (q : Scanner β) : Scanner β :=
  map Prod.snd (pair p q)

/-- The text that a scanner takes, whatever it makes of it. -/
def recognize (p : Scanner α) : Scanner (List Char) :=
  fun cs => (p cs).map fun (_, rest) => (cs.take (cs.length - rest.length), rest)

/-- The answer of the first scanner that does not fail. -/
def choice (ps : List (Scanner α)) : Scanner α :=
  fun cs => ps.findSome? fun p => p cs

/-- Repeats a scanner until it fails. A scanner that succeeds without taking anything would go on
forever, and the repetition fails there. -/
def many (p : Scanner α) (cs : List Char) : Option (List α × List Char) :=
  match p cs with
  | none => some ([], cs)
  | some (a, rest) =>
    if rest.length < cs.length then
      (many p rest).map fun (found, last) => (a :: found, last)
    else none
termination_by cs.length

def separators : Scanner (List Char) :=
  run isSeparator

def comment : Scanner (List Char) :=
  recognize (pair (satisfy (· == ';')) (run (· != '\n')))

/-- The characters that are a token each, wherever one starts. -/
def specialChars : List Char :=
  ['[', ']', '\x7b', '\x7d', '(', ')', '\x27', '\x60', '~', '^', '@']

/-- A character of a literal that stands for itself. -/
def isPlain (c : Char) : Bool :=
  c != '\\' && c != '\x22'

def stringPart : Scanner (List Char) :=
  choice [recognize (pair (satisfy (· == '\\')) (satisfy fun _ => true)), run1 isPlain, tag ['\\']]

/-- A string literal whose closing double quote may be missing. -/
def string : Scanner (List Char) :=
  recognize (pair (satisfy (· == '\x22'))
    (pair (many stringPart) (optional (satisfy (· == '\x22')))))

/-- A comment gives nothing, any other lexeme its text. -/
def lexeme : Scanner (Option (List Char)) :=
  choice [map (fun _ => none) comment, map some (tag ['~', '@']),
    map some (recognize (satisfy specialChars.contains)), map some string,
    map some (run1 isWordChar)]

def token : Scanner (Option (List Char)) :=
  preceded separators lexeme

/-- The texts of the tokens of a text. -/
def tokens (cs : List Char) : List (List Char) :=
  match many token cs with
  | none => []
  | some (found, _) => found.filterMap id

theorem many_stop {p : Scanner α} {cs : List Char} (h : p cs = none) :
    many p cs = some ([], cs) := by
  rw [many, h]

theorem many_step {p : Scanner α} {cs rest : List Char} {a : α} (h : p cs = some (a, rest))
    (hlt : rest.length < cs.length) :
    many p cs = (many p rest).map fun (found, last) => (a :: found, last) := by
  rw [many, h]
  exact if_pos hlt

theorem recognize_of_append {p : Scanner α} {cs taken rest : List Char} {a : α}
    (hcs : cs = taken ++ rest) (h : p cs = some (a, rest)) :
    recognize p cs = some (taken, rest) := by
  subst hcs
  simp [recognize, h]

theorem recognize_none {p : Scanner α} {cs : List Char} (h : p cs = none) :
    recognize p cs = none := by
  simp [recognize, h]

theorem map_of_none {f : α → β} {p : Scanner α} {cs : List Char} (h : p cs = none) :
    map f p cs = none := by
  simp [map, h]

theorem map_of_some {f : α → β} {p : Scanner α} {cs rest : List Char} {a : α}
    (h : p cs = some (a, rest)) : map f p cs = some (f a, rest) := by
  simp [map, h]

theorem choice_cons_none {p : Scanner α} {ps : List (Scanner α)} {cs : List Char}
    (h : p cs = none) : choice (p :: ps) cs = choice ps cs := by
  simp [choice, h]

theorem choice_cons_some {p : Scanner α} {ps : List (Scanner α)} {cs rest : List Char} {a : α}
    (h : p cs = some (a, rest)) : choice (p :: ps) cs = some (a, rest) := by
  simp [choice, h]

/-- A run of plain characters goes to the literal as it stands. -/
theorem splitString_plain (cs : List Char) :
    (Lexeme.splitString cs).2 = (Lexeme.splitString (cs.dropWhile isPlain)).2 := by
  induction cs with
  | nil => rfl
  | cons c cs ih =>
    by_cases hc : isPlain c = true
    · rw [List.dropWhile_cons_of_pos hc, ← ih]
      simp only [isPlain, Bool.and_eq_true, bne_iff_ne] at hc
      rw [Lexeme.splitString.eq_def]
      simp [hc.1, hc.2]
    · rw [List.dropWhile_cons_of_neg hc]

/-- The parts of a literal end at its closing double quote, or at the end of the text. -/
inductive StopsAt : List Char → List Char → Prop
  | ending : StopsAt [] []
  | closing (rest : List Char) : StopsAt ('\x22' :: rest) rest

theorem run1_of_pos {p : Char → Bool} {c : Char} (h : p c = true) (cs : List Char) :
    run1 p (c :: cs) = some (c :: cs.takeWhile p, cs.dropWhile p) := by
  simp [run1, run, h]

/-- A part of a literal is found wherever the literal does not stop, and is split off with it. -/
theorem stringPart_cases (cs : List Char) :
    (stringPart cs = none ∧ StopsAt cs (Lexeme.splitString cs).2) ∨
      ∃ part rest, stringPart cs = some (part, rest) ∧ rest.length < cs.length ∧
        (Lexeme.splitString cs).2 = (Lexeme.splitString rest).2 := by
  cases cs with
  | nil => exact .inl ⟨rfl, .ending⟩
  | cons c rest =>
    by_cases hc : isPlain c = true
    · have hne : c ≠ '\\' := by
        rintro rfl
        cases hc
      refine .inr ⟨c :: rest.takeWhile isPlain, rest.dropWhile isPlain, ?_, ?_, ?_⟩
      · refine (choice_cons_none ?_).trans (choice_cons_some (run1_of_pos hc rest))
        simp [recognize, pair, satisfy, hne]
      · exact Nat.lt_succ_of_le (List.dropWhile_suffix isPlain).length_le
      · rw [splitString_plain, List.dropWhile_cons_of_pos hc]
    · obtain rfl | rfl : c = '\\' ∨ c = '\x22' := by
        simpa [isPlain, Decidable.or_iff_not_imp_left] using hc
      · cases rest with
        | nil => exact .inr ⟨['\\'], [], rfl, Nat.zero_lt_succ _, rfl⟩
        | cons d rest =>
          refine .inr ⟨['\\', d], rest, ?_, by simp only [List.length_cons]; omega, rfl⟩
          have hpair : '\\' :: d :: rest = ['\\', d] ++ rest := rfl
          exact choice_cons_some (recognize_of_append hpair rfl)
      · exact .inl ⟨rfl, .closing rest⟩

theorem many_stringPart (cs : List Char) :
    ∃ parts last, many stringPart cs = some (parts, last) ∧
      StopsAt last (Lexeme.splitString cs).2 := by
  induction hn : cs.length using Nat.strongRecOn generalizing cs with
  | ind n ih =>
    obtain ⟨hp, hstop⟩ | ⟨part, rest, hp, hlt, hs⟩ := stringPart_cases cs
    · exact ⟨[], cs, many_stop hp, hstop⟩
    · obtain ⟨parts, last, hm, hstop⟩ := ih _ (hn ▸ hlt) rest rfl
      exact ⟨part :: parts, last, by rw [many_step hp hlt, hm]; rfl, hs ▸ hstop⟩

theorem string_eq (cs : List Char) :
    string ('\x22' :: cs) =
      some ('\x22' :: (Lexeme.splitString cs).1, (Lexeme.splitString cs).2) := by
  obtain ⟨parts, last, hm, hstop⟩ := many_stringPart cs
  generalize hrest : (Lexeme.splitString cs).2 = rest at hstop
  have hcs : '\x22' :: cs = '\x22' :: (Lexeme.splitString cs).1 ++ rest := by
    rw [← hrest, List.cons_append, Lexeme.splitString_append]
  cases hstop with
  | ending =>
    exact recognize_of_append (a := ('\x22', parts, none)) hcs
      (by simp [pair, satisfy, hm, optional])
  | closing =>
    exact recognize_of_append (a := ('\x22', parts, some '\x22')) hcs
      (by simp [pair, satisfy, hm, optional])

theorem string_none {c : Char} (hc : c ≠ '\x22') (cs : List Char) : string (c :: cs) = none := by
  simp [string, recognize, pair, satisfy, hc]

theorem comment_eq (cs : List Char) :
    comment (';' :: cs) = some (';' :: cs.takeWhile (· != '\n'), cs.dropWhile (· != '\n')) :=
  recognize_of_append (by simp) rfl

theorem comment_none {c : Char} (hc : c ≠ ';') (cs : List Char) : comment (c :: cs) = none := by
  simp [comment, recognize, pair, satisfy, hc]

/-- A text that starts with neither a comment nor the mark of two characters. -/
theorem lexeme_of_not_first {c : Char} {cs : List Char} (hc : c ≠ ';')
    (ht : ['~', '@'].isPrefixOf (c :: cs) = false) :
    lexeme (c :: cs) = choice [map some (recognize (satisfy specialChars.contains)),
      map some string, map some (run1 isWordChar)] (c :: cs) := by
  refine (choice_cons_none ?_).trans (choice_cons_none ?_)
  · exact map_of_none (comment_none hc cs)
  · exact map_of_none (by simp [tag, ht])

theorem lexeme_special {c : Char} {cs : List Char} (hc : c ∈ specialChars)
    (ht : ['~', '@'].isPrefixOf (c :: cs) = false) :
    lexeme (c :: cs) = some (some [c], cs) := by
  have hne : c ≠ ';' := by
    rintro rfl
    exact absurd hc (by decide)
  rw [lexeme_of_not_first hne ht]
  have hs : recognize (satisfy specialChars.contains) (c :: cs) = some ([c], cs) :=
    recognize_of_append (a := c) rfl (by simp [satisfy, hc])
  exact choice_cons_some (map_of_some hs)

theorem special_none {c : Char} (hc : c ∉ specialChars) (cs : List Char) :
    recognize (satisfy specialChars.contains) (c :: cs) = none :=
  recognize_none (by simp [satisfy, hc])

theorem lexeme_string (cs : List Char) :
    lexeme ('\x22' :: cs) =
      some (some ('\x22' :: (Lexeme.splitString cs).1), (Lexeme.splitString cs).2) := by
  rw [lexeme_of_not_first (by decide) rfl]
  refine (choice_cons_none ?_).trans (choice_cons_some ?_)
  · exact map_of_none (special_none (by decide) cs)
  · exact map_of_some (string_eq cs)

theorem lexeme_word {c : Char} (hw : isWordChar c = true) (hs : c ∉ specialChars)
    (cs : List Char) :
    lexeme (c :: cs) = some (some (c :: cs.takeWhile isWordChar), cs.dropWhile isWordChar) := by
  have hsemi : c ≠ ';' := by
    rintro rfl
    cases hw
  have hquote : c ≠ '\x22' := by
    rintro rfl
    cases hw
  have htilde : c ≠ '~' := by
    rintro rfl
    exact hs (by decide)
  rw [lexeme_of_not_first hsemi (by simp [List.isPrefixOf, htilde.symm])]
  refine (choice_cons_none ?_).trans ((choice_cons_none ?_).trans (choice_cons_some ?_))
  · exact map_of_none (special_none hs cs)
  · exact map_of_none (string_none hquote cs)
  · exact map_of_some (run1_of_pos hw cs)

/-- Some lexeme is found at every character that is no separator, and it is the scanner's. -/
theorem lexeme_eq {c : Char} (hc : isSeparator c = false) (cs : List Char) :
    lexeme (c :: cs) =
      some ((Lexeme.next c cs).1.token?.map Token.text, (Lexeme.next c cs).2) := by
  unfold Lexeme.next
  split
  · exact choice_cons_some (map_of_some (comment_eq cs))
  all_goals try exact lexeme_special (by decide) rfl
  · split
    · rfl
    · rename_i hmark
      refine lexeme_special (by decide) ?_
      cases cs with
      | nil => rfl
      | cons d ds =>
        have hd : d ≠ '@' := by
          rintro rfl
          exact hmark ds rfl
        simp [List.isPrefixOf, hd.symm]
  · exact lexeme_string cs
  · have hcomma : c ≠ ',' := by
      rintro rfl
      cases hc
    exact lexeme_word (by simp_all [isWordChar, delimiters]) (by simp_all [specialChars]) cs

theorem token_eq (cs : List Char) : token cs = lexeme (cs.dropWhile isSeparator) := by
  cases h : lexeme (cs.dropWhile isSeparator) <;>
    simp [token, preceded, map, pair, separators, run, h]

/-- Every text is read to its end: the repetition stops where separators alone are left, with the
lexemes of the text in order. -/
theorem many_token (cs : List Char) :
    ∃ last, (∀ c ∈ last, isSeparator c = true) ∧ last <:+ cs ∧
      many token cs = some ((Lexeme.scan cs).map fun l => l.token?.map Token.text, last) := by
  fun_induction Lexeme.scan cs with
  | case1 cs hd =>
    have hcs := List.takeWhile_append_dropWhile (p := isSeparator) (l := cs)
    rw [hd, List.append_nil] at hcs
    refine ⟨cs, ?_, List.suffix_refl cs, ?_⟩
    · rw [← hcs]
      exact fun c hc => List.all_eq_true.mp List.all_takeWhile c hc
    · exact many_stop (by rw [token_eq, hd]; rfl)
  | case2 cs c rest hd hlt ih =>
    obtain ⟨last, hlast, hsuffix, hm⟩ := ih
    have hc : isSeparator c = false := by
      simpa [hd] using List.head?_dropWhile_not isSeparator cs
    have hrest : (Lexeme.next c rest).2 <:+ cs := by
      refine List.IsSuffix.trans ⟨_, Lexeme.next_append c rest⟩ ?_
      exact hd ▸ List.dropWhile_suffix isSeparator
    refine ⟨last, hlast, hsuffix.trans hrest, ?_⟩
    rw [many_step ((token_eq cs).trans (hd ▸ lexeme_eq hc rest)) hlt, hm]
    rfl

end Scanner

theorem tokenize_eq_tokens (s : String) :
    tokenize s = (Scanner.tokens s.toList).map String.ofList := by
  obtain ⟨last, _, _, hm⟩ := Scanner.many_token s.toList
  simp only [tokenize, Token.scan, Scanner.tokens, hm, List.filterMap_map, List.map_filterMap]
  congr 1
  funext l
  cases l <;> rfl

end MiniLisp
