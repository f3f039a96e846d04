import Mathlib.Data.List.Induction
import MiniLisp.Proofs.RoundTrip

namespace MiniLisp

namespace Decimal

/-- A row of one or more digits and the number that it writes. -/
inductive Digits : List Char → Nat → Prop where
  | single {d : Char} (digit : d.isDigit = true) : Digits [d] (d.toNat - '0'.toNat)
  | snoc {cs : List Char} {d : Char} {n : Nat} (front : Digits cs n) (digit : d.isDigit = true) :
      Digits (cs ++ [d]) (10 * n + (d.toNat - '0'.toNat))

/-- Digits, or a minus sign and digits. -/
inductive Numeral : List Char → Int → Prop where
  | plain {cs : List Char} {n : Nat} (digits : Digits cs n) : Numeral cs n
  | minus {cs : List Char} {n : Nat} (digits : Digits cs n) : Numeral ('-' :: cs) (-n)

theorem isDigits_concat {cs : List Char} {d : Char} (h : cs ≠ []) :
    isDigits (cs ++ [d]) = (isDigits cs && d.isDigit) := by
  have hcs : cs.isEmpty = false := by simpa using h
  simp [isDigits, hcs]

theorem digits_iff {cs : List Char} {n : Nat} :
    Digits cs n ↔ isDigits cs = true ∧ Nat.ofDigitChars 10 cs 0 = n := by
  constructor
  · intro h
    induction h with
    | single digit => simp [isDigits, digit, Nat.ofDigitChars_cons]
    | snoc front digit ih =>
      obtain ⟨hcs, rfl⟩ := ih
      have hne := (by simpa [isDigits] using hcs : _ ∧ _).1
      simp [isDigits_concat hne, hcs, digit, Nat.ofDigitChars_append, Nat.ofDigitChars_cons]
  · rintro ⟨h, rfl⟩
    induction cs using List.reverseRecOn with
    | nil => cases h
    | append_singleton cs d ih =>
      by_cases hcs : cs = []
      · subst hcs
        have hd : d.isDigit = true := by simpa [isDigits] using h
        simpa [Nat.ofDigitChars_cons] using Digits.single hd
      · rw [isDigits_concat hcs, Bool.and_eq_true] at h
        rw [Nat.ofDigitChars_append, Nat.ofDigitChars_cons, Nat.ofDigitChars_nil]
        exact .snoc (ih h.1) h.2

theorem Digits.head_ne {cs : List Char} {n : Nat} (h : Digits ('-' :: cs) n) : False := by
  have hd := (digits_iff.mp h).1
  simp [isDigits] at hd

/-- Numerals are what is parsed as an integer. -/
theorem parse?_eq_some_iff {cs : List Char} {n : Int} : parse? cs = some n ↔ Numeral cs n := by
  constructor
  · intro h
    unfold parse? at h
    split at h <;> split at h <;> cases h
    · exact .minus (digits_iff.mpr ⟨‹_›, rfl⟩)
    · exact .plain (digits_iff.mpr ⟨‹_›, rfl⟩)
  · rintro (h | h)
    · unfold parse?
      split
      · exact h.head_ne.elim
      · rw [if_pos (digits_iff.mp h).1, (digits_iff.mp h).2]
    · rw [parse?, if_pos (digits_iff.mp h).1, (digits_iff.mp h).2]

end Decimal

namespace Quoted

/-- `Spells body text`: what stands after the opening mark, up to the closing one and with it,
writes the text. -/
inductive Spells : List Char → List Char → Prop where
  | closing : Spells [mark] []
  | lineFeed {body text : List Char} (rest : Spells body text) :
      Spells ('\\' :: 'n' :: body) ('\n' :: text)
  | escaped {c : Char} {body text : List Char} (special : c = mark ∨ c = '\\')
      (rest : Spells body text) : Spells ('\\' :: c :: body) (c :: text)
  | kept {c : Char} {body text : List Char} (ordinary : c ∉ ['n', mark, '\\'])
      (rest : Spells body text) : Spells ('\\' :: c :: body) ('\\' :: c :: text)
  | plain {c : Char} {body text : List Char} (ordinary : c ∉ [mark, '\\'])
      (rest : Spells body text) : Spells (c :: body) (c :: text)

theorem decode_plain {c : Char} {body : List Char} (h : c ∉ [mark, '\\']) :
    decode (c :: body) = (decode body).map (c :: ·) := by
  simp only [List.mem_cons, List.not_mem_nil, or_false, not_or] at h
  rw [decode.eq_def]
  simp [h.1, h.2]

theorem Spells.decode {body text : List Char} (h : Spells body text) :
    Quoted.decode body = some text := by
  induction h with
  | closing => simp [Quoted.decode, mark]
  | lineFeed _ ih => simp [Quoted.decode, ih]
  | @escaped c _ _ special _ ih =>
    have hn : c ≠ 'n' := by
      rintro rfl
      revert special
      decide
    simp [Quoted.decode, ih, hn, special]
  | kept ordinary _ ih =>
    simp only [List.mem_cons, List.not_mem_nil, or_false, not_or] at ordinary
    simp [Quoted.decode, ih, ordinary]
  | plain ordinary _ ih => rw [decode_plain ordinary, ih, Option.map_some]

/-- A literal that the scanner has split off and that can be decoded ends with its closing mark. -/
theorem spells_of_decode {cs text : List Char}
    (h : Quoted.decode (Lexeme.splitString cs).1 = some text) :
    Spells (Lexeme.splitString cs).1 text := by
  revert text
  fun_induction Lexeme.splitString cs
  case case1 =>
    intro text h
    cases h
  case case2 c cs split ih =>
    intro text h
    simp only [Quoted.decode] at h
    split at h
    · obtain ⟨t, ht, rfl⟩ := Option.map_eq_some_iff.mp h
      subst_vars
      exact .lineFeed (ih ht)
    · split at h <;> obtain ⟨t, ht, rfl⟩ := Option.map_eq_some_iff.mp h
      · exact .escaped ‹_› (ih ht)
      · exact .kept (by simp_all) (ih ht)
  case case3 cs =>
    intro text h
    have hend : Quoted.decode [mark] = some [] := by simp [Quoted.decode, mark]
    cases hend.symm.trans h
    exact .closing
  case case4 c cs hb hm split ih =>
    intro text h
    by_cases hc : c = '\\'
    · subst hc
      -- a backslash that the scanner takes alone is the last character
      cases cs with
      | nil => simp [split, Lexeme.splitString, Quoted.decode, mark] at h
      | cons d ds => exact (hb d ds rfl rfl).elim
    · have hplain : c ∉ [mark, '\\'] := by simp [mark, hm, hc]
      rw [decode_plain hplain] at h
      obtain ⟨t, ht, rfl⟩ := Option.map_eq_some_iff.mp h
      exact .plain hplain (ih ht)

end Quoted

namespace Value

/-- The tokens that are forms of their own. A word that is nothing else is a symbol. -/
inductive Atom : Token → Value → Prop where
  | int {cs : List Char} {k : Int64} (numeral : Decimal.Numeral cs k.toInt) : Atom (.word cs) (int k)
  | str {body text : List Char} (spelled : Quoted.Spells body text) :
      Atom (.string body) (str (String.ofList text))
  | kw (name : List Char) : Atom (.word (':' :: name)) (kw (String.ofList name))
  | nil : Atom (.word ['n', 'i', 'l']) nil
  | true : Atom (.word ['t', 'r', 'u', 'e']) (bool true)
  | false : Atom (.word ['f', 'a', 'l', 's', 'e']) (bool false)
  | sym {cs : List Char} (number : ∀ n, ¬ Decimal.Numeral cs n) (keyword : cs.head? ≠ some ':')
      (constant : cs ∉ [['n', 'i', 'l'], ['t', 'r', 'u', 'e'], ['f', 'a', 'l', 's', 'e']]) :
      Atom (.word cs) (sym (String.ofList cs))

/-- What a row of values between brackets makes. Curly brackets hold keys, each with its value after
it, and of equal keys the last one wins. -/
inductive Bracketed : Bracket → List Value → Value → Prop where
  | list (items : List Value) : Bracketed .round items (ofList items)
  | vec (items : List Value) : Bracketed .square items (ofVec items)
  | map {pairs entries : Entries Key Value} (ascending : Entries.Ascending entries)
      (last : ∀ key, Entries.find? key entries = Entries.find? key pairs.reverse) :
      Bracketed .curly (pairs.flatMap fun p => [p.1.toValue, p.2]) (ofEntries entries)

/-- The marks that abbreviate a list of two elements, and the symbol at the head of the list. -/
inductive Abbreviates : Mark → String → Prop where
  | quote : Abbreviates .quote "quote"
  | quasiquote : Abbreviates .quasiquote "quasiquote"
  | unquote : Abbreviates .unquote "unquote"
  | spliceUnquote : Abbreviates .spliceUnquote "splice-unquote"
  | deref : Abbreviates .deref "deref"

mutual

/-- These tokens are a form of this value, and no form in it stands at the given nesting level or
deeper. The whole form stands at level 0. -/
inductive Form : Nat → List Token → Value → Prop where
  | atom {levels : Nat} {t : Token} {v : Value} (made : Atom t v) : Form (levels + 1) [t] v
  | bracket {levels : Nat} {b : Bracket} {ts : List Token} {items : List Value} {v : Value}
      (row : Row levels ts items) (made : Bracketed b items v) :
      Form (levels + 1) (.opening b :: (ts ++ [.closing b])) v
  | mark {levels : Nat} {m : Mark} {name : String} {ts : List Token} {v : Value}
      (short : Abbreviates m name) (inner : Form levels ts v) :
      Form (levels + 1) (.mark m :: ts) (ofList [sym name, v])
  | withMeta {levels : Nat} {ms ts : List Token} {note target : Value} (first : Form levels ms note)
      (second : Form levels ts target) :
      Form (levels + 1) (.mark .withMeta :: (ms ++ ts)) (ofList [sym "with-meta", target, note])

/-- Forms one after the other. -/
inductive Row : Nat → List Token → List Value → Prop where
  | nil (levels : Nat) : Row levels [] []
  | cons {levels : Nat} {ts us : List Token} {v : Value} {vs : List Value} (first : Form levels ts v)
      (rest : Row levels us vs) : Row levels (ts ++ us) (v :: vs)

end

theorem abbreviates_symbol {m : Mark} (h : m ≠ .withMeta) : Abbreviates m m.symbol := by
  cases m with
  | quote => exact .quote
  | quasiquote => exact .quasiquote
  | unquote => exact .unquote
  | spliceUnquote => exact .spliceUnquote
  | deref => exact .deref
  | withMeta => exact absurd rfl h

/-- Words are read as the atoms that they are. -/
theorem ofWord_eq_ok_iff {cs : List Char} {v : Value} : ofWord cs = .ok v ↔ Atom (.word cs) v := by
  constructor
  · intro h
    unfold ofWord at h
    split at h
    · rename_i n hn
      split at h <;> cases h
      rename_i k hk
      exact .int (Decimal.parse?_eq_some_iff.mp (integer?_eq_some_iff.mp hk ▸ hn))
    · rename_i hn
      split at h <;> cases h
      · exact .kw _
      · exact .nil
      · exact .true
      · exact .false
      · rename_i hkw hnil htrue hfalse
        refine .sym (fun n hnum => ?_) ?_ (by simp_all)
        · rw [Decimal.parse?_eq_some_iff.mpr hnum] at hn
          cases hn
        · intro hhead
          obtain ⟨name, rfl⟩ := List.head?_eq_some_iff.mp hhead
          exact hkw name rfl
  · intro h
    cases h with
    | @int _ k numeral =>
      have hk : integer? k.toInt = some k := integer?_eq_some_iff.mpr rfl
      simp only [ofWord, Decimal.parse?_eq_some_iff.mpr numeral, hk]
    | kw name => simpa using ofWord_keyword (String.ofList name)
    | nil => exact ofWord_nil
    | true => exact ofWord_true
    | false => exact ofWord_false
    | sym number keyword constant =>
      have hn : Decimal.parse? cs = none :=
        Option.eq_none_iff_forall_ne_some.mpr fun n hn =>
          number n (Decimal.parse?_eq_some_iff.mp hn)
      unfold ofWord
      rw [hn]
      dsimp only
      split <;> simp_all

theorem ofWord_error {cs : List Char} {f : Fault} (h : ofWord cs = .error f) :
    f.kind = Kind.parse := by
  unfold ofWord at h
  split at h
  · split at h <;> cases h
    rfl
  · split at h <;> cases h

/-- A row of pairs is entered from the left. -/
theorem insertAll_pairs (m pairs : Entries Key Value) :
    insertAll m (pairs.flatMap fun p => [p.1.toValue, p.2]) = .ok (Entries.overlay m pairs) := by
  induction pairs generalizing m with
  | nil => rfl
  | cons p pairs ih =>
    simp only [List.flatMap_cons, List.cons_append, List.nil_append, insertAll, toKey_toValue]
    exact ih (Entries.insert p.1 p.2 m)

theorem length_pairs (pairs : Entries Key Value) :
    (pairs.flatMap fun p => [p.1.toValue, p.2]).length = 2 * pairs.length := by
  induction pairs with
  | nil => rfl
  | cons p pairs ih =>
    simp only [List.flatMap_cons, List.length_append, List.length_cons, List.length_nil, ih]
    omega

/-- What can be entered is a row of pairs. -/
theorem pairs_of_insertAll {m es : Entries Key Value} {items : List Value}
    (heven : items.length % 2 = 0) (h : insertAll m items = .ok es) :
    ∃ pairs : Entries Key Value, items = pairs.flatMap fun p => [p.1.toValue, p.2] := by
  fun_induction insertAll m items with
  | case1 m key value rest ih =>
    cases hk : key.toKey with
    | error f =>
      rw [hk] at h
      cases h
    | ok k =>
      rw [hk] at h
      have hrest : rest.length % 2 = 0 := by
        simp only [List.length_cons] at heven
        omega
      obtain ⟨pairs, rfl⟩ := ih k hrest h
      exact ⟨(k, value) :: pairs, by simp [toValue_of_toKey hk]⟩
  | case2 items m hshort =>
    cases items with
    | nil => exact ⟨[], rfl⟩
    | cons key rest =>
      cases rest with
      | nil => cases heven
      | cons value rest => exact (hshort key value rest rfl).elim

theorem Bracketed.ofBracket {b : Bracket} {items : List Value} {v : Value}
    (h : Bracketed b items v) : ofBracket b items = .ok v := by
  cases h with
  | list => rfl
  | vec => rfl
  | @map pairs entries ascending last =>
    have hodd : ¬ (pairs.flatMap fun p => [p.1.toValue, p.2]).length % 2 = 1 := by
      rw [length_pairs]
      omega
    have hall : Entries.overlay [] pairs = entries := by
      refine Entries.Ascending.ext (.overlay .nil pairs) ascending fun key => ?_
      rw [Entries.find?_overlay, last, Entries.find?, Option.or_none]
    simp only [Value.ofBracket, insertPairs, if_neg hodd, insertAll_pairs, hall]
    rfl

theorem insertAll_error {m : Entries Key Value} {items : List Value} {f : Fault}
    (h : insertAll m items = .error f) : f.kind = Kind.hash := by
  fun_induction insertAll m items with
  | case1 m key value rest ih =>
    cases hk : key.toKey with
    | error g =>
      rw [hk] at h
      cases h
      unfold toKey at hk
      split at hk <;> cases hk
      rfl
    | ok k =>
      rw [hk] at h
      exact ih k h
  | case2 => cases h

/-- A row between brackets is read as what it makes, and otherwise it is no row of pairs. -/
theorem ofBracket_cases (b : Bracket) (items : List Value) :
    (∃ v, ofBracket b items = .ok v ∧ Bracketed b items v) ∨
      ∃ f, ofBracket b items = .error f ∧ f.kind = Kind.hash := by
  cases b with
  | round => exact .inl ⟨_, rfl, .list items⟩
  | square => exact .inl ⟨_, rfl, .vec items⟩
  | curly =>
    by_cases hodd : items.length % 2 = 1
    · exact .inr ⟨_, congrArg (Except.map Value.ofEntries) (if_pos hodd), rfl⟩
    · cases hall : insertAll [] items with
      | error f =>
        refine .inr ⟨f, ?_, insertAll_error hall⟩
        simp only [ofBracket, insertPairs, if_neg hodd, hall]
        rfl
      | ok es =>
        obtain ⟨pairs, rfl⟩ := pairs_of_insertAll (by omega) hall
        have hes : Entries.overlay [] pairs = es := by
          simpa [insertAll_pairs] using hall
        have hmade : Bracketed .curly (pairs.flatMap fun p => [p.1.toValue, p.2]) (ofEntries es) := by
          refine .map (hes ▸ Entries.Ascending.overlay .nil pairs) fun key => ?_
          rw [← hes, Entries.find?_overlay, Entries.find?, Option.or_none]
        exact .inl ⟨_, hmade.ofBracket, hmade⟩

end Value
end MiniLisp
