import MiniLisp.Proofs.Readable
import MiniLisp.Value.Print

namespace MiniLisp

theorem isWordChar_of_isDigit {c : Char} (h : c.isDigit = true) : isWordChar c = true := by
  have hdigits : ∀ n < 58, 48 ≤ n → isWordChar (Char.ofNat n) = true := by
    decide
  simp only [Char.isDigit, Bool.and_eq_true, decide_eq_true_eq] at h
  obtain ⟨hlow, hhigh⟩ := h
  rw [← Char.ofNat_toNat c]
  exact hdigits c.toNat (Nat.lt_succ_of_le hhigh) hlow

namespace Decimal

theorem isDigits_toDigits (n : Nat) : isDigits (Nat.toDigits 10 n) = true := by
  simp only [isDigits, Bool.and_eq_true, Bool.not_eq_true', List.isEmpty_eq_false_iff,
    List.all_eq_true]
  exact ⟨Nat.toDigits_ne_nil, fun c hc => Nat.isDigit_of_mem_toDigits (by decide) (by decide) hc⟩

theorem parse?_render (n : Int) : parse? (render n) = some n := by
  cases n with
  | ofNat n =>
    have hd := isDigits_toDigits n
    simp only [render]
    unfold parse?
    split
    · rename_i cs hcs
      rw [hcs] at hd
      simp [isDigits] at hd
    · rw [if_pos hd, Nat.ofDigitChars_ten_toDigits]
      rfl
  | negSucc n =>
    rw [render, parse?, if_pos (isDigits_toDigits (n + 1)), Nat.ofDigitChars_ten_toDigits]
    rfl

theorem isWord_render (n : Int) : IsWord (render n) := by
  have word : ∀ n, ∀ c ∈ Nat.toDigits 10 n, isWordChar c = true := fun n c hc =>
    isWordChar_of_isDigit (Nat.isDigit_of_mem_toDigits (by decide) (by decide) hc)
  cases n with
  | ofNat n =>
    have hdigit : ∀ c ∈ Nat.toDigits 10 n, c.isDigit = true := fun c hc =>
      Nat.isDigit_of_mem_toDigits (by decide) (by decide) hc
    have hword := word n
    simp only [render]
    cases hr : Nat.toDigits 10 n with
    | nil => exact Nat.toDigits_ne_nil hr
    | cons c cs =>
      rw [hr] at hdigit hword
      refine ⟨?_, hword⟩
      intro hc
      have := hdigit c (List.mem_cons_self ..)
      simp only [List.mem_cons, List.not_mem_nil, or_false] at hc
      rcases hc with rfl | rfl | rfl <;> cases this
  | negSucc n =>
    refine ⟨by decide, ?_⟩
    intro c hc
    rcases List.mem_cons.mp hc with rfl | hc
    · decide
    · exact word (n + 1) c hc

end Decimal

namespace Value

/-- The token of a value that stands in no brackets of its own, or too deep to have them printed. -/
def scalarToken : Value → Token
  | str s => .string (Quoted.encode s.toList ++ [Quoted.mark])
  | v => .word (scalarText .readable v)

/-- The tokens of the text of a value of which so many levels are printed. -/
def tokens : Nat → Value → List Token
  | 0, v => [scalarToken v]
  | levels + 1, v =>
    match v.row? with
    | none => [scalarToken v]
    | some (b, row) => .opening b :: row.flatMap (tokens levels) ++ [.closing b]

theorem ofWord_keyword (name : String) : ofWord (':' :: name.toList) = .ok (kw name) := by
  have hp : Decimal.parse? (':' :: name.toList) = none := by
    simp [Decimal.parse?, Decimal.isDigits, Char.isDigit]
  simp [ofWord, hp]

theorem isWord_elision : IsWord elision := by
  decide

/-- The text of a scalar is one token. -/
theorem scan_scalarText {v : Value} (h : Readable v) {rest : List Char} (hr : EndsWord rest) :
    Token.scan (scalarText .readable v ++ rest) = scalarToken v :: Token.scan rest := by
  cases h with
  | str s => exact Token.scan_literal s.toList rest
  | bool b => cases b <;> exact Token.scan_word (by decide) hr
  | nil => exact Token.scan_word (by decide) hr
  | int n => exact Token.scan_word (Decimal.isWord_render n.toInt) hr
  | sym word => exact Token.scan_word word hr
  | kw word => exact Token.scan_word word hr
  | list | vec | map => exact Token.scan_word isWord_elision hr

theorem joinTexts_cons (sep t u : List Char) (ts : List (List Char)) :
    joinTexts sep (t :: u :: ts) = t ++ sep ++ joinTexts sep (u :: ts) := by
  simp [joinTexts, List.intersperse]

theorem joinTexts_singleton (sep t : List Char) : joinTexts sep [t] = t := by
  simp [joinTexts]

theorem text_key (heap : Heap) (style : Style) (levels : Nat) (key : Key) :
    text heap style levels key.toValue = scalarText style key.toValue := by
  cases levels <;> cases key <;> rfl

theorem joinTexts_entries (heap : Heap) (style : Style) (levels : Nat)
    (entries : List (Key × Value)) :
    joinTexts [' '] (entries.map fun e =>
        scalarText style e.1.toValue ++ ' ' :: text heap style levels e.2) =
      joinTexts [' '] ((entries.flatMap fun e => [e.1.toValue, e.2]).map (text heap style levels)) := by
  induction entries with
  | nil => rfl
  | cons e es ih =>
    cases es with
    | nil =>
      simp [joinTexts_cons, joinTexts_singleton, text_key]
    | cons f fs =>
      simp only [List.map_cons, List.flatMap_cons, List.cons_append, List.nil_append,
        joinTexts_cons, text_key] at ih ⊢
      rw [ih]
      simp

theorem text_row {v : Value} {b : Bracket} {row : List Value} (hr : v.row? = some (b, row))
    (heap : Heap) (style : Style) (levels : Nat) :
    text heap style (levels + 1) v =
      b.opening :: joinTexts [' '] (row.map (text heap style levels)) ++ [b.closing] := by
  cases v <;> cases hr
  · rfl
  · rfl
  · rename_i entries note
    rw [← joinTexts_entries]
    rfl

theorem text_leaf {v : Value} (h : Readable v) (hr : v.row? = none) (heap : Heap) (style : Style)
    (levels : Nat) : text heap style (levels + 1) v = scalarText style v := by
  cases h <;> first | rfl | cases hr

theorem text_zero {v : Value} (h : Readable v) (heap : Heap) (style : Style) :
    text heap style 0 v = scalarText style v := by
  cases h <;> rfl

theorem endsWord_nil : EndsWord [] := by
  intro c hc
  cases hc

theorem endsWord_closing (b : Bracket) (rest : List Char) : EndsWord (b.closing :: rest) := by
  intro c hc
  cases hc
  cases b <;> rfl

/-- A row of texts, each two with a space between them, holds the tokens of its elements. -/
theorem scan_row (row : List Value) {write : Value → List Char} {split : Value → List Token}
    (h : ∀ x ∈ row, ∀ rest, EndsWord rest →
      Token.scan (write x ++ rest) = split x ++ Token.scan rest)
    {rest : List Char} (hr : EndsWord rest) :
    Token.scan (joinTexts [' '] (row.map write) ++ rest) = row.flatMap split ++ Token.scan rest := by
  induction row with
  | nil => rfl
  | cons x row ih =>
    have hx := h x (List.mem_cons_self ..)
    have ih := ih fun y hy => h y (List.mem_cons_of_mem _ hy)
    cases row with
    | nil => simpa [joinTexts_singleton] using hx rest hr
    | cons y row =>
      have hspace : EndsWord ([' '] ++ (joinTexts [' '] ((y :: row).map write) ++ rest)) := by
        intro c hc
        cases hc
        rfl
      calc
        Token.scan (joinTexts [' '] ((x :: y :: row).map write) ++ rest)
        _ = Token.scan (write x ++ ([' '] ++ (joinTexts [' '] ((y :: row).map write) ++ rest))) := by
          simp [joinTexts_cons]
        _ = split x ++ Token.scan (joinTexts [' '] ((y :: row).map write) ++ rest) := by
          rw [hx _ hspace, List.singleton_append, Token.scan_separator rfl]
        _ = (x :: y :: row).flatMap split ++ Token.scan rest := by
          simp only [ih, List.flatMap_cons, List.append_assoc]

/-- The scanner finds in a printed value its tokens, and goes on behind it. -/
theorem scan_text {v : Value} (h : Readable v) (heap : Heap) (levels : Nat) {rest : List Char}
    (hr : EndsWord rest) :
    Token.scan (text heap .readable levels v ++ rest) = tokens levels v ++ Token.scan rest := by
  induction levels generalizing v rest with
  | zero =>
    rw [text_zero h]
    exact scan_scalarText h hr
  | succ levels ih =>
    cases hv : v.row? with
    | none =>
      rw [text_leaf h hv, tokens, hv]
      exact scan_scalarText h hr
    | some found =>
      obtain ⟨b, row⟩ := found
      have hrow := scan_row row (fun x hx rest he => ih (h.row hv x hx) he)
        (endsWord_closing b rest)
      rw [text_row hv, tokens, hv, List.cons_append, List.cons_append, Token.scan_opening,
        List.append_assoc, List.singleton_append, hrow, Token.scan_closing]
      simp

end Value
end MiniLisp
