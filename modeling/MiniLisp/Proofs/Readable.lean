import MiniLisp.Proofs.Entries
import MiniLisp.Proofs.Lexing
import MiniLisp.Value.Read

namespace MiniLisp.Value

/-- The bracket and the elements between which a container is written. -/
def row? : Value → Option (Bracket × List Value)
  | list items _ => some (.round, items)
  | vec items _ => some (.square, items)
  | map entries _ => some (.curly, entries.flatMap fun e => [e.1.toValue, e.2])
  | _ => none

/-- `Part v n w`: at nesting level `n` of `v` stands `w`. The value itself stands at level 0. -/
inductive Part : Value → Nat → Value → Prop where
  | self (v : Value) : Part v 0 v
  | element {v w x : Value} {n : Nat} {b : Bracket} {row : List Value} (found : v.row? = some (b, row))
      (mem : x ∈ row) (part : Part x n w) : Part v (n + 1) w

/-- Nothing stands at the given level or deeper. -/
def fits : Nat → Value → Bool
  | 0, _ => false
  | levels + 1, v =>
    match v.row? with
    | none => true
    | some (_, row) => row.all (fits levels)

/-- What the reader can make of a word or of brackets around such values. The keys of a hash-map
ascend, and metadata is not written. -/
inductive Readable : Value → Prop where
  | nil : Readable .nil
  | bool (b : Bool) : Readable (.bool b)
  | int (n : Int64) : Readable (.int n)
  | str (text : String) : Readable (.str text)
  | sym {name : String} (word : IsWord name.toList)
      (symbol : ofWord name.toList = .ok (.sym name)) : Readable (.sym name)
  | kw {name : String} (word : IsWord (':' :: name.toList)) : Readable (.kw name)
  | list {items : List Value} {note : Value} (elements : ∀ x ∈ items, Readable x) :
      Readable (.list items note)
  | vec {items : List Value} {note : Value} (elements : ∀ x ∈ items, Readable x) :
      Readable (.vec items note)
  | map {entries : List (Key × Value)} {note : Value} (ascending : Entries.Ascending entries)
      (keys : ∀ e ∈ entries, Readable e.1.toValue) (values : ∀ e ∈ entries, Readable e.2) :
      Readable (.map entries note)

theorem fits_succ {levels : Nat} {v : Value} {b : Bracket} {row : List Value}
    (h : v.row? = some (b, row)) : fits (levels + 1) v = row.all (fits levels) := by
  simp [fits, h]

theorem fits_leaf {v : Value} (h : v.row? = none) (levels : Nat) : fits (levels + 1) v = true := by
  simp [fits, h]

/-- A value fits into so many levels exactly if no part of it stands deeper. -/
theorem fits_iff {levels : Nat} {v : Value} :
    fits levels v = true ↔ ∀ n w, Part v n w → n < levels := by
  induction levels generalizing v with
  | zero =>
    constructor
    · intro h
      cases h
    · intro h
      exact absurd (h 0 v (.self v)) (Nat.lt_irrefl 0)
  | succ levels ih =>
    constructor
    · intro h n w hp
      cases hp with
      | self => exact Nat.zero_lt_succ levels
      | element found mem part =>
        rw [fits_succ found, List.all_eq_true] at h
        exact Nat.succ_lt_succ (ih.mp (h _ mem) _ _ part)
    · intro h
      cases hr : v.row? with
      | none => exact fits_leaf hr levels
      | some found =>
        rw [fits_succ hr, List.all_eq_true]
        intro x hx
        exact ih.mpr fun n w hp => Nat.lt_of_succ_lt_succ (h (n + 1) w (.element hr hx hp))

theorem Readable.row {v : Value} (h : Readable v) {b : Bracket} {row : List Value}
    (hr : v.row? = some (b, row)) : ∀ x ∈ row, Readable x := by
  cases h <;> cases hr
  case list.refl elements => exact elements
  case vec.refl elements => exact elements
  case map.refl ascending keys values =>
    intro x hx
    obtain ⟨e, he, hx⟩ := List.mem_flatMap.mp hx
    rcases List.mem_cons.mp hx with rfl | hx
    · exact keys e he
    · exact List.mem_singleton.mp hx ▸ values e he

end MiniLisp.Value
