namespace MiniLisp

/-- The integer `n` if it lies in the range from -2^63 up to but not including 2^63. -/
def integer? (n : Int) : Option Int64 :=
  if Int64.minValue.toInt ≤ n ∧ n ≤ Int64.maxValue.toInt then some (Int64.ofInt n) else none

theorem integer?_eq_some_iff {n : Int} {k : Int64} : integer? n = some k ↔ k.toInt = n := by
  unfold integer?
  constructor
  · intro h
    split at h
    · rename_i hr
      cases h
      exact Int64.toInt_ofInt_of_le hr.1 (Int.lt_add_one_of_le hr.2)
    · cases h
  · rintro rfl
    rw [if_pos ⟨Int64.le_toInt k, Int.le_of_lt_add_one (Int64.toInt_lt k)⟩, Int64.ofInt_toInt]

end MiniLisp
