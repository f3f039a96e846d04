namespace MiniLisp

/-- Whether a range holds the code point of `c`. The ranges are closed and ascend, so the first one
that does not end before `c` decides. -/
def inRanges : List (Nat × Nat) → Char → Bool
  | [], _ => false
  | (low, high) :: more, c => if c.toNat ≤ high then low ≤ c.toNat else inRanges more c

end MiniLisp
