namespace MiniLisp

/-- How many arguments a form or a native accepts. -/
inductive Arity where
  | exactly (n : Nat)
  | atLeast (n : Nat)
  | between (low high : Nat)
  | any
  deriving DecidableEq

namespace Arity

def Accepts : Arity → Nat → Prop
  | exactly n, count => count = n
  | atLeast n, count => n ≤ count
  | between low high, count => low ≤ count ∧ count ≤ high
  | any, _ => True

instance : (arity : Arity) → (count : Nat) → Decidable (arity.Accepts count)
  | exactly n, count => inferInstanceAs (Decidable (count = n))
  | atLeast n, count => inferInstanceAs (Decidable (n ≤ count))
  | between low high, count => inferInstanceAs (Decidable (low ≤ count ∧ count ≤ high))
  | any, _ => inferInstanceAs (Decidable True)

/-- The count as error messages name it. -/
def describe : Arity → String
  | exactly n => toString n
  | atLeast n => "at least " ++ toString n
  | between low high => toString low ++ "-" ++ toString high
  | any => "any number of"

end Arity
end MiniLisp
