import MiniLisp.Native.Arguments
import MiniLisp.Integer

namespace MiniLisp.Native

/-- The result of an operation if it is an integer of the language. -/
def exact (op : Native) (n : Int) : Except Fault Int64 :=
  match integer? n with
  | some k => .ok k
  | none => (Cause.overflow op.name).raise

/-- The quotient rounded down: the one rounded toward zero is one more if it is negative and something
remains. -/
def quotient (a b : Int64) : Except Fault Int64 :=
  if b = 0 then Cause.divisionByZero.raise
  else do
    let q ← exact .div (a.toInt.tdiv b.toInt)
    return if a % b ≠ 0 ∧ decide (a < 0) ≠ decide (b < 0) then q - 1 else q

def combine (op : Native) (a b : Int64) : Except Fault Int64 :=
  match op with
  | .add => exact op (a.toInt + b.toInt)
  | .sub => exact op (a.toInt - b.toInt)
  | .mul => exact op (a.toInt * b.toInt)
  | _ => quotient a b

/-- Combines the arguments from the left with what has been reached so far. -/
def accumulate (op : Native) (reached : Int64) : List Value → Except Fault Int64
  | [] => .ok reached
  | arg :: args => do op.accumulate (← op.combine reached (← op.integer arg)) args

/-- Sums start from 0 and products from 1. -/
def total (op : Native) (start : Int64) (args : List Value) : Except Fault Value :=
  return .int (← op.accumulate start args)

/-- Differences and quotients start from the first argument, or from 0 when it is the only one. -/
def reduction (op : Native) : List Value → Except Fault Value
  | a :: b :: args => do op.total (← op.integer a) (b :: args)
  | args => op.total 0 args

def holds (op : Native) (a b : Int64) : Bool :=
  match op with
  | .less => a.toInt < b.toInt
  | .lessEqual => a.toInt ≤ b.toInt
  | .greater => b.toInt < a.toInt
  | _ => b.toInt ≤ a.toInt

/-- Whether the comparison holds between each number and the next. -/
def holdsAlong (op : Native) : List Int64 → Bool
  | a :: b :: more => op.holds a b && op.holdsAlong (b :: more)
  | _ => true

/-- All arguments have to be integers, whatever the comparison of the first ones says. -/
def comparison (op : Native) (args : List Value) : Except Fault Value :=
  return .bool (op.holdsAlong (← args.mapM op.integer))

end MiniLisp.Native
