import MiniLisp.Native.Arithmetic
import MiniLisp.Value.Equality

namespace MiniLisp.Native

def runEqual : List Value → Except Fault Value
  | a :: others => .ok (.bool (others.all fun b => b.same a))
  | args => equal.wrongCount args

def runCons : List Value → Except Fault Value
  | [head, tail] => return .ofList (head :: (← cons.elementsOrNil tail))
  | args => cons.wrongCount args

def runConcat (args : List Value) : Except Fault Value :=
  return .ofList (← args.mapM concat.elementsOrNil).flatten

/-- Lists grow at the front, vectors at the end. -/
def runConj : List Value → Except Fault Value
  | .list items _ :: new => .ok (.ofList (new.reverse ++ items))
  | .vec items _ :: new => .ok (.ofVec (items ++ new))
  | v :: _ => conj.wrongOperand "list or vector" v
  | args => conj.wrongCount args

def runNth : List Value → Except Fault Value
  | [xs, index] => do
    let items ← nth.elements xs
    let i ← nth.integer index
    match if i.toInt < 0 then none else items[i.toInt.toNat]? with
    | some v => return v
    | none => Cause.indexRange.raise
  | args => nth.wrongCount args

def runFirst : List Value → Except Fault Value
  | [xs] => return (← first.elementsOrNil xs).headD .nil
  | args => first.wrongCount args

def runRest : List Value → Except Fault Value
  | [xs] => return .ofList (← rest.elementsOrNil xs).tail
  | args => rest.wrongCount args

def runIsEmpty : List Value → Except Fault Value
  | [xs] => return .bool (← isEmpty.elementsOrNil xs).isEmpty
  | args => isEmpty.wrongCount args

def runCount : List Value → Except Fault Value
  | [xs] => return .int (← count.exact (← count.elementsOrNil xs).length)
  | args => count.wrongCount args

/-- A list as it is, a vector as a list, a string as the list of its characters; nothing at all is
`nil`. -/
def runSeq : List Value → Except Fault Value
  | [.nil] | [.list [] _] | [.vec [] _] => .ok .nil
  | [.list items n] => .ok (.list items n)
  | [.vec items _] => .ok (.ofList items)
  | [.str s] =>
    match s.toList with
    | [] => .ok .nil
    | cs => .ok (.ofList (cs.map fun c => .str (String.ofList [c])))
  | [v] => seq.wrongOperand "sequence" v
  | args => seq.wrongCount args

end MiniLisp.Native
