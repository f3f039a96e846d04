import MiniLisp.Value.HashMap

namespace MiniLisp.Native

variable {α : Type}

/-- Refuses a number of arguments that the native is not made for. -/
def wrongCount (op : Native) (args : List Value) : Except Fault α :=
  (Cause.arity op.name op.arity args.length).raise

def wrongOperand (op : Native) (expected : String) (got : Value) : Except Fault α :=
  (Cause.operand op.name expected got.typeName).raise

def wrongType (op : Native) (expected : String) (got : Value) : Except Fault α :=
  (Cause.type op.name expected got.typeName).raise

def integer (op : Native) : Value → Except Fault Int64
  | .int n => .ok n
  | v => op.wrongOperand "integer" v

def text (op : Native) : Value → Except Fault String
  | .str s => .ok s
  | v => op.wrongOperand "string" v

/-- The elements of a list or vector. -/
def elements (op : Native) (v : Value) : Except Fault (List Value) :=
  match v.elements? with
  | some items => .ok items
  | none => op.wrongOperand "list or vector" v

/-- The elements of a list or vector; `nil` has none. -/
def elementsOrNil (op : Native) : Value → Except Fault (List Value)
  | .nil => .ok []
  | v => op.elements v

def entries (op : Native) : Value → Except Fault (Entries Key Value)
  | .map entries _ => .ok entries
  | v => op.wrongType "hash-map" v

def cell (op : Native) : Value → Except Fault CellId
  | .atom cell _ => .ok cell
  | v => op.wrongType "atom" v

/-- Accepts natives and functions. -/
def callable (op : Native) : Value → Except Fault Unit
  | .native .. | .fn .. => .ok ()
  | v => op.wrongType "function" v

/-- The elements of a list or vector that is to be called on. -/
def callArguments (op : Native) (v : Value) : Except Fault (List Value) :=
  match v.elements? with
  | some items => .ok items
  | none => op.wrongType "list or vector" v

end MiniLisp.Native
