import MiniLisp.Value
import MiniLisp.Files
import MiniLisp.Limits

namespace MiniLisp

namespace Kind

def argument : Kind := ⟨"ArgError"⟩
def arithmetic : Kind := ⟨"ArithmeticError"⟩
def index : Kind := ⟨"IndexError"⟩
def type : Kind := ⟨"TypeError"⟩
def file : Kind := ⟨"FileError"⟩
def symbol : Kind := ⟨"SymbolError"⟩
def handler : Kind := ⟨"TryError"⟩
def params : Kind := ⟨"BindsError"⟩
def binding : Kind := ⟨"LetError"⟩
def apply : Kind := ⟨"ApplyError"⟩
def paren : Kind := ⟨"ParenError"⟩
def hash : Kind := ⟨"HashError"⟩
def parse : Kind := ⟨"ParseError"⟩
def user : Kind := ⟨"UserError"⟩
def recursion : Kind := ⟨"RecursionError"⟩

end Kind

/-- A failure: a kind, and any value as its payload. The interpreter's own failures have a cause, whose
message is their payload. -/
structure Fault where
  kind : Kind
  payload : Value

namespace Fault

/-- The failure on its way to the nearest handler. -/
def toValue (f : Fault) : Value :=
  .error f.kind f.payload

/-- The failure as a handler receives it. -/
def toCaught (f : Fault) : Value :=
  .caught f.kind f.payload

end Fault

/-- What the interpreter itself finds wrong with a program. -/
inductive Cause where
  | arity (name : String) (expected : Arity) (got : Nat)
  /-- An argument of the wrong type. -/
  | operand (name expected got : String)
  /-- An argument of the wrong type, for the natives that report the kind `TypeError`. -/
  | type (name expected got : String)
  | overflow (name : String)
  | divisionByZero
  | indexRange
  | unhashable (typeName : String)
  | oddEntries
  | unbound (name : String)
  | notCallable (shown : String)
  | params
  | bindingForm
  | oddBindings
  | bindingName
  | catchClause
  | nesting
  | endOfInput
  | strayCloser (text : String)
  | unclosed
  | integerRange (text : String)
  | openString
  | recursion
  | file (fault : FileFault)

namespace Cause

def kind : Cause → Kind
  | arity .. | operand .. => .argument
  | type .. => .type
  | overflow _ | divisionByZero => .arithmetic
  | indexRange => .index
  | unhashable _ | oddEntries => .hash
  | unbound _ => .symbol
  | notCallable _ => .apply
  | params => .params
  | bindingForm | oddBindings | bindingName => .binding
  | catchClause => .handler
  | unclosed => .paren
  | nesting | endOfInput | strayCloser _ | integerRange _ | openString => .parse
  | recursion => .recursion
  | file _ => .file

def message : Cause → String
  | arity name expected got =>
    s!"'{name}' requires {expected.describe} argument(s), received {got}"
  | operand name expected got | type name expected got =>
    s!"'{name}': Wrong type argument: expected {expected}, got {got}"
  | overflow name => s!"'{name}': Integer overflow"
  | divisionByZero => "Division by zero"
  | indexRange => "Index out of range"
  | unhashable typeName => s!"'{typeName}' cannot be used as a hash-map key"
  | oddEntries => "Insufficient number of items"
  | unbound name => s!"Symbol value is void: '{name}'"
  | notCallable shown => s!"'{shown}' is not callable"
  | params => "Illegal binds list"
  | bindingForm => "Invalid bind form"
  | oddBindings => "Insufficient bind forms"
  | bindingName => "Attempt to bind to non-symbol"
  | catchClause => "Failing 'catch*' clause"
  | nesting => s!"Expression too deeply nested (max depth: {maxFormDepth})"
  | endOfInput => "Unexpected end of input"
  | strayCloser text => s!"Unexpected '{text}'"
  | unclosed => "Missing closing parenthesis"
  | integerRange text => s!"Integer literal out of range: '{text}'"
  | openString => "expected '\"', got EOF"
  | recursion => s!"Evaluation depth limit exceeded (max: {maxEvalDepth})"
  | file fault => fault.message

def fault (cause : Cause) : Fault :=
  ⟨cause.kind, .str cause.message⟩

def raise {m : Type → Type} [MonadExcept Fault m] {α : Type} (cause : Cause) : m α :=
  throw cause.fault

end Cause

namespace Arity

/-- Fails unless `count` arguments are right for the form or native of this name. -/
def check (arity : Arity) (name : String) (count : Nat) : Except Fault Unit :=
  if arity.Accepts count then .ok () else (Cause.arity name arity count).raise

end Arity
end MiniLisp
