import MiniLisp.Native.Arguments
import MiniLisp.Value.Read

namespace MiniLisp.Native

/-- Which values a predicate is true of. -/
def recognizes : Native → Value → Bool
  | isNil, .nil => true
  | isTrue, .bool true => true
  | isFalse, .bool false => true
  | isSymbol, .sym _ => true
  | isKeyword, .kw _ => true
  | isString, .str _ => true
  | isList, .list .. => true
  | isVector, .vec .. => true
  | isMap, .map .. => true
  | isSequential, .list .. | isSequential, .vec .. => true
  | isAtom, .atom .. => true
  | _, _ => false

/-- A predicate is false of any other number of arguments than one. -/
def runPredicate (op : Native) : List Value → Except Fault Value
  | [v] => .ok (.bool (op.recognizes v))
  | _ => .ok (.bool false)

def runSymbol : List Value → Except Fault Value
  | [.str s] => .ok (.sym s)
  | [v] => symbol.wrongType "string" v
  | args => symbol.wrongCount args

def runKeyword : List Value → Except Fault Value
  | [.kw name] => .ok (.kw name)
  | [.str s] => .ok (.ofKeywordName s)
  | [v] => keyword.wrongType "string" v
  | args => keyword.wrongCount args

/-- A text without a form reads as `nil`. -/
def runReadString : List Value → Except Fault Value
  | [source] => return (← Value.read (← readString.text source)).getD .nil
  | args => readString.wrongCount args

/-- The payload of the error is the argument itself. -/
def runThrow : List Value → Except Fault Value
  | [payload] => .error ⟨.user, payload⟩
  | args => throw.wrongCount args

def runMetadata : List Value → Except Fault Value
  | [v] => .ok v.note
  | args => metadata.wrongCount args

def runWithMeta : List Value → Except Fault Value
  | [v, note] => .ok (v.withNote note)
  | args => withMeta.wrongCount args

end MiniLisp.Native
