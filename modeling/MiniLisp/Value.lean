import MiniLisp.Native.Registry
import MiniLisp.Entries

namespace MiniLisp

/-- Names a scope of the heap. -/
structure ScopeId where
  index : Nat
  deriving DecidableEq

/-- Names the cell of an atom. -/
structure CellId where
  index : Nat
  deriving DecidableEq

/-- Names a function of the heap. -/
structure FnId where
  index : Nat
  deriving DecidableEq

/-- The kind of an error. Kinds are open-ended: any tag is one. -/
structure Kind where
  tag : String
  deriving DecidableEq

/-- What a hash-map takes as a key. -/
inductive Key where
  | str (text : String)
  | kw (name : String)
  deriving DecidableEq

/-- All strings come before all keywords. -/
def Key.order : Key → Key → Ordering
  | str a, str b => compare a b
  | str _, kw _ => .lt
  | kw _, str _ => .gt
  | kw a, kw b => compare a b

instance : Ord Key := ⟨Key.order⟩

/-- What programs compute with, and what they are written in: the reader returns values, and the evaluator
runs them. Functions and atoms are references into a heap, so they are compared by identity. The last
argument of the constructors from `list` to `atom` is the metadata, `nil` when none is set. A keyword's
name leaves out the colon in front. -/
inductive Value where
  | nil
  | bool (b : Bool)
  | int (n : Int64)
  | str (text : String)
  | sym (name : String)
  | kw (name : String)
  | list (items : List Value) (note : Value)
  | vec (items : List Value) (note : Value)
  | map (entries : List (Key × Value)) (note : Value)
  | native (op : Native) (note : Value)
  /-- A function made by the program; an expander takes its arguments unevaluated. -/
  | fn (id : FnId) (expander : Bool) (note : Value)
  | atom (cell : CellId) (note : Value)
  /-- A failure on its way to the nearest handler. -/
  | error (kind : Kind) (payload : Value)
  /-- A failure that a handler has received; it is ordinary data. -/
  | caught (kind : Kind) (payload : Value)

instance : Inhabited Value := ⟨.nil⟩

def Key.toValue : Key → Value
  | str text => .str text
  | kw name => .kw name

namespace Value

def ofList (items : List Value) : Value :=
  list items nil

def ofVec (items : List Value) : Value :=
  vec items nil

def ofEntries (entries : Entries Key Value) : Value :=
  map entries nil

/-- A keyword may be named with or without its colon. -/
def ofKeywordName (name : String) : Value :=
  match name.toList with
  | ':' :: cs => kw (String.ofList cs)
  | _ => kw name

def isTruthy : Value → Bool
  | nil | bool false => false
  | _ => true

/-- The elements of a list or vector. -/
def elements? : Value → Option (List Value)
  | list items _ | vec items _ => some items
  | _ => none

def key? : Value → Option Key
  | str text => some (.str text)
  | kw name => some (.kw name)
  | _ => none

def isSymbol (name : String) : Value → Bool
  | sym s => s == name
  | _ => false

def typeName : Value → String
  | nil => "nil"
  | bool _ => "boolean"
  | int _ => "integer"
  | str _ => "string"
  | sym _ => "symbol"
  | kw _ => "keyword"
  | list .. => "list"
  | vec .. => "vector"
  | map .. => "hash-map"
  | native .. => "builtin"
  | fn _ true _ => "macro"
  | fn _ false _ => "function"
  | atom .. => "atom"
  | error .. => "error"
  | caught .. => "caught-error"

/-- The metadata, `nil` for a value that cannot carry any. -/
def note : Value → Value
  | list _ n | vec _ n | map _ n | native _ n | fn _ _ n | atom _ n => n
  | _ => nil

/-- The value with this metadata. A value that cannot carry any stays as it is. -/
def withNote : Value → Value → Value
  | list items _, n => list items n
  | vec items _, n => vec items n
  | map entries _, n => map entries n
  | native op _, n => native op n
  | fn id expander _, n => fn id expander n
  | atom cell _, n => atom cell n
  | v, _ => v

end Value
end MiniLisp
