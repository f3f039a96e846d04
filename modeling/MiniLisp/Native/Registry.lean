import MiniLisp.Arity

namespace MiniLisp

/-- The native functions, in the order in which a global scope binds them. -/
inductive Native where
  | add | sub | mul | div
  | equal | less | lessEqual | greater | greaterEqual
  | list | vector | cons | concat | conj | nth | first | rest | isEmpty | count | seq
  | hashMap | assoc | dissoc | get | contains | keys | vals
  | isNil | isTrue | isFalse | isSymbol | isKeyword | isString | isList | isVector | isMap
  | isSequential | isAtom
  | symbol | keyword
  | prStr | str | prn | println | readString | slurp | readline
  | atom | deref | reset | swap
  | throw | apply | map | eval
  | metadata | withMeta | timeMs
  deriving DecidableEq

namespace Native

def name : Native → String
  | add => "+"
  | sub => "-"
  | mul => "*"
  | div => "/"
  | equal => "="
  | less => "<"
  | lessEqual => "<="
  | greater => ">"
  | greaterEqual => ">="
  | list => "list"
  | vector => "vector"
  | cons => "cons"
  | concat => "concat"
  | conj => "conj"
  | nth => "nth"
  | first => "first"
  | rest => "rest"
  | isEmpty => "empty?"
  | count => "count"
  | seq => "seq"
  | hashMap => "hash-map"
  | assoc => "assoc"
  | dissoc => "dissoc"
  | get => "get"
  | contains => "contains?"
  | keys => "keys"
  | vals => "vals"
  | isNil => "nil?"
  | isTrue => "true?"
  | isFalse => "false?"
  | isSymbol => "symbol?"
  | isKeyword => "keyword?"
  | isString => "string?"
  | isList => "list?"
  | isVector => "vector?"
  | isMap => "map?"
  | isSequential => "sequential?"
  | isAtom => "atom?"
  | symbol => "symbol"
  | keyword => "keyword"
  | prStr => "pr-str"
  | str => "str"
  | prn => "prn"
  | println => "println"
  | readString => "read-string"
  | slurp => "slurp"
  | readline => "readline"
  | atom => "atom"
  | deref => "deref"
  | reset => "reset!"
  | swap => "swap!"
  | throw => "throw"
  | apply => "apply"
  | map => "map"
  | eval => "eval"
  | metadata => "meta"
  | withMeta => "with-meta"
  | timeMs => "time-ms"

def arity : Native → Arity
  | add | sub | mul | div | list | vector | concat | hashMap | prStr | str | prn | println => .any
  | equal | less | lessEqual | greater | greaterEqual | conj | assoc | dissoc => .atLeast 1
  | swap | apply => .atLeast 2
  | cons | nth | get | contains | reset | map | withMeta => .exactly 2
  | timeMs => .exactly 0
  | first | rest | isEmpty | count | seq | keys | vals
  | isNil | isTrue | isFalse | isSymbol | isKeyword | isString | isList | isVector | isMap
  | isSequential | isAtom
  | symbol | keyword | readString | slurp | readline | atom | deref | throw | eval | metadata =>
    .exactly 1

def all : List Native :=
  [add, sub, mul, div, equal, less, lessEqual, greater, greaterEqual,
   list, vector, cons, concat, conj, nth, first, rest, isEmpty, count, seq,
   hashMap, assoc, dissoc, get, contains, keys, vals,
   isNil, isTrue, isFalse, isSymbol, isKeyword, isString, isList, isVector, isMap, isSequential,
   isAtom, symbol, keyword, prStr, str, prn, println, readString, slurp, readline,
   atom, deref, reset, swap, throw, apply, map, eval, metadata, withMeta, timeMs]

theorem mem_all (op : Native) : op ∈ all := by
  cases op <;> decide

def ofName? (name : String) : Option Native :=
  all.find? (·.name == name)

end Native
end MiniLisp
