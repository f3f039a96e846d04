import MiniLisp.Native.Sequence
import MiniLisp.Native.HashMap
import MiniLisp.Native.Scalar
import MiniLisp.Native.Effect

namespace MiniLisp

/-- The natives that call functions. -/
inductive Callback where
  | apply | map | swap | eval
  deriving DecidableEq

/-- What a native does, told by what it may touch. -/
inductive Behaviour where
  /-- The answer depends on the arguments alone. -/
  | compute (f : List Value → Except Fault Value)
  /-- The world is read or changed, but no function is called. -/
  | act (f : List Value → Run Value)
  | call (c : Callback)

def Native.behaviour : Native → Behaviour
  | add => .compute (add.total 0)
  | sub => .compute sub.reduction
  | mul => .compute (mul.total 1)
  | div => .compute div.reduction
  | equal => .compute runEqual
  | less => .compute less.comparison
  | lessEqual => .compute lessEqual.comparison
  | greater => .compute greater.comparison
  | greaterEqual => .compute greaterEqual.comparison
  | list => .compute fun args => .ok (.ofList args)
  | vector => .compute fun args => .ok (.ofVec args)
  | cons => .compute runCons
  | concat => .compute runConcat
  | conj => .compute runConj
  | nth => .compute runNth
  | first => .compute runFirst
  | rest => .compute runRest
  | isEmpty => .compute runIsEmpty
  | count => .compute runCount
  | seq => .compute runSeq
  | hashMap => .compute runHashMap
  | assoc => .compute runAssoc
  | dissoc => .compute runDissoc
  | get => .compute runGet
  | contains => .compute runContains
  | keys => .compute runKeys
  | vals => .compute runVals
  | isNil => .compute isNil.runPredicate
  | isTrue => .compute isTrue.runPredicate
  | isFalse => .compute isFalse.runPredicate
  | isSymbol => .compute isSymbol.runPredicate
  | isKeyword => .compute isKeyword.runPredicate
  | isString => .compute isString.runPredicate
  | isList => .compute isList.runPredicate
  | isVector => .compute isVector.runPredicate
  | isMap => .compute isMap.runPredicate
  | isSequential => .compute isSequential.runPredicate
  | isAtom => .compute isAtom.runPredicate
  | symbol => .compute runSymbol
  | keyword => .compute runKeyword
  | prStr => .act (runText .readable " ")
  | str => .act (runText .display "")
  | prn => .act (runPrintLine .readable)
  | println => .act (runPrintLine .display)
  | readString => .compute runReadString
  | slurp => .act runSlurp
  | readline => .act runReadline
  | atom => .act runAtom
  | deref => .act runDeref
  | reset => .act runReset
  | swap => .call .swap
  | throw => .compute runThrow
  | apply => .call .apply
  | map => .call .map
  | eval => .call .eval
  | metadata => .compute runMetadata
  | withMeta => .compute runWithMeta
  | timeMs => .act runTimeMs

end MiniLisp
