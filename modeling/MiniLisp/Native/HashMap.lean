import MiniLisp.Native.Arguments

namespace MiniLisp.Native

def runHashMap (args : List Value) : Except Fault Value :=
  return .ofEntries (← Value.insertPairs [] args)

def runAssoc : List Value → Except Fault Value
  | m :: pairs => do return .ofEntries (← Value.insertPairs (← assoc.entries m) pairs)
  | args => assoc.wrongCount args

/-- What cannot be a key is not in the map. -/
def runDissoc : List Value → Except Fault Value
  | m :: ks => do
    let entries ← dissoc.entries m
    return .ofEntries ((ks.filterMap Value.key?).foldl (fun es k => Entries.erase k es) entries)
  | args => dissoc.wrongCount args

def runGet : List Value → Except Fault Value
  | [.nil, _] => .ok .nil
  | [m, key] => do
    let entries ← get.entries m
    return (key.key?.bind fun k => Entries.find? k entries).getD .nil
  | args => get.wrongCount args

def runContains : List Value → Except Fault Value
  | [m, key] => do
    let entries ← contains.entries m
    return .bool (key.key?.bind fun k => Entries.find? k entries).isSome
  | args => contains.wrongCount args

def runKeys : List Value → Except Fault Value
  | [m] => return .ofList ((← keys.entries m).map fun (k, _) => k.toValue)
  | args => keys.wrongCount args

def runVals : List Value → Except Fault Value
  | [m] => return .ofList ((← vals.entries m).map fun (_, v) => v)
  | args => vals.wrongCount args

end MiniLisp.Native
