import MiniLisp.Fault

namespace MiniLisp.Value

def toKey (v : Value) : Except Fault Key :=
  match v.key? with
  | some key => .ok key
  | none => (Cause.unhashable v.typeName).raise

/-- Enters each pair of a row of pairs, from the left. -/
def insertAll (m : Entries Key Value) : List Value → Except Fault (Entries Key Value)
  | key :: value :: rest => do insertAll (Entries.insert (← key.toKey) value m) rest
  | _ => .ok m

/-- Enters a row of keys, each with its value after it. Of equal keys the last one wins. -/
def insertPairs (m : Entries Key Value) (row : List Value) : Except Fault (Entries Key Value) :=
  if row.length % 2 = 1 then Cause.oddEntries.raise else insertAll m row

end MiniLisp.Value
