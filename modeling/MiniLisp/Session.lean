import MiniLisp.Eval
import MiniLisp.Prelude

namespace MiniLisp.Session

/-- Reads and evaluates the first form of the text; `none` if it holds no form. -/
def evalText (fuel : Nat) (source : String) (scope : ScopeId) : Run (Option Value) := do
  match ← ofExcept (Value.read source) with
  | none => return none
  | some form => return some (← eval fuel form scope)

/-- Reads, evaluates and prints. Failures are printed like any other result. -/
def rep (fuel : Nat) (source : String) (scope : ScopeId) : Run (Option String) := do
  let shown? ← match ← Run.attempt (evalText fuel source scope) with
    | .ok v? => pure v?
    | .error fault => pure (some fault.toValue)
  match shown? with
  | none => return none
  | some v => return some (← Run.query fun heap => v.print heap .readable)

/-- What a global scope holds before the prelude. -/
def globalBindings : Entries String Value :=
  let natives := Native.all.foldl (fun es op => Entries.insert op.name (.native op .nil) es) []
  Entries.insert "*ARGV*" (.ofList []) (Entries.insert "*host-language*" (.str "rust") natives)

/-- Makes each definition in turn, whether or not those before it succeeded. -/
def load (fuel : Nat) (scope : ScopeId) : List String → Run Unit
  | [] => return ()
  | source :: sources => do
    discard (Run.attempt (evalText fuel source scope))
    load fuel scope sources

/-- Makes a global scope: the natives, what is known about the host, and the prelude. -/
def newGlobal (fuel : Nat) : Run ScopeId := do
  let scope ← Run.enter none globalBindings
  load fuel scope Prelude.all
  return scope

end MiniLisp.Session
