import MiniLisp.Native.Behaviour

namespace MiniLisp

/-- Evaluates a form in a scope. Everything that calls back into evaluation takes one as an argument. -/
abbrev Evaluator := Value → ScopeId → Run Value

namespace Closure

/-- Opens the scope of a call: the parameters, inside the scope in which the function was made. -/
def enter (c : Closure) (args : List Value) : Run ScopeId :=
  Run.enter (some c.scope) (bindParams [] c.params args)

def call (c : Closure) (ev : Evaluator) (args : List Value) : Run Value := do
  ev c.body (← c.enter args)

end Closure

namespace Value

def notCallable (v : Value) {α : Type} : Run α := do
  (Cause.notCallable (← Run.query fun heap => v.print heap .readable)).raise

/-- Calls a function or native. The arguments are taken as they are. -/
def callWith (f : Value) (ev : Evaluator) (native : Native → List Value → ScopeId → Run Value)
    (args : List Value) (scope : ScopeId) : Run Value := do
  match f with
  | .native op _ => native op args scope
  | .fn id _ _ =>
    match ← Run.query fun heap => heap.closure? id with
    | some c => c.call ev args
    | none => f.notCallable
  | _ => f.notCallable

end Value

namespace Native

/-- Calls with the arguments in front of the last one and the elements of the last one. -/
def runApply (call : Value → List Value → Run Value) : List Value → Run Value
  | f :: a :: more => do
    ofExcept (apply.callable f)
    let items ← ofExcept (apply.callArguments ((a :: more).getLast (List.cons_ne_nil a more)))
    call f ((a :: more).dropLast ++ items)
  | args => ofExcept (apply.wrongCount args)

/-- Calls with each element in turn, up to the first failure. -/
def runMap (call : Value → List Value → Run Value) : List Value → Run Value
  | [f, xs] => do
    ofExcept (map.callable f)
    let items ← ofExcept (map.callArguments xs)
    return .ofList (← items.mapM fun item => call f [item])
  | args => ofExcept (map.wrongCount args)

/-- Calls with what the atom holds and stores the result, unless the call fails. -/
def runSwap (call : Value → List Value → Run Value) : List Value → Run Value
  | target :: f :: extra => do
    let id ← ofExcept (swap.cell target)
    ofExcept (swap.callable f)
    let v ← call f ((← Run.query fun heap => heap.cell id) :: extra)
    Run.update fun heap => heap.setCell id v
    return v
  | args => ofExcept (swap.wrongCount args)

/-- Evaluates in the outermost scope. -/
def runEval (ev : Evaluator) (scope : ScopeId) : List Value → Run Value
  | [form] => do ev form (← Run.query fun heap => heap.scopes.root scope)
  | args => ofExcept (eval.wrongCount args)

/-- Runs a native whose number of arguments has been looked at. -/
def perform (op : Native) (ev : Evaluator) (call : Value → List Value → Run Value)
    (args : List Value) (scope : ScopeId) : Run Value :=
  match op.behaviour with
  | .compute f => ofExcept (f args)
  | .act f => f args
  | .call .apply => runApply call args
  | .call .map => runMap call args
  | .call .swap => runSwap call args
  | .call .eval => runEval ev scope args

/-- Calls a native. The fuel bounds how many natives call one another without an evaluation between
them. -/
def call (ev : Evaluator) : Nat → Native → List Value → ScopeId → Run Value
  | 0, _, _, _ => Run.diverge
  | fuel + 1, op, args, scope => do
    ofExcept (op.arity.check op.name args.length)
    op.perform ev
      (fun f args => do Run.settle (← f.callWith ev (call ev fuel) args scope)) args scope

end Native

/-- Calls a function or native with values for arguments, from any scope. -/
def Value.call (f : Value) (ev : Evaluator) (fuel : Nat) (args : List Value) (scope : ScopeId) :
    Run Value := do
  Run.settle (← f.callWith ev (Native.call ev fuel) args scope)

end MiniLisp
