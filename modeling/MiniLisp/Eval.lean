import MiniLisp.Eval.SpecialForm

namespace MiniLisp

/-- The value of a form that is no call: a symbol stands for what it is bound to, vectors and
hash-maps have their parts evaluated, and all else stands for itself. -/
def evalPlain (ev : Evaluator) (form : Value) (scope : ScopeId) : Run Value := do
  match form with
  | .sym name => Run.resolve scope name
  | .vec items _ => return .ofVec (← items.mapM fun item => ev item scope)
  | .map entries _ =>
    return .ofEntries (← entries.mapM fun (key, form) => do return (key, ← ev form scope))
  | v => return v

/-- Evaluates head and arguments of a call from left to right, then calls. -/
def evalCall (ev : Evaluator) (fuel : Nat) (forms : List Value) (scope : ScopeId) : Run Step := do
  match ← forms.mapM fun form => ev form scope with
  | [] => return .done (.ofList [])
  | f :: args =>
    match f with
    | .native op _ => return .done (← Native.call ev fuel op args scope)
    | .fn id _ _ =>
      match ← Run.query fun heap => heap.closure? id with
      | some c => return .tail c.body (← c.enter args)
      | none => f.notCallable
    | _ => f.notCallable

/-- One step of the evaluation of a form. -/
def evalStep (ev : Evaluator) (fuel : Nat) (form : Value) (scope : ScopeId) : Run Step := do
  match form with
  | .list (_ :: _) _ =>
    match ← expand ev fuel form scope with
    | .list (head :: args) _ =>
      match (SpecialForm.symbolName? head).bind SpecialForm.ofName? with
      | some special => special.run ev fuel scope args
      | none => evalCall ev fuel (head :: args) scope
    | expanded => return .done (← evalPlain ev expanded scope)
  | _ => return .done (← evalPlain ev form scope)

/-- Takes steps until there is a value. The second number bounds the steps. -/
def evalSteps (ev : Evaluator) (fuel : Nat) : Nat → Value → ScopeId → Run Value
  | 0, _, _ => Run.diverge
  | steps + 1, form, scope => do
    match ← evalStep ev fuel form scope with
    | .done v => Run.settle v
    | .tail form scope => evalSteps ev fuel steps form scope

/-- Evaluates a form with so many levels of evaluation left. Only what is not in tail position takes one of
them. -/
def evalWithin (fuel : Nat) : Nat → Evaluator
  | 0, _, _ => Cause.recursion.raise
  | levels + 1, form, scope => evalSteps (evalWithin fuel levels) fuel fuel form scope

/-- Evaluates a form with all levels left. The fuel bounds the steps of each evaluation. -/
def eval (fuel : Nat) : Evaluator :=
  evalWithin fuel maxEvalDepth

end MiniLisp
