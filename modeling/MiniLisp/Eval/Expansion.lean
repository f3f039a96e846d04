import MiniLisp.Eval.Call

namespace MiniLisp

/-- The expander that the head of the form names here, and the form's arguments. -/
def Heap.expander? (heap : Heap) (form : Value) (scope : ScopeId) :
    Option (Closure × List Value) :=
  match form with
  | .list (.sym name :: args) _ =>
    match heap.scopes.lookup scope name with
    | some (.fn id true _) => (heap.closure? id).map fun c => (c, args)
    | _ => none
  | _ => none

/-- Expands a form in a scope: while its head names an expander, it is replaced by what the expander makes
of its unevaluated arguments. The fuel bounds the number of expansions. -/
def expand (ev : Evaluator) (fuel : Nat) (form : Value) (scope : ScopeId) : Run Value := do
  match ← Run.query fun heap => heap.expander? form scope with
  | none => return form
  | some (c, args) =>
    match fuel with
    | 0 => Run.diverge
    | fuel + 1 => expand ev fuel (← c.call ev args) scope

end MiniLisp
