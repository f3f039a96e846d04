import MiniLisp.Eval
import MiniLisp.Proofs.Outcome

namespace MiniLisp

open Run

variable {ev : Evaluator} {fuel steps : Nat} {form : Value} {scope : ScopeId} {w w' : World}

theorem Scopes.lookup_empty (scope : ScopeId) (name : String) :
    Scopes.empty.lookup scope name = none := by
  rw [Scopes.lookup]
  rfl

/-- A name that a new scope binds stands for what it is bound to. -/
theorem Scopes.lookup_enter (scopes : Scopes) (outer : Option ScopeId) {name : String} {v : Value}
    {bindings : Entries String Value} (h : Entries.find? name bindings = some v) :
    (scopes.enter outer bindings).1.lookup (scopes.enter outer bindings).2 name = some v := by
  rw [Scopes.lookup]
  split
  · next hget => simp [Scopes.get?, Scopes.enter] at hget
  · next s hget =>
    simp only [Scopes.get?, Scopes.enter, Array.getElem?_push_size, Option.some.injEq] at hget
    subst hget
    simp only [h]

theorem Scopes.lookup_enter_unbound (scopes : Scopes) {name : String}
    {bindings : Entries String Value} (h : Entries.find? name bindings = none) :
    (scopes.enter none bindings).1.lookup (scopes.enter none bindings).2 name = none := by
  rw [Scopes.lookup]
  split
  · rfl
  · next s hget =>
    simp only [Scopes.get?, Scopes.enter, Array.getElem?_push_size, Option.some.injEq] at hget
    subst hget
    simp only [h]
    rfl

theorem Heap.expander?_of_closure {heap : Heap} {name : String} {id : FnId} {note : Value} {c : Closure}
    (hname : heap.scopes.lookup scope name = some (.fn id true note))
    (hclosure : heap.closure? id = some c) (args : List Value) :
    heap.expander? (.ofList (.sym name :: args)) scope = some (c, args) := by
  simp only [Heap.expander?, Value.ofList, hname, hclosure, Option.map_some]

theorem Heap.expander?_of_lookup {heap : Heap} {name : String} (args : List Value) (note : Value)
    (h : ∀ id note, heap.scopes.lookup scope name ≠ some (.fn id true note)) :
    heap.expander? (.list (.sym name :: args) note) scope = none := by
  cases hl : heap.scopes.lookup scope name with
  | none => simp only [Heap.expander?, hl]
  | some v =>
    cases v with
    | fn id expander note =>
      cases expander with
      | true => exact absurd hl (h id note)
      | false => simp only [Heap.expander?, hl]
    | _ => simp only [Heap.expander?, hl]

theorem expand_same (h : w.heap.expander? form scope = none) :
    (expand ev fuel form scope).outcome w = some (.ok form, w) := by
  rw [expand, outcome_bind_ok _ (outcome_query _ w), h]
  rfl

theorem expand_once {c : Closure} {args : List Value}
    (h : w.heap.expander? form scope = some (c, args)) :
    (expand ev (fuel + 1) form scope).outcome w =
      (c.call ev args >>= fun form => expand ev fuel form scope).outcome w := by
  rw [expand, outcome_bind_ok _ (outcome_query _ w), h]

/-- The rest of a step once the form is expanded. -/
def evalExpanded (ev : Evaluator) (fuel : Nat) (expanded : Value) (scope : ScopeId) :
    Run Step := do
  match expanded with
  | .list (head :: args) _ =>
    match (SpecialForm.symbolName? head).bind SpecialForm.ofName? with
    | some special => special.run ev fuel scope args
    | none => evalCall ev fuel (head :: args) scope
  | _ => return .done (← evalPlain ev expanded scope)

/-- A step expands any form at all, though only calls can change by that. -/
theorem evalStep_eq (ev : Evaluator) (fuel : Nat) (form : Value) (scope : ScopeId) :
    evalStep ev fuel form scope =
      (expand ev fuel form scope >>= fun expanded => evalExpanded ev fuel expanded scope) := by
  have plain : (∀ heap : Heap, heap.expander? form scope = none) →
      evalExpanded ev fuel form scope =
        (expand ev fuel form scope >>= fun expanded => evalExpanded ev fuel expanded scope) := by
    intro h
    refine Run.ext fun w => ?_
    rw [outcome_bind_ok _ (expand_same (h w.heap))]
  cases form with
  | list items note =>
    cases items with
    | nil => exact plain fun heap => rfl
    | cons head args =>
      rw [evalStep]
      congr 1
      funext expanded
      cases expanded with
      | list items note => cases items <;> rfl
      | _ => rfl
  | _ => exact plain fun heap => rfl

theorem evalStep_expanded {expanded : Value}
    (h : (expand ev fuel form scope).outcome w = some (.ok expanded, w')) :
    (evalStep ev fuel form scope).outcome w =
      (evalExpanded ev fuel expanded scope).outcome w' := by
  rw [evalStep_eq, outcome_bind_ok _ h]

theorem evalStep_same (h : w.heap.expander? form scope = none) :
    (evalStep ev fuel form scope).outcome w = (evalExpanded ev fuel form scope).outcome w :=
  evalStep_expanded (expand_same h)

/-- The special form that a call with these parts is. -/
def SpecialForm.heading? : List Value → Option SpecialForm
  | [] => none
  | head :: _ => (symbolName? head).bind ofName?

theorem evalExpanded_call {items : List Value} (note : Value) (hne : items ≠ [])
    (hs : SpecialForm.heading? items = none) :
    evalExpanded ev fuel (.list items note) scope = evalCall ev fuel items scope := by
  cases items with
  | nil => exact absurd rfl hne
  | cons head args =>
    simp only [SpecialForm.heading?] at hs
    simp only [evalExpanded, hs]

theorem evalCall_native {items args : List Value} {op : Native} {note : Value}
    (h : InOrder (ev · scope) items w (.native op note :: args) w') :
    (evalCall ev fuel items scope).outcome w =
      (Native.call ev fuel op args scope >>= fun v => pure (.done v)).outcome w' :=
  outcome_bind_ok _ h.mapM

theorem runFunction_made {params : Value} {names : List String}
    (h : SpecialForm.params? params = some names) (body : Value) (scope : ScopeId) (w : World) :
    (SpecialForm.runFunction scope [params, body]).outcome w =
      some (.ok (.done (.fn (w.heap.newClosure ⟨names, body, scope⟩).2 false .nil)),
        { w with heap := (w.heap.newClosure ⟨names, body, scope⟩).1 }) := by
  rw [SpecialForm.runFunction, h]
  rfl

/-- A choice goes on with one of its branches. -/
theorem evalStep_choice {condition yes no v : Value}
    (hif : ∀ id note, w.heap.scopes.lookup scope "if" ≠ some (.fn id true note))
    (hcondition : (ev condition scope).outcome w = some (.ok v, w')) :
    (evalStep ev fuel (.ofList [.sym "if", condition, yes, no]) scope).outcome w =
      some (.ok (.tail (if v.isTruthy then yes else no) scope), w') := by
  have hsame : w.heap.expander? (.ofList [.sym "if", condition, yes, no]) scope = none :=
    Heap.expander?_of_lookup _ _ hif
  refine (evalStep_same hsame).trans ((outcome_bind_ok _ hcondition).trans ?_)
  cases v.isTruthy with
  | true => rfl
  | false => rfl

theorem evalSteps_done {v : Value}
    (h : (evalStep ev fuel form scope).outcome w = some (.ok (.done v), w')) :
    (evalSteps ev fuel (steps + 1) form scope).outcome w = (settle v).outcome w' := by
  rw [evalSteps, outcome_bind_ok _ h]

theorem evalSteps_tail {next : Value} {inner : ScopeId}
    (h : (evalStep ev fuel form scope).outcome w = some (.ok (.tail next inner), w')) :
    (evalSteps ev fuel (steps + 1) form scope).outcome w =
      (evalSteps ev fuel steps next inner).outcome w' := by
  rw [evalSteps, outcome_bind_ok _ h]

theorem evalSteps_error {fault : Fault}
    (h : (evalStep ev fuel form scope).outcome w = some (.error fault, w')) :
    (evalSteps ev fuel (steps + 1) form scope).outcome w = some (.error fault, w') := by
  rw [evalSteps, outcome_bind_error _ h]

theorem evalStep_symbol {name : String} {v : Value}
    (h : w.heap.scopes.lookup scope name = some v) :
    (evalStep ev fuel (.sym name) scope).outcome w = some (.ok (.done v), w) := by
  refine (evalStep_same rfl).trans (outcome_bind_ok _ ?_)
  simp [evalPlain, resolve, outcome_bind, Scopes.resolve, h]

theorem evalSteps_symbol {name : String} {v : Value}
    (h : w.heap.scopes.lookup scope name = some v) :
    (evalSteps ev fuel (steps + 1) (.sym name) scope).outcome w = (settle v).outcome w :=
  evalSteps_done (evalStep_symbol h)

theorem evalSteps_unbound {name : String} (h : w.heap.scopes.lookup scope name = none) :
    (evalSteps ev fuel (steps + 1) (.sym name) scope).outcome w =
      some (.error (Cause.unbound name).fault, w) := by
  refine evalSteps_error ((evalStep_same rfl).trans (outcome_bind_error _ ?_))
  simp [evalPlain, resolve, outcome_bind, Scopes.resolve, h]
  rfl

end MiniLisp
