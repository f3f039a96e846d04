import MiniLisp.Proofs.Approximation

namespace MiniLisp

open Run SpecialForm

namespace Recursive

variable {ev : Evaluator} {fuel : Nat} {scope : ScopeId} {args : List Value}

def wrongCount (form : SpecialForm) (args : List Value) : Run Value :=
  (Cause.arity form.name form.arity args.length).raise

def define (form : SpecialForm) (ev : Evaluator) (scope : ScopeId) : List Value → Run Value
  | [.sym name, expr] => do
    let v ← ev expr scope >>= (if form = defineExpander then toExpander else pure)
    Run.bind scope name v
    return v
  | [v, _] => (Cause.operand form.name "symbol" v.typeName).raise
  | args => wrongCount form args

def letIn (ev : Evaluator) (scope : ScopeId) : List Value → Run Value
  | [bindings, body] =>
    match bindings.elements? with
    | none => Cause.bindingForm.raise
    | some row =>
      if row.length % 2 = 1 then Cause.oddBindings.raise
      else do
        let inner ← Run.enter (some scope) []
        bindAll ev inner row
        ev body inner
  | args => wrongCount .letIn args

def sequence (ev : Evaluator) (scope : ScopeId) : List Value → Run Value
  | [] => return .nil
  | [last] => ev last scope
  | form :: more => do
    discard (ev form scope)
    sequence ev scope more

def choice (ev : Evaluator) (scope : ScopeId) : List Value → Run Value
  | [condition, yes] => do
    if (← ev condition scope).isTruthy then ev yes scope else return .nil
  | [condition, yes, no] => do
    if (← ev condition scope).isTruthy then ev yes scope else ev no scope
  | args => wrongCount .choice args

def function (scope : ScopeId) : List Value → Run Value
  | [params, body] =>
    match params? params with
    | none => Cause.params.raise
    | some names => do
      let id ← Run.allocate fun heap => heap.newClosure ⟨names, body, scope⟩
      return .fn id false .nil
  | args => wrongCount .function args

def quote : List Value → Run Value
  | [v] => return v
  | args => wrongCount .quote args

def quasiquote (ev : Evaluator) (scope : ScopeId) : List Value → Run Value
  | [v] => ev v.template scope
  | args => wrongCount .quasiquote args

def expansion (ev : Evaluator) (fuel : Nat) (scope : ScopeId) : List Value → Run Value
  | [v] => expand ev fuel v scope
  | args => wrongCount .expansion args

def handle (ev : Evaluator) (scope : ScopeId) : List Value → Run Value
  | [body] => ev body scope
  | [body, clause] =>
    match catchClause? clause with
    | none => Cause.catchClause.raise
    | some (name, handler) => do
      match ← Run.attempt (ev body scope) with
      | .ok v => return v
      | .error fault => ev handler (← Run.enter (some scope) [(name, fault.toCaught)])
  | args => wrongCount .handle args

def special (form : SpecialForm) (ev : Evaluator) (fuel : Nat) (scope : ScopeId)
    (args : List Value) : Run Value :=
  match form with
  | .define | .defineExpander => define form ev scope args
  | .letIn => letIn ev scope args
  | .sequence => sequence ev scope args
  | .choice => choice ev scope args
  | .function => function scope args
  | .quote => quote args
  | .quasiquote => quasiquote ev scope args
  | .expansion => expansion ev fuel scope args
  | .handle => handle ev scope args

def application (ev : Evaluator) (fuel : Nat) (forms : List Value) (scope : ScopeId) :
    Run Value := do
  match ← forms.mapM fun form => ev form scope with
  | [] => return .ofList []
  | f :: args => f.callWith ev (Native.call ev fuel) args scope

/-- The value of a form, with every form inside it evaluated by `ev`. -/
def evaluate (ev : Evaluator) (fuel : Nat) (form : Value) (scope : ScopeId) : Run Value := do
  match form with
  | .list (_ :: _) _ =>
    match ← expand ev fuel form scope with
    | .list (head :: args) _ =>
      match (symbolName? head).bind SpecialForm.ofName? with
      | some form => special form ev fuel scope args
      | none => application ev fuel (head :: args) scope
    | expanded => evalPlain ev expanded scope
  | _ => evalPlain ev form scope

/-- Evaluates a form. The fuel bounds how deep the calls of the evaluator go. -/
def eval : Nat → Evaluator
  | 0, _, _ => Run.diverge
  | fuel + 1, form, scope => do Run.settle (← evaluate (eval fuel) fuel form scope)

end Recursive

/-- Goes on with a step by calling the evaluator for the form in tail position. -/
def Step.finish (ev : Evaluator) : Step → Run Value
  | .done v => Run.settle v
  | .tail form scope => ev form scope

/-- The evaluator never returns an error value. -/
def Evaluator.Settled (ev : Evaluator) : Prop :=
  ∀ form scope, (ev form scope >>= Run.settle) = ev form scope

namespace Recursive

variable {ev : Evaluator}

theorem settle_settle (v : Value) : (Run.settle v >>= Run.settle) = Run.settle v := by
  cases v <;> rfl

theorem settled_eval (fuel : Nat) : (eval fuel).Settled := by
  intro form scope
  cases fuel with
  | zero => rfl
  | succ fuel => simp only [eval, bind_assoc, settle_settle]

theorem define_finish (form : SpecialForm) (scope : ScopeId) (args : List Value) :
    (define form ev scope args >>= Run.settle) =
      (form.runDefine ev scope args >>= Step.finish ev) := by
  match args with
  | [v, expr] =>
    cases v with
    | sym name =>
      rw [runDefine_symbol]
      simp only [define, bind_assoc, pure_bind, Step.finish]
    | _ => rfl
  | [] => rfl
  | [v] | v :: _ :: _ :: _ => cases v <;> rfl

theorem letIn_finish (hev : ev.Settled) (scope : ScopeId) (args : List Value) :
    (letIn ev scope args >>= Run.settle) = (runLetIn ev scope args >>= Step.finish ev) := by
  match args with
  | [bindings, body] =>
    rw [runLetIn_pair, letIn]
    cases bindings.elements? with
    | none => rfl
    | some row =>
      by_cases hodd : row.length % 2 = 1
      · simp only [hodd, if_true]
        rfl
      · simp only [hodd, if_false, bind_assoc, pure_bind, Step.finish, hev body]
  | [] | [_] | _ :: _ :: _ :: _ => rfl

theorem sequence_finish (hev : ev.Settled) (scope : ScopeId) (args : List Value) :
    (sequence ev scope args >>= Run.settle) = (runSequence ev scope args >>= Step.finish ev) := by
  induction args using runSequence.induct with
  | case1 => rfl
  | case2 last => exact hev last scope
  | case3 form more hne ih =>
    rw [sequence, runSequence] <;> try exact hne
    simp only [bind_assoc, ih]

theorem choice_finish (hev : ev.Settled) (scope : ScopeId) (args : List Value) :
    (choice ev scope args >>= Run.settle) = (runChoice ev scope args >>= Step.finish ev) := by
  match args with
  | [condition, yes] =>
    simp only [choice, runChoice, bind_assoc]
    congr 1
    funext v
    cases v.isTruthy with
    | true => exact hev yes scope
    | false => rfl
  | [condition, yes, no] =>
    simp only [choice, runChoice, bind_assoc]
    congr 1
    funext v
    cases v.isTruthy with
    | true => exact hev yes scope
    | false => exact hev no scope
  | [] | [_] | _ :: _ :: _ :: _ :: _ => rfl

theorem function_finish (scope : ScopeId) (args : List Value) :
    (function scope args >>= Run.settle) = (runFunction scope args >>= Step.finish ev) := by
  match args with
  | [params, body] =>
    simp only [function, runFunction]
    cases params? params with
    | none => rfl
    | some names => rfl
  | [] | [_] | _ :: _ :: _ :: _ => rfl

theorem handle_finish (hev : ev.Settled) (scope : ScopeId) (args : List Value) :
    (handle ev scope args >>= Run.settle) = (runHandle ev scope args >>= Step.finish ev) := by
  match args with
  | [body] => exact hev body scope
  | [body, clause] =>
    simp only [handle, runHandle]
    cases catchClause? clause with
    | none => rfl
    | some clause =>
      simp only [bind_assoc]
      congr 1
      funext result
      cases result with
      | ok v => rfl
      | error fault => simp only [bind_assoc, pure_bind, Step.finish, hev clause.2]
  | [] | _ :: _ :: _ :: _ => rfl

theorem special_finish (hev : ev.Settled) (form : SpecialForm) (fuel : Nat) (scope : ScopeId)
    (args : List Value) :
    (special form ev fuel scope args >>= Run.settle) =
      (form.run ev fuel scope args >>= Step.finish ev) := by
  cases form with
  | define => exact define_finish _ scope args
  | defineExpander => exact define_finish _ scope args
  | letIn => exact letIn_finish hev scope args
  | sequence => exact sequence_finish hev scope args
  | choice => exact choice_finish hev scope args
  | function => exact function_finish scope args
  | quote =>
    match args with
    | [v] => rfl
    | [] | _ :: _ :: _ => rfl
  | quasiquote =>
    match args with
    | [v] => exact hev v.template scope
    | [] | _ :: _ :: _ => rfl
  | expansion =>
    match args with
    | [v] => simp only [special, expansion, run, bind_assoc, pure_bind, Step.finish]
    | [] | _ :: _ :: _ => rfl
  | handle => exact handle_finish hev scope args

theorem application_finish (hev : ev.Settled) (fuel : Nat) (forms : List Value) (scope : ScopeId) :
    (application ev fuel forms scope >>= Run.settle) =
      (evalCall ev fuel forms scope >>= Step.finish ev) := by
  unfold application evalCall
  simp only [bind_assoc]
  congr 1
  funext vs
  cases vs with
  | nil => rfl
  | cons f args =>
    cases f with
    | native op note => simp only [Value.callWith, bind_assoc, pure_bind, Step.finish]
    | fn id expander note =>
      simp only [Value.callWith, bind_assoc]
      congr 1
      funext closure?
      cases closure? with
      | none => rfl
      | some c => simp only [Closure.call, bind_assoc, pure_bind, Step.finish, hev c.body]
    | _ => rfl

/-- Evaluating a form recursively is one step and an ordinary call for its tail. -/
theorem evaluate_finish (hev : ev.Settled) (fuel : Nat) (form : Value) (scope : ScopeId) :
    (evaluate ev fuel form scope >>= Run.settle) =
      (evalStep ev fuel form scope >>= Step.finish ev) := by
  have plain : ∀ form, (evalPlain ev form scope >>= Run.settle) =
      ((do return .done (← evalPlain ev form scope)) >>= Step.finish ev) := by
    intro form
    simp only [bind_assoc, pure_bind, Step.finish]
  cases form with
  | list items note =>
    cases items with
    | nil => exact plain (.list [] note)
    | cons head args =>
      simp only [evaluate, evalStep, bind_assoc]
      congr 1
      funext expanded
      cases expanded with
      | list items note =>
        cases items with
        | nil => exact plain _
        | cons head args =>
          simp only
          cases (symbolName? head).bind SpecialForm.ofName? with
          | some form => exact special_finish hev form fuel scope args
          | none => exact application_finish hev fuel (head :: args) scope
      | _ => exact plain _
  | _ => simp only [evaluate, evalStep, plain]

theorem eval_succ (fuel : Nat) (form : Value) (scope : ScopeId) :
    eval (fuel + 1) form scope =
      (evalStep (eval fuel) fuel form scope >>= Step.finish (eval fuel)) :=
  evaluate_finish (settled_eval fuel) fuel form scope

/-- More fuel never changes how a recursive evaluation ends. -/
theorem eval_below {fuel fuel' : Nat} (h : fuel ≤ fuel') : (eval fuel).Below (eval fuel') := by
  induction fuel generalizing fuel' with
  | zero => exact fun form scope => .diverge _
  | succ fuel ih =>
    obtain ⟨fuel', rfl⟩ : ∃ n, fuel' = n + 1 := ⟨fuel' - 1, by omega⟩
    intro form scope
    rw [eval_succ, eval_succ]
    refine .bind (evalStep_below (ih (by omega)) (by omega) form scope) fun step => ?_
    cases step with
    | done v => exact .refl _
    | tail form scope => exact ih (by omega) form scope

end Recursive
end MiniLisp
