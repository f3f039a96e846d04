import MiniLisp.Proofs.Stepping

namespace MiniLisp

open Run

variable {α β : Type}

/-- What can be in progress. -/
inductive Activity where
  | evaluation
  | native (op : Native) (args : List Value)

/-- All that is in progress, the innermost first. -/
abbrev CallStack := List Activity

/-- What happens in the course of an evaluation. -/
inductive Event where
  /-- A step is about to be taken. -/
  | step (form : Value) (scope : ScopeId) (w : World)
  /-- A native has been called, and with it this is in progress. -/
  | call (stack : CallStack)
  /-- A native is about to run. -/
  | native (op : Native) (args : List Value) (scope : ScopeId) (w : World)
  /-- The evaluation that took this step first has come to its value. -/
  | value (form : Value) (scope : ScopeId) (w : World) (v : Value)

/-- A run, and the record of what happens in it, in order, when it begins in a world. A run that fails
or does not end has a record as well. -/
structure Recorded (α : Type) where
  run : Run α
  events : World → List Event

/-- Evaluates a form in a scope, with a record. -/
abbrev Recorder := Value → ScopeId → Recorded Value

/-- Leaves the record out. -/
def Recorder.plain (ev : Recorder) : Evaluator :=
  fun form scope => (ev form scope).run

namespace Recorded

/-- There is nothing to record. -/
def silent (run : Run α) : Recorded α :=
  ⟨run, fun _ => []⟩

/-- What happens after a run that has ended like this. -/
def afterwards (next : α → World → List Event) : Option (Except Fault α × World) → List Event
  | some (.ok a, w) => next a w
  | _ => []

theorem forall_mem_afterwards {P : Event → Prop} {next : α → World → List Event}
    {ending : Option (Except Fault α × World)}
    (h : ∀ a w, ending = some (.ok a, w) → ∀ e ∈ next a w, P e) :
    ∀ e ∈ afterwards next ending, P e := by
  rcases ending with _ | ⟨fault | a, w⟩
  · simp [afterwards]
  · simp [afterwards]
  · exact h a w rfl

instance : Monad Recorded where
  pure a := silent (pure a)
  bind m next :=
    { run := m.run >>= fun a => (next a).run
      events := fun w => m.events w ++ afterwards (fun a => (next a).events) (m.run.outcome w) }

def attempt (m : Recorded α) : Recorded (Except Fault α) :=
  ⟨Run.attempt m.run, m.events⟩

/-- The runs for all elements, from left to right. -/
def each (f : α → Recorded β) : List α → Recorded (List β)
  | [] => pure []
  | x :: xs => do
    let y ← f x
    let ys ← each f xs
    return y :: ys

/-- Records the step, and the value that is come to from it on. -/
def stepping (form : Value) (scope : ScopeId) (m : Recorded Value) : Recorded Value where
  run := m.run
  events w := .step form scope w ::
    (m.events w ++ afterwards (fun v _ => [.value form scope w v]) (m.run.outcome w))

/-- Records the call of a native. -/
def calling (stack : CallStack) (m : Recorded α) : Recorded α where
  run := m.run
  events w := .call stack :: m.events w

/-- Records the native. -/
def running (op : Native) (args : List Value) (scope : ScopeId) (m : Recorded α) : Recorded α where
  run := m.run
  events w := .native op args scope w :: m.events w

section Natives

variable (ev : Recorder)

def callClosure (c : Closure) (args : List Value) : Recorded Value := do
  ev c.body (← silent (c.enter args))

def callWith (native : Native → List Value → ScopeId → Recorded Value) (f : Value)
    (args : List Value) (scope : ScopeId) : Recorded Value := do
  match f with
  | .native op _ => native op args scope
  | .fn id _ _ =>
    match ← silent (Run.query fun heap => heap.closure? id) with
    | some c => callClosure ev c args
    | none => silent f.notCallable
  | _ => silent f.notCallable

def runApply (call : Value → List Value → Recorded Value) : List Value → Recorded Value
  | f :: a :: more => do
    silent (ofExcept (Native.apply.callable f))
    let items ← silent
      (ofExcept (Native.apply.callArguments ((a :: more).getLast (List.cons_ne_nil a more))))
    call f ((a :: more).dropLast ++ items)
  | args => silent (ofExcept (Native.apply.wrongCount args))

def runMap (call : Value → List Value → Recorded Value) : List Value → Recorded Value
  | [f, xs] => do
    silent (ofExcept (Native.map.callable f))
    let items ← silent (ofExcept (Native.map.callArguments xs))
    return .ofList (← each (fun item => call f [item]) items)
  | args => silent (ofExcept (Native.map.wrongCount args))

def runSwap (call : Value → List Value → Recorded Value) : List Value → Recorded Value
  | target :: f :: extra => do
    let id ← silent (ofExcept (Native.swap.cell target))
    silent (ofExcept (Native.swap.callable f))
    let held ← silent (Run.query fun heap => heap.cell id)
    let v ← call f (held :: extra)
    silent (Run.update fun heap => heap.setCell id v)
    return v
  | args => silent (ofExcept (Native.swap.wrongCount args))

def runEval (scope : ScopeId) : List Value → Recorded Value
  | [form] => do ev form (← silent (Run.query fun heap => heap.scopes.root scope))
  | args => silent (ofExcept (Native.eval.wrongCount args))

def perform (op : Native) (call : Value → List Value → Recorded Value) (args : List Value)
    (scope : ScopeId) : Recorded Value :=
  match op.behaviour with
  | .compute f => silent (ofExcept (f args))
  | .act f => silent (f args)
  | .call .apply => runApply call args
  | .call .map => runMap call args
  | .call .swap => runSwap call args
  | .call .eval => runEval ev scope args

end Natives

section SpecialForms

variable (ev : Recorder)

/-- Expands a form as `expand` does, with a record. -/
def expand (fuel : Nat) (form : Value) (scope : ScopeId) : Recorded Value := do
  match ← silent (Run.query fun heap => heap.expander? form scope) with
  | none => return form
  | some (c, args) =>
    match fuel with
    | 0 => silent Run.diverge
    | fuel + 1 => expand fuel (← callClosure ev c args) scope

def runDefine (form : SpecialForm) (scope : ScopeId) : List Value → Recorded Step
  | [.sym name, expr] => do
    let v ← ev expr scope
    let v ← silent ((if form = .defineExpander then SpecialForm.toExpander else pure) v)
    silent (Run.bind scope name v)
    return .done v
  | [v, _] => silent (Cause.operand form.name "symbol" v.typeName).raise
  | args => silent (form.wrongCount args)

def bindAll (scope : ScopeId) : List Value → Recorded Unit
  | .sym name :: expr :: more => do
    let v ← ev expr scope
    silent (Run.bind scope name v)
    bindAll scope more
  | _ :: _ :: _ => silent Cause.bindingName.raise
  | _ => return ()

def runLetIn (scope : ScopeId) : List Value → Recorded Step
  | [bindings, body] =>
    match bindings.elements? with
    | none => silent Cause.bindingForm.raise
    | some row =>
      if row.length % 2 = 1 then silent Cause.oddBindings.raise
      else do
        let inner ← silent (Run.enter (some scope) [])
        bindAll ev inner row
        return .tail body inner
  | args => silent (SpecialForm.letIn.wrongCount args)

def runSequence (scope : ScopeId) : List Value → Recorded Step
  | [] => return .done .nil
  | [last] => return .tail last scope
  | form :: next :: more => do
    let _ ← ev form scope
    runSequence scope (next :: more)

def runChoice (scope : ScopeId) : List Value → Recorded Step
  | [condition, yes] => do
    return if (← ev condition scope).isTruthy then .tail yes scope else .done .nil
  | [condition, yes, no] => do
    return if (← ev condition scope).isTruthy then .tail yes scope else .tail no scope
  | args => silent (SpecialForm.choice.wrongCount args)

def runHandle (scope : ScopeId) : List Value → Recorded Step
  | [body] => return .tail body scope
  | [body, clause] =>
    match SpecialForm.catchClause? clause with
    | none => silent Cause.catchClause.raise
    | some (name, handler) => do
      match ← attempt (ev body scope) with
      | .ok v => return .done v
      | .error fault =>
        return .tail handler (← silent (Run.enter (some scope) [(name, fault.toCaught)]))
  | args => silent (SpecialForm.handle.wrongCount args)

/-- Runs a special form as `SpecialForm.run` does, with a record. -/
def runForm (form : SpecialForm) (fuel : Nat) (scope : ScopeId) (args : List Value) :
    Recorded Step :=
  match form with
  | .define | .defineExpander => runDefine ev form scope args
  | .letIn => runLetIn ev scope args
  | .sequence => runSequence ev scope args
  | .choice => runChoice ev scope args
  | .function => silent (SpecialForm.runFunction scope args)
  | .quote =>
    match args with
    | [v] => return .done v
    | _ => silent (form.wrongCount args)
  | .quasiquote =>
    match args with
    | [v] => return .tail v.template scope
    | _ => silent (form.wrongCount args)
  | .expansion =>
    match args with
    | [v] => do return .done (← expand ev fuel v scope)
    | _ => silent (form.wrongCount args)
  | .handle => runHandle ev scope args

end SpecialForms

def evalPlain (ev : Recorder) (form : Value) (scope : ScopeId) : Recorded Value :=
  match form with
  | .sym name => silent (Run.resolve scope name)
  | .vec items _ => do return .ofVec (← each (fun item => ev item scope) items)
  | .map entries _ => do
    return .ofEntries (← each (fun (key, form) => do return (key, ← ev form scope)) entries)
  | v => return v

section Evaluation

variable (ev : CallStack → Recorder)

/-- Calls a native as `Native.call` does, with a record. -/
def callNative : Nat → CallStack → Native → List Value → ScopeId → Recorded Value
  | 0, _, _, _, _ => silent Run.diverge
  | fuel + 1, stack, op, args, scope =>
    let inside := .native op args :: stack
    calling inside do
      silent (ofExcept (op.arity.check op.name args.length))
      running op args scope
        (perform (ev inside) op
          (fun f args => do
            silent (Run.settle (← callWith (ev inside) (callNative fuel inside) f args scope)))
          args scope)

def evalCall (fuel : Nat) (stack : CallStack) (forms : List Value) (scope : ScopeId) :
    Recorded Step := do
  match ← each (fun form => ev stack form scope) forms with
  | [] => return .done (.ofList [])
  | f :: args =>
    match f with
    | .native op _ => return .done (← callNative ev fuel stack op args scope)
    | .fn id _ _ =>
      match ← silent (Run.query fun heap => heap.closure? id) with
      | some c => return .tail c.body (← silent (c.enter args))
      | none => silent f.notCallable
    | _ => silent f.notCallable

def evalExpanded (fuel : Nat) (stack : CallStack) (expanded : Value) (scope : ScopeId) :
    Recorded Step :=
  match expanded with
  | .list (head :: args) _ =>
    match (SpecialForm.symbolName? head).bind SpecialForm.ofName? with
    | some special => runForm (ev stack) special fuel scope args
    | none => evalCall ev fuel stack (head :: args) scope
  | expanded => do return .done (← evalPlain (ev stack) expanded scope)

def evalStep (fuel : Nat) (stack : CallStack) (form : Value) (scope : ScopeId) : Recorded Step := do
  evalExpanded ev fuel stack (← expand (ev stack) fuel form scope) scope

/-- Takes steps as `evalSteps` does, with a record. -/
def evalSteps (fuel : Nat) (stack : CallStack) : Nat → Value → ScopeId → Recorded Value
  | 0, _, _ => silent Run.diverge
  | steps + 1, form, scope => stepping form scope do
    match ← evalStep ev fuel stack form scope with
    | .done v => silent (Run.settle v)
    | .tail form scope => evalSteps fuel stack steps form scope

/-- Evaluates as `evalWithin` does, with a record and with all that is in progress around it. -/
def evalWithin (fuel : Nat) : Nat → CallStack → Recorder
  | 0, _, _, _ => silent Cause.recursion.raise
  | levels + 1, stack, form, scope =>
    evalSteps (evalWithin fuel levels) fuel (.evaluation :: stack) fuel form scope

end Evaluation

section Plain

variable {ev : Recorder} {fuel : Nat} {scope : ScopeId} {args : List Value}

theorem run_bind (m : Recorded α) (next : α → Recorded β) :
    (m >>= next).run = m.run >>= fun a => (next a).run :=
  rfl

theorem run_each (f : α → Recorded β) (xs : List α) :
    (each f xs).run = xs.mapM fun x => (f x).run := by
  induction xs with
  | nil => rfl
  | cons x xs ih =>
    rw [List.mapM_cons, ← ih]
    rfl

theorem run_callWith (native : Native → List Value → ScopeId → Recorded Value) (f : Value) :
    (callWith ev native f args scope).run =
      f.callWith ev.plain (fun op args scope => (native op args scope).run) args scope := by
  cases f with
  | fn id expander note =>
    refine congrArg (_ >>= ·) (funext fun c? => ?_)
    cases c? <;> rfl
  | _ => rfl

section Callbacks

variable (call : Value → List Value → Recorded Value)

theorem run_runApply :
    (runApply call args).run = Native.runApply (fun f args => (call f args).run) args := by
  match args with
  | _ :: _ :: _ | [] | [_] => rfl

theorem run_runMap :
    (runMap call args).run = Native.runMap (fun f args => (call f args).run) args := by
  match args with
  | [f, xs] =>
    simp only [runMap, run_bind, run_each]
    rfl
  | [] | [_] | _ :: _ :: _ :: _ => rfl

theorem run_runSwap :
    (runSwap call args).run = Native.runSwap (fun f args => (call f args).run) args := by
  match args with
  | _ :: _ :: _ | [] | [_] => rfl

theorem run_runEval : (runEval ev scope args).run = Native.runEval ev.plain scope args := by
  match args with
  | [_] | [] | _ :: _ :: _ => rfl

theorem run_perform (op : Native) :
    (perform ev op call args scope).run =
      op.perform ev.plain (fun f args => (call f args).run) args scope := by
  unfold perform Native.perform
  cases op.behaviour with
  | compute f => rfl
  | act f => rfl
  | call c =>
    cases c with
    | apply => exact run_runApply call
    | map => exact run_runMap call
    | swap => exact run_runSwap call
    | eval => exact run_runEval

end Callbacks

theorem run_expand (fuel : Nat) (form : Value) :
    (expand ev fuel form scope).run = MiniLisp.expand ev.plain fuel form scope := by
  induction fuel generalizing form with
  | zero =>
    rw [expand, MiniLisp.expand]
    refine congrArg (_ >>= ·) (funext fun found => ?_)
    cases found <;> rfl
  | succ fuel ih =>
    rw [expand, MiniLisp.expand]
    refine congrArg (_ >>= ·) (funext fun found => ?_)
    cases found with
    | none => rfl
    | some found => exact congrArg (_ >>= ·) (funext ih)

theorem run_runDefine (form : SpecialForm) :
    (runDefine ev form scope args).run = form.runDefine ev.plain scope args := by
  match args with
  | [v, expr] =>
    cases v with
    | sym name =>
      rw [SpecialForm.runDefine_symbol, bind_assoc]
      rfl
    | _ => rfl
  | [] => rfl
  | [v] | v :: _ :: _ :: _ => cases v <;> rfl

theorem run_bindAll (row : List Value) :
    (bindAll ev scope row).run = SpecialForm.bindAll ev.plain scope row := by
  induction row using SpecialForm.bindAll.induct with
  | case1 name expr more ih =>
    exact congrArg (_ >>= ·) (funext fun v => congrArg (_ >>= ·) (funext fun _ => ih))
  | case2 v expr more hne =>
    rw [bindAll, SpecialForm.bindAll] <;> first | rfl | exact hne
  | case3 row hne hne' =>
    rw [bindAll, SpecialForm.bindAll] <;> first | rfl | assumption

theorem run_runLetIn : (runLetIn ev scope args).run = SpecialForm.runLetIn ev.plain scope args := by
  match args with
  | [bindings, body] =>
    rw [SpecialForm.runLetIn_pair, runLetIn]
    cases bindings.elements? with
    | none => rfl
    | some row =>
      dsimp only
      split
      · rfl
      · simp only [run_bind, run_bindAll]
        rfl
  | [] | [_] | _ :: _ :: _ :: _ => rfl

theorem run_runSequence : (runSequence ev scope args).run =
    SpecialForm.runSequence ev.plain scope args := by
  fun_induction runSequence ev scope args with
  | case1 => rfl
  | case2 => rfl
  | case3 form next more ih =>
    rw [SpecialForm.runSequence, discard_eq, bind_assoc, ← ih]
    · simp only [run_bind, pure_bind]
      rfl
    · simp

theorem run_runChoice : (runChoice ev scope args).run =
    SpecialForm.runChoice ev.plain scope args := by
  match args with
  | [_, _] | [_, _, _] | [] | [_] | _ :: _ :: _ :: _ :: _ => rfl

theorem run_runHandle : (runHandle ev scope args).run =
    SpecialForm.runHandle ev.plain scope args := by
  match args with
  | [body, clause] =>
    simp only [runHandle, SpecialForm.runHandle]
    cases SpecialForm.catchClause? clause with
    | none => rfl
    | some found =>
      refine congrArg (_ >>= ·) (funext fun result => ?_)
      cases result <;> rfl
  | [_] | [] | _ :: _ :: _ :: _ => rfl

theorem run_runForm (form : SpecialForm) (fuel : Nat) :
    (runForm ev form fuel scope args).run = form.run ev.plain fuel scope args := by
  cases form with
  | define => exact run_runDefine _
  | defineExpander => exact run_runDefine _
  | letIn => exact run_runLetIn
  | sequence => exact run_runSequence
  | choice => exact run_runChoice
  | function => rfl
  | quote =>
    match args with
    | [_] | [] | _ :: _ :: _ => rfl
  | quasiquote =>
    match args with
    | [_] | [] | _ :: _ :: _ => rfl
  | expansion =>
    match args with
    | [v] =>
      simp only [runForm, run_bind, run_expand]
      rfl
    | [] | _ :: _ :: _ => rfl
  | handle => exact run_runHandle

theorem run_evalPlain (form : Value) :
    (evalPlain ev form scope).run = MiniLisp.evalPlain ev.plain form scope := by
  cases form with
  | vec items note => simp only [evalPlain, run_bind, run_each]; rfl
  | map entries note => simp only [evalPlain, run_bind, run_each]; rfl
  | _ => rfl

end Plain

section PlainEvaluation

variable {ev : CallStack → Recorder} {plain : Evaluator} {fuel : Nat} {stack : CallStack}
  {scope : ScopeId}

theorem run_callNative (h : ∀ stack, (ev stack).plain = plain) (fuel : Nat) (stack : CallStack)
    (op : Native) (args : List Value) (scope : ScopeId) :
    (callNative ev fuel stack op args scope).run = Native.call plain fuel op args scope := by
  induction fuel generalizing stack op args scope with
  | zero => rfl
  | succ fuel ih =>
    refine congrArg (_ >>= ·) (funext fun _ => (run_perform _ op).trans ?_)
    rw [h]
    congr 1
    funext f args
    simp only [run_bind, run_callWith, h, ih]
    rfl

theorem run_evalCall (h : ∀ stack, (ev stack).plain = plain) (forms : List Value) :
    (evalCall ev fuel stack forms scope).run = MiniLisp.evalCall plain fuel forms scope := by
  have hparts : (fun form => (ev stack form scope).run) = fun form => plain form scope := by
    rw [← h stack]
    rfl
  rw [evalCall, MiniLisp.evalCall, run_bind, run_each, hparts]
  refine congrArg (_ >>= ·) (funext fun vs => ?_)
  cases vs with
  | nil => rfl
  | cons f args =>
    cases f with
    | native op note =>
      simp only [run_bind, run_callNative h]
      rfl
    | fn id expander note =>
      refine congrArg (_ >>= ·) (funext fun c? => ?_)
      cases c? <;> rfl
    | _ => rfl

theorem run_evalExpanded (h : ∀ stack, (ev stack).plain = plain) (expanded : Value) :
    (evalExpanded ev fuel stack expanded scope).run =
      MiniLisp.evalExpanded plain fuel expanded scope := by
  match expanded with
  | .list (head :: args) note =>
    simp only [evalExpanded, MiniLisp.evalExpanded]
    cases (SpecialForm.symbolName? head).bind SpecialForm.ofName? with
    | some special => exact (run_runForm special fuel).trans (by rw [h])
    | none => exact run_evalCall h _
  | .list [] _ | .vec .. | .map .. =>
    simp only [evalExpanded, run_bind, run_evalPlain, h]
    rfl
  | .nil | .bool _ | .int _ | .str _ | .sym _ | .kw _ | .native .. | .fn .. | .atom .. | .error ..
  | .caught .. => rfl

theorem run_evalStep (h : ∀ stack, (ev stack).plain = plain) (form : Value) :
    (evalStep ev fuel stack form scope).run = MiniLisp.evalStep plain fuel form scope := by
  rw [evalStep, evalStep_eq, run_bind, run_expand, h]
  exact congrArg (_ >>= ·) (funext fun expanded => run_evalExpanded h expanded)

theorem run_evalSteps (h : ∀ stack, (ev stack).plain = plain) (steps : Nat) (form : Value)
    (scope : ScopeId) : (evalSteps ev fuel stack steps form scope).run =
      MiniLisp.evalSteps plain fuel steps form scope := by
  induction steps generalizing form scope with
  | zero => rfl
  | succ steps ih =>
    rw [evalSteps, MiniLisp.evalSteps, ← run_evalStep h]
    refine congrArg (_ >>= ·) (funext fun step => ?_)
    cases step with
    | done v => rfl
    | tail form scope => exact ih form scope

/-- Without its record, evaluation is what it always is. -/
theorem plain_evalWithin (fuel levels : Nat) (stack : CallStack) :
    (evalWithin fuel levels stack).plain = MiniLisp.evalWithin fuel levels := by
  induction levels generalizing stack with
  | zero => rfl
  | succ levels ih =>
    funext form scope
    exact run_evalSteps ih fuel form scope

theorem outcome_evalWithin (fuel levels : Nat) (stack : CallStack) (form : Value) (scope : ScopeId)
    (w : World) : (evalWithin fuel levels stack form scope).run.outcome w =
      (MiniLisp.evalWithin fuel levels form scope).outcome w := by
  rw [← plain_evalWithin fuel levels stack]
  rfl

end PlainEvaluation

end Recorded
end MiniLisp
