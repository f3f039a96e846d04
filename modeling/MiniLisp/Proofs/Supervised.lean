import MiniLisp.Proofs.Trampoline

namespace MiniLisp

open Run

open Classical in
/-- The first run in worlds with the property, the second one in others. -/
noncomputable def Run.byWorld {α : Type} (property : World → Prop) (yes no : Run α) : Run α :=
  ExceptT.mk fun w => if property w then yes.outcome w else no.outcome w

section ByWorld

variable {α : Type} {property : World → Prop} {w : World}

theorem Run.outcome_byWorld_of (property : World → Prop) (yes no : Run α) (h : property w) :
    (Run.byWorld property yes no).outcome w = yes.outcome w :=
  if_pos h

theorem Run.outcome_byWorld_not (property : World → Prop) (yes no : Run α) (h : ¬ property w) :
    (Run.byWorld property yes no).outcome w = no.outcome w :=
  if_neg h

theorem Run.byWorld_true (yes no : Run α) : Run.byWorld (fun _ => True) yes no = yes :=
  Run.ext fun _ => outcome_byWorld_of _ yes no trivial

theorem Run.Below.byWorld {a b : Run α} (h : a.Below b) :
    (Run.byWorld property a Run.diverge).Below b := by
  intro w ending hends
  by_cases hw : property w
  · rw [outcome_byWorld_of _ _ _ hw] at hends
    exact h w ending hends
  · rw [outcome_byWorld_not _ _ _ hw] at hends
    cases hends

end ByWorld

/-- Sees every step before it is taken, every native before it runs and every form for which no level is
left, and says what happens there. What one supervisor would do and another one would not tells apart what
an evaluation comes to from what it does not. -/
structure Supervisor where
  /-- What happens where no level is left. -/
  floor : Evaluator
  /-- What becomes of the evaluation that is about to take a step. -/
  step : Value → ScopeId → Run Value → Run Value
  /-- What becomes of the native that is about to run, given the evaluator that it calls back. -/
  native : Evaluator → Native → List Value → ScopeId → Run Value → Run Value

/-- Calls a native as `Native.call` does, under supervision. -/
def Native.callUnder (s : Supervisor) (ev : Evaluator) :
    Nat → Native → List Value → ScopeId → Run Value
  | 0, _, _, _ => Run.diverge
  | fuel + 1, op, args, scope => do
    ofExcept (op.arity.check op.name args.length)
    s.native ev op args scope
      (op.perform ev
        (fun f args => do Run.settle (← f.callWith ev (callUnder s ev fuel) args scope)) args scope)

/-- Makes a call as `evalCall` does, under supervision. -/
def evalCallUnder (s : Supervisor) (ev : Evaluator) (fuel : Nat) (forms : List Value)
    (scope : ScopeId) : Run Step := do
  match ← forms.mapM fun form => ev form scope with
  | [] => return .done (.ofList [])
  | f :: args =>
    match f with
    | .native op _ => return .done (← Native.callUnder s ev fuel op args scope)
    | .fn id _ _ =>
      match ← Run.query fun heap => heap.closure? id with
      | some c => return .tail c.body (← c.enter args)
      | none => f.notCallable
    | _ => f.notCallable

/-- Takes a step as `evalStep` does, under supervision. -/
def evalStepUnder (s : Supervisor) (ev : Evaluator) (fuel : Nat) (form : Value) (scope : ScopeId) :
    Run Step := do
  match ← expand ev fuel form scope with
  | .list (head :: args) _ =>
    match (SpecialForm.symbolName? head).bind SpecialForm.ofName? with
    | some special => special.run ev fuel scope args
    | none => evalCallUnder s ev fuel (head :: args) scope
  | expanded => return .done (← evalPlain ev expanded scope)

/-- Takes steps as `evalSteps` does, under supervision. -/
def evalStepsUnder (s : Supervisor) (ev : Evaluator) (fuel : Nat) :
    Nat → Value → ScopeId → Run Value
  | 0, _, _ => Run.diverge
  | steps + 1, form, scope => s.step form scope do
    match ← evalStepUnder s ev fuel form scope with
    | .done v => Run.settle v
    | .tail form scope => evalStepsUnder s ev fuel steps form scope

/-- Evaluates as `evalWithin` does, under supervision. -/
def evalUnder (s : Supervisor) (fuel : Nat) : Nat → Evaluator
  | 0 => s.floor
  | levels + 1 => fun form scope => evalStepsUnder s (evalUnder s fuel levels) fuel fuel form scope

namespace Supervisor

/-- Leaves everything as it is, over a floor. -/
def plain (floor : Evaluator) : Supervisor where
  floor := floor
  step _ _ run := run
  native _ _ _ _ run := run

/-- Leaves everything as it is. -/
def idle : Supervisor :=
  plain fun _ _ => Cause.recursion.raise

/-- Has something else happen where the native would run. -/
def replacing (op : Native) (other : List Value → ScopeId → Run Value) : Supervisor :=
  { idle with
    native := fun _ op' args scope run => if op' = op then other args scope else run }

/-- Where `cut` gives a result for a form, the form has it at once. -/
def cutting (cut : Value → ScopeId → World → Option (Except Fault Value)) : Supervisor :=
  { idle with
    step := fun form scope run => do
      match cut form scope (← get) with
      | some result => ofExcept result
      | none => run }

/-- Has something else happen before each step and each native, unless all is well there. -/
noncomputable def minding (well : ScopeId → World → Prop) (other : Run Value) (s : Supervisor) :
    Supervisor where
  floor := s.floor
  step form scope run := Run.byWorld (well scope) (s.step form scope run) other
  native ev op args scope run := Run.byWorld (well scope) (s.native ev op args scope run) other

end Supervisor

/-- The evaluation never comes to run the native: what would happen instead makes no difference. -/
def NeverRuns (op : Native) (fuel levels : Nat) (form : Value) (scope : ScopeId) (w : World) : Prop :=
  ∀ other, (evalUnder (.replacing op other) fuel levels form scope).outcome w =
    (evalWithin fuel levels form scope).outcome w

/-- Each step and each native of the evaluation begins in a scope and a world where all is well: what
would happen instead makes no difference. Parts of the evaluation may be cut, for the beginning of an
evaluation that never ends makes a difference only to one that has been cut. -/
def PassesOnly (well : ScopeId → World → Prop) (fuel levels : Nat) (form : Value) (scope : ScopeId)
    (w : World) : Prop :=
  ∀ cut other,
    (evalUnder (.minding well other (.cutting cut)) fuel levels form scope).outcome w =
      (evalUnder (.cutting cut) fuel levels form scope).outcome w

/-- Natives run as they always do. -/
def Supervisor.LeavesNatives (s : Supervisor) : Prop :=
  ∀ ev op args scope run, s.native ev op args scope run = run

section Idle

variable {s : Supervisor} {floor ev : Evaluator} {fuel : Nat}

theorem Native.callUnder_eq (hs : s.LeavesNatives) (fuel : Nat) :
    Native.callUnder s ev fuel = Native.call ev fuel := by
  induction fuel with
  | zero => rfl
  | succ fuel ih =>
    funext op args scope
    simp only [callUnder, call, ih]
    congr 1
    funext _
    exact hs ev op args scope _

theorem evalCallUnder_eq (hs : s.LeavesNatives) (forms : List Value) (scope : ScopeId) :
    evalCallUnder s ev fuel forms scope = evalCall ev fuel forms scope := by
  unfold evalCallUnder
  simp only [Native.callUnder_eq hs]
  rfl

theorem evalStepUnder_eq (hs : s.LeavesNatives) (form : Value) (scope : ScopeId) :
    evalStepUnder s ev fuel form scope = evalStep ev fuel form scope := by
  rw [evalStep_eq, evalStepUnder]
  congr 1
  funext expanded
  cases expanded with
  | list items note =>
    cases items with
    | nil => rfl
    | cons head args =>
      simp only [evalCallUnder_eq hs]
      rfl
  | _ => rfl

theorem leavesNatives_plain : (Supervisor.plain floor).LeavesNatives :=
  fun _ _ _ _ _ => rfl

theorem evalStepsUnder_plain (steps : Nat) :
    evalStepsUnder (.plain floor) ev fuel steps = evalSteps ev fuel steps := by
  induction steps with
  | zero => rfl
  | succ steps ih =>
    funext form scope
    simp only [evalStepsUnder, evalSteps, ih, evalStepUnder_eq leavesNatives_plain]
    rfl

theorem evalStepsUnder_idle (steps : Nat) :
    evalStepsUnder .idle ev fuel steps = evalSteps ev fuel steps :=
  evalStepsUnder_plain steps

theorem evalUnder_plain (floor : Evaluator) (fuel levels : Nat) :
    evalUnder (.plain floor) fuel levels = evalOver floor fuel levels := by
  induction levels with
  | zero => rfl
  | succ levels ih =>
    funext form scope
    simp only [evalUnder, evalOver, ih, evalStepsUnder_plain]

/-- A supervisor that leaves everything as it is makes no difference. -/
theorem evalUnder_idle (fuel levels : Nat) :
    evalUnder .idle fuel levels = evalWithin fuel levels :=
  (evalUnder_plain _ fuel levels).trans (evalWithin_eq_evalOver fuel levels).symm

end Idle

/-- Whatever the first supervisor lets end, the second one lets end in the same way. -/
structure Supervisor.Below (s s' : Supervisor) : Prop where
  floor : s.floor.Below s'.floor
  step : ∀ form scope {a b}, a.Below b → (s.step form scope a).Below (s'.step form scope b)
  native : ∀ {ev ev' : Evaluator}, ev.Below ev' → ∀ op args scope {a b}, a.Below b →
    (s.native ev op args scope a).Below (s'.native ev' op args scope b)

section Below

variable {s s' : Supervisor} {ev ev' : Evaluator} {fuel fuel' : Nat}

theorem Native.callUnder_below (hs : s.Below s') (h : ev.Below ev') (hf : fuel ≤ fuel')
    (op : Native) (args : List Value) (scope : ScopeId) :
    (Native.callUnder s ev fuel op args scope).Below
      (Native.callUnder s' ev' fuel' op args scope) := by
  induction fuel generalizing fuel' op args scope with
  | zero => exact .diverge _
  | succ fuel ih =>
    obtain ⟨fuel', rfl⟩ : ∃ n, fuel' = n + 1 := ⟨fuel' - 1, by omega⟩
    simp only [callUnder]
    refine .bind (.refl _) fun _ => hs.native h op args scope (perform_below h (fun f args => ?_) _ _ _)
    refine .bind ?_ fun _ => .refl _
    exact Value.callWith_below h (fun op args scope => ih (by omega) op args scope) f args scope

theorem evalStepUnder_below (hs : s.Below s') (h : ev.Below ev') (hf : fuel ≤ fuel') (form : Value)
    (scope : ScopeId) :
    (evalStepUnder s ev fuel form scope).Below (evalStepUnder s' ev' fuel' form scope) := by
  refine .bind (expand_below h hf form scope) fun expanded => ?_
  split
  · split
    · exact SpecialForm.run_below h hf _ scope _
    · refine .bind (.mapM (fun form => h form scope) _) fun vs => ?_
      split
      · exact .refl _
      · split
        · exact .bind (Native.callUnder_below hs h hf _ _ scope) fun _ => .refl _
        · exact .refl _
        · exact .refl _
  · exact .bind (evalPlain_below h _ scope) fun _ => .refl _

theorem evalStepsUnder_below (hs : s.Below s') (h : ev.Below ev') (hf : fuel ≤ fuel')
    {steps steps' : Nat} (hsteps : steps ≤ steps') (form : Value) (scope : ScopeId) :
    (evalStepsUnder s ev fuel steps form scope).Below
      (evalStepsUnder s' ev' fuel' steps' form scope) := by
  induction steps generalizing steps' form scope with
  | zero => exact .diverge _
  | succ steps ih =>
    obtain ⟨steps', rfl⟩ : ∃ n, steps' = n + 1 := ⟨steps' - 1, by omega⟩
    simp only [evalStepsUnder]
    refine hs.step form scope (.bind (evalStepUnder_below hs h hf form scope) fun step => ?_)
    cases step with
    | done v => exact .refl _
    | tail form scope => exact ih (by omega) form scope

/-- Evaluation is monotone in the supervisor and in the fuel. -/
theorem evalUnder_below (hs : s.Below s') (hf : fuel ≤ fuel') (levels : Nat) :
    (evalUnder s fuel levels).Below (evalUnder s' fuel' levels) := by
  induction levels with
  | zero => exact hs.floor
  | succ levels ih => exact evalStepsUnder_below hs ih hf hf

end Below

/-- Every step is taken as it always is. -/
def Supervisor.TakesSteps (s : Supervisor) : Prop :=
  ∀ form scope run, s.step form scope run = run

/-- Every step is taken as it always is, and every native but this one runs as it always does. -/
structure Supervisor.Spares (s : Supervisor) (op : Native) : Prop where
  step : s.TakesSteps
  native : ∀ ev other args scope run, other ≠ op → s.native ev other args scope run = run

theorem Supervisor.takesSteps_idle : idle.TakesSteps :=
  fun _ _ _ => rfl

theorem Supervisor.spares_idle (op : Native) : idle.Spares op :=
  ⟨takesSteps_idle, fun _ _ _ _ _ _ => rfl⟩

theorem Supervisor.spares_replacing (op : Native) (instead : List Value → ScopeId → Run Value) :
    (replacing op instead).Spares op :=
  ⟨fun _ _ _ => rfl, fun _ _ _ _ _ hne => if_neg hne⟩

section Steps

variable {s : Supervisor} {ev : Evaluator} {fuel steps : Nat} {scope : ScopeId} {w w' : World}
  {name : String} {forms args : List Value}

/-- A native that calls nothing back runs as it always does, unless it is not spared. -/
theorem Native.callUnder_spared {op other : Native} (hs : s.Spares op) (hne : other ≠ op)
    (hcall : ∀ c, other.behaviour ≠ .call c) (fuel : Nat) (args : List Value) (scope : ScopeId) :
    Native.callUnder s ev fuel other args scope = Native.call ev fuel other args scope := by
  cases fuel with
  | zero => rfl
  | succ fuel =>
    have hperform : ∀ call call' : Value → List Value → Run Value,
        other.perform ev call args scope = other.perform ev call' args scope := by
      intro call call'
      unfold perform
      cases hb : other.behaviour with
      | call c => exact absurd hb (hcall c)
      | compute | act => rfl
    simp only [callUnder, call]
    congr 1
    funext _
    rw [hs.native _ _ _ _ _ hne]
    exact hperform _ _

theorem evalStepsUnder_done {form v : Value} (hs : s.TakesSteps)
    (h : (evalStepUnder s ev fuel form scope).outcome w = some (.ok (.done v), w')) :
    (evalStepsUnder s ev fuel (steps + 1) form scope).outcome w = (settle v).outcome w' := by
  rw [evalStepsUnder, hs, outcome_bind_ok _ h]

theorem evalStepUnder_symbol {v : Value} (h : w.heap.scopes.lookup scope name = some v) :
    (evalStepUnder s ev fuel (.sym name) scope).outcome w = some (.ok (.done v), w) := by
  rw [evalStepUnder, outcome_bind_ok _ (expand_same rfl)]
  refine outcome_bind_ok _ ?_
  simp [evalPlain, resolve, outcome_bind, Scopes.resolve, h]

/-- Anything that is bound to a name is what the name comes to. -/
theorem evalStepsUnder_symbol (hs : s.TakesSteps) {v : Value}
    (h : w.heap.scopes.lookup scope name = some v) :
    (evalStepsUnder s ev fuel (steps + 1) (.sym name) scope).outcome w = (settle v).outcome w :=
  evalStepsUnder_done hs (evalStepUnder_symbol h)

theorem evalStepsUnder_string (hs : s.TakesSteps) (text : String) :
    (evalStepsUnder s ev fuel (steps + 1) (.str text) scope).outcome w =
      some (.ok (.str text), w) := by
  have hstep : (evalStepUnder s ev fuel (.str text) scope).outcome w =
      some (.ok (.done (.str text)), w) := by
    rw [evalStepUnder, outcome_bind_ok _ (expand_same rfl)]
    rfl
  rw [evalStepsUnder_done hs hstep]
  rfl

/-- A form that begins with a name makes a call, unless the name is that of a special form or stands
for an expander. -/
theorem evalStepUnder_call {v : Value} (hhead : SpecialForm.ofName? name = none)
    (hname : w.heap.scopes.lookup scope name = some v) (hv : ∀ id note, v ≠ .fn id true note) :
    (evalStepUnder s ev fuel (.ofList (.sym name :: forms)) scope).outcome w =
      (evalCallUnder s ev fuel (.sym name :: forms) scope).outcome w := by
  have hsame : w.heap.expander? (.ofList (.sym name :: forms)) scope = none := by
    refine Heap.expander?_of_lookup _ _ fun id note hl => ?_
    rw [hname] at hl
    exact hv id note (Option.some.inj hl)
  rw [evalStepUnder, outcome_bind_ok _ (expand_same hsame)]
  simp only [Value.ofList, SpecialForm.symbolName?, Option.bind_some, hhead]

/-- Once the arguments of a native have been evaluated, the step is the call of the native. -/
theorem evalStepUnder_native {op : Native} {note : Value} (hhead : SpecialForm.ofName? name = none)
    (hname : w.heap.scopes.lookup scope name = some (.native op note))
    (hparts : InOrder (ev · scope) (.sym name :: forms) w (.native op note :: args) w') :
    (evalStepUnder s ev fuel (.ofList (.sym name :: forms)) scope).outcome w =
      (Native.callUnder s ev fuel op args scope >>= fun v => pure (.done v)).outcome w' := by
  rw [evalStepUnder_call hhead hname (by simp), evalCallUnder, outcome_bind_ok _ hparts.mapM]

/-- The call of a native ends as the native does, once its arguments have been evaluated. -/
theorem evalStepsUnder_native (hs : s.TakesSteps) {op : Native} {note : Value}
    (hhead : SpecialForm.ofName? name = none)
    (hname : w.heap.scopes.lookup scope name = some (.native op note))
    (hparts : InOrder (ev · scope) (.sym name :: forms) w (.native op note :: args) w') :
    (evalStepsUnder s ev fuel (steps + 1) (.ofList (.sym name :: forms)) scope).outcome w =
      (Native.callUnder s ev fuel op args scope >>= Run.settle).outcome w' := by
  rw [evalStepsUnder, hs, outcome_bind, evalStepUnder_native hhead hname hparts, ← outcome_bind,
    bind_assoc]
  simp only [pure_bind]

/-- The call of a function goes on with its body, in a new scope inside the one of the function. -/
theorem evalStepsUnder_function (hs : s.TakesSteps) {id : FnId} {note : Value} {c : Closure}
    (hhead : SpecialForm.ofName? name = none)
    (hname : w.heap.scopes.lookup scope name = some (.fn id false note))
    (hclosure : w'.heap.closure? id = some c)
    (hparts : InOrder (ev · scope) (.sym name :: forms) w (.fn id false note :: args) w') :
    (evalStepsUnder s ev fuel (steps + 1) (.ofList (.sym name :: forms)) scope).outcome w =
      (evalStepsUnder s ev fuel steps c.body
        (w'.heap.enter (some c.scope) (bindParams [] c.params args)).2).outcome
          { w' with heap := (w'.heap.enter (some c.scope) (bindParams [] c.params args)).1 } := by
  have hquery : (Run.query fun heap => heap.closure? id).outcome w' = some (.ok (some c), w') := by
    rw [outcome_query, hclosure]
  have hstep : (evalStepUnder s ev fuel (.ofList (.sym name :: forms)) scope).outcome w =
      some (.ok (.tail c.body (w'.heap.enter (some c.scope) (bindParams [] c.params args)).2),
        { w' with heap := (w'.heap.enter (some c.scope) (bindParams [] c.params args)).1 }) := by
    rw [evalStepUnder_call hhead hname (by simp), evalCallUnder, outcome_bind_ok _ hparts.mapM]
    exact (outcome_bind_ok _ hquery).trans rfl
  rw [evalStepsUnder, hs, outcome_bind_ok _ hstep]

/-- A call fails if one of its parts does. -/
theorem evalStepsUnder_part_error (hs : s.TakesSteps) {rest vs : List Value} {x v : Value}
    {fault : Fault} {w'' : World} (before : List Value)
    (hsplit : .sym name :: forms = before ++ x :: rest) (hhead : SpecialForm.ofName? name = none)
    (hname : w.heap.scopes.lookup scope name = some v) (hv : ∀ id note, v ≠ .fn id true note)
    (hbefore : InOrder (ev · scope) before w vs w')
    (hx : (ev x scope).outcome w' = some (.error fault, w'')) :
    (evalStepsUnder s ev fuel (steps + 1) (.ofList (.sym name :: forms)) scope).outcome w =
      some (.error fault, w'') := by
  have hstep : (evalStepUnder s ev fuel (.ofList (.sym name :: forms)) scope).outcome w =
      some (.error fault, w'') := by
    rw [evalStepUnder_call hhead hname hv, evalCallUnder, hsplit]
    exact outcome_bind_error _ (hbefore.mapM_error hx rest)
  rw [evalStepsUnder, hs, outcome_bind_error _ hstep]

end Steps
end MiniLisp
