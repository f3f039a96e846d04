import MiniLisp.Proofs.Supervised

namespace MiniLisp

open Value Run

/-- Each of these evaluators takes steps with the one before it for what is not in tail position. -/
def Layered (fuel : Nat) (E : Nat → Evaluator) : Prop :=
  ∀ levels form scope, E (levels + 1) form scope = evalSteps (E levels) fuel fuel form scope

/-- Each of these evaluators takes steps under the supervisor, with the one before it for what is not
in tail position. -/
def LayeredUnder (s : Supervisor) (fuel : Nat) (E : Nat → Evaluator) : Prop :=
  ∀ levels form scope, E (levels + 1) form scope = evalStepsUnder s (E levels) fuel fuel form scope

theorem layered_evalWithin (fuel : Nat) : Layered fuel (evalWithin fuel) :=
  fun _ _ _ => rfl

theorem layered_evalOver (floor : Evaluator) (fuel : Nat) : Layered fuel (evalOver floor fuel) :=
  fun _ _ _ => rfl

theorem layeredUnder_evalUnder (s : Supervisor) (fuel : Nat) : LayeredUnder s fuel (evalUnder s fuel) :=
  fun _ _ _ => rfl

section Steps

variable {ev : Evaluator} {fuel steps : Nat} {scope : ScopeId} {w w' : World} {name : String}
  {forms args : List Value}

/-- The call of a native ends as the native does, once its arguments have been evaluated. -/
theorem evalSteps_native {op : Native} {note : Value} (hhead : SpecialForm.ofName? name = none)
    (hname : w.heap.scopes.lookup scope name = some (.native op note))
    (hparts : InOrder (ev · scope) (.sym name :: forms) w (.native op note :: args) w') :
    (evalSteps ev fuel (steps + 1) (ofList (.sym name :: forms)) scope).outcome w =
      (Native.call ev fuel op args scope >>= Run.settle).outcome w' := by
  have hsame : Native.callUnder .idle ev fuel = Native.call ev fuel :=
    Native.callUnder_eq leavesNatives_plain fuel
  rw [← evalStepsUnder_idle, evalStepsUnder_native Supervisor.takesSteps_idle hhead hname hparts, hsame]

/-- The call of a function goes on with its body, in a new scope inside the one of the function. -/
theorem evalSteps_function {id : FnId} {note : Value} {c : Closure}
    (hhead : SpecialForm.ofName? name = none)
    (hname : w.heap.scopes.lookup scope name = some (.fn id false note))
    (hclosure : w'.heap.closure? id = some c)
    (hparts : InOrder (ev · scope) (.sym name :: forms) w (.fn id false note :: args) w') :
    (evalSteps ev fuel (steps + 1) (ofList (.sym name :: forms)) scope).outcome w =
      (evalSteps ev fuel steps c.body
        (w'.heap.enter (some c.scope) (bindParams [] c.params args)).2).outcome
          { w' with heap := (w'.heap.enter (some c.scope) (bindParams [] c.params args)).1 } := by
  rw [← evalStepsUnder_idle, ← evalStepsUnder_idle]
  exact evalStepsUnder_function Supervisor.takesSteps_idle hhead hname hclosure hparts

/-- A call fails if one of its parts does. -/
theorem evalSteps_part_error {rest vs : List Value} {x v : Value} {fault : Fault} {w'' : World}
    (before : List Value) (hsplit : .sym name :: forms = before ++ x :: rest)
    (hhead : SpecialForm.ofName? name = none)
    (hname : w.heap.scopes.lookup scope name = some v) (hv : ∀ id note, v ≠ .fn id true note)
    (hbefore : InOrder (ev · scope) before w vs w')
    (hx : (ev x scope).outcome w' = some (.error fault, w'')) :
    (evalSteps ev fuel (steps + 1) (ofList (.sym name :: forms)) scope).outcome w =
      some (.error fault, w'') := by
  rw [← evalStepsUnder_idle]
  exact evalStepsUnder_part_error Supervisor.takesSteps_idle before hsplit hhead hname hv hbefore hx

end Steps

section Layers

variable {s : Supervisor} {E : Nat → Evaluator} {fuel levels : Nat} {scope : ScopeId} {w w' : World}
  {name : String} {op : Native} {note : Value} {forms args : List Value}

theorem Layered.under (hE : Layered fuel E) : LayeredUnder .idle fuel E := by
  intro levels form scope
  rw [hE, evalStepsUnder_idle]

/-- A symbol that is bound to anything but an error value ends as what it is bound to. -/
theorem LayeredUnder.symbol (hE : LayeredUnder s (fuel + 1) E) (hs : s.TakesSteps) {v : Value}
    (h : w.heap.scopes.lookup scope name = some v) (hv : Run.settle v = pure v) :
    (E (levels + 1) (.sym name) scope).outcome w = some (.ok v, w) := by
  rw [hE, evalStepsUnder_symbol hs h, hv]
  rfl

theorem LayeredUnder.string (hE : LayeredUnder s (fuel + 1) E) (hs : s.TakesSteps) (text : String) :
    (E (levels + 1) (.str text) scope).outcome w = some (.ok (.str text), w) := by
  rw [hE, evalStepsUnder_string hs]

/-- The call of a native that is bound to its own name, is spared and calls nothing back. -/
theorem LayeredUnder.native (hE : LayeredUnder s (fuel + 1) E) {other : Native} (hs : s.Spares op)
    (hne : other ≠ op) (hcall : ∀ c, other.behaviour ≠ .call c)
    (hhead : SpecialForm.ofName? other.name = none)
    (hname : w.heap.scopes.lookup scope other.name = some (.native other note))
    (hargs : InOrder (E (levels + 1) · scope) forms w args w') :
    (E (levels + 2) (ofList (.sym other.name :: forms)) scope).outcome w =
      (Native.call (E (levels + 1)) (fuel + 1) other args scope >>= Run.settle).outcome w' := by
  rw [hE, evalStepsUnder_native hs.step hhead hname (.cons (hE.symbol hs.step hname rfl) hargs),
    Native.callUnder_spared hs hne hcall]

theorem Layered.symbol (hE : Layered (fuel + 1) E) {v : Value}
    (h : w.heap.scopes.lookup scope name = some v) (hv : Run.settle v = pure v) :
    (E (levels + 1) (.sym name) scope).outcome w = some (.ok v, w) :=
  hE.under.symbol Supervisor.takesSteps_idle h hv

theorem Layered.string (hE : Layered (fuel + 1) E) (text : String) :
    (E (levels + 1) (.str text) scope).outcome w = some (.ok (.str text), w) :=
  hE.under.string Supervisor.takesSteps_idle text

theorem Layered.int (hE : Layered (fuel + 1) E) (n : Int64) (scope : ScopeId) :
    (E (levels + 1) (.int n) scope).outcome w = some (.ok (.int n), w) := by
  rw [hE]
  rfl

/-- The call of a native that is bound to its own name. -/
theorem Layered.native (hE : Layered (fuel + 1) E) (hhead : SpecialForm.ofName? op.name = none)
    (hname : w.heap.scopes.lookup scope op.name = some (.native op note))
    (hargs : InOrder (E (levels + 1) · scope) forms w args w') :
    (E (levels + 2) (ofList (.sym op.name :: forms)) scope).outcome w =
      (Native.call (E (levels + 1)) (fuel + 1) op args scope >>= Run.settle).outcome w' := by
  rw [hE, evalSteps_native hhead hname (.cons (hE.symbol hname rfl) hargs)]

end Layers
end MiniLisp
