import MiniLisp.Proofs.DepthLimit
import MiniLisp.Proofs.Supervised

namespace MiniLisp

open Run

/-- The evaluation never comes to the limit on levels, and each step and each native of it begins in a
world where all is well: what would happen instead makes no difference. -/
def WithinLimitWhile (well : World → Prop) (fuel levels : Nat) (form : Value) (scope : ScopeId)
    (w : World) : Prop :=
  ∀ floor other,
    (evalUnder (.minding (fun _ => well) other (.plain floor)) fuel levels form scope).outcome w =
      (evalWithin fuel levels form scope).outcome w

/-- Ends only if it never comes to the limit and all is well at each step and each native. -/
noncomputable def Supervisor.guarding (well : World → Prop) : Supervisor :=
  .minding (fun _ => well) Run.diverge (.plain fun _ _ => Run.diverge)

section

variable {well : World → Prop} {fuel levels : Nat}

theorem Supervisor.guarding_below : (guarding well).Below (.plain fun _ _ => Run.diverge) where
  floor := fun _ _ => .refl _
  step := fun _ _ _ _ h => h.byWorld
  native := fun _ _ _ _ _ _ h => h.byWorld

theorem evalUnder_guarding_below (floor : Evaluator) {levels' : Nat} (h : levels ≤ levels') :
    (evalUnder (.guarding well) fuel levels).Below (evalOver floor fuel levels') := by
  intro form scope w ending hends
  have hplain := evalUnder_below Supervisor.guarding_below (Nat.le_refl fuel) levels form scope w
    ending hends
  rw [evalUnder_plain] at hplain
  exact evalOver_diverge_below floor fuel h form scope w ending hplain

theorem evalStepUnder_guarding_below (ev : Evaluator) (fuel : Nat) (form : Value)
    (scope : ScopeId) :
    (evalStepUnder (.guarding well) ev fuel form scope).Below (evalStep ev fuel form scope) := by
  have hleaves : (Supervisor.plain fun _ _ => Run.diverge).LeavesNatives := leavesNatives_plain
  rw [← evalStepUnder_eq hleaves]
  exact evalStepUnder_below Supervisor.guarding_below (fun _ _ => .refl _) (Nat.le_refl fuel) form
    scope

theorem evalUnder_guarding_succ (form : Value) (scope : ScopeId) :
    evalUnder (.guarding well) (fuel + 1) (levels + 1) form scope =
      Run.byWorld well
        (evalStepUnder (.guarding well) (evalUnder (.guarding well) (fuel + 1) levels) (fuel + 1) form
          scope >>= Step.finish (evalStepsUnder (.guarding well)
            (evalUnder (.guarding well) (fuel + 1) levels) (fuel + 1) fuel))
        Run.diverge :=
  rfl

/-- A guarded evaluation that ends has taken a step where all was well. -/
theorem evalUnder_guarding_step {form : Value} {scope : ScopeId} {w : World}
    {ending : Except Fault Value × World}
    (h : (evalUnder (.guarding well) fuel levels form scope).outcome w = some ending) :
    well w ∧ ∃ fuel' levels' tail, fuel = fuel' + 1 ∧ levels = levels' + 1 ∧
      (evalStep (evalUnder (.guarding well) fuel levels') fuel form scope >>=
        Step.finish tail).outcome w = some ending := by
  cases levels with
  | zero => cases h
  | succ levels =>
    cases fuel with
    | zero => cases h
    | succ fuel =>
      rw [evalUnder_guarding_succ] at h
      by_cases hw : well w
      · rw [outcome_byWorld_of _ _ _ hw] at h
        refine ⟨hw, fuel, levels, evalStepsUnder (.guarding well)
          (evalUnder (.guarding well) (fuel + 1) levels) (fuel + 1) fuel, rfl, rfl, ?_⟩
        exact (evalStepUnder_guarding_below _ _ form scope).bind (fun _ => .refl _) w ending h
      · rw [outcome_byWorld_not _ _ _ hw] at h
        cases h

end

end MiniLisp
