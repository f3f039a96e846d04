import MiniLisp.Proofs.CleanEvaluation
import MiniLisp.Proofs.Supervised
import MiniLisp.Session

namespace MiniLisp

open Value Run

/-- Looks at the world before each step: the evaluation never ends if it is a world that is not allowed,
and something else takes over if it lacks the property. -/
noncomputable def Supervisor.watching (allowed property : World → Prop) (other : Evaluator) :
    Supervisor :=
  { idle with
    step := fun form scope run =>
      Run.byWorld allowed (Run.byWorld property run (other form scope)) Run.diverge }

/-- Evaluates as `evalWithin` does, under watch. -/
noncomputable def evalWatched (allowed property : World → Prop) (other : Evaluator) (fuel : Nat) :
    Nat → Evaluator :=
  evalUnder (.watching allowed property other) fuel

/-- Reads and evaluates the first form of the text, under watch. -/
noncomputable def Session.evalTextWatched (allowed property : World → Prop) (other : Evaluator)
    (fuel : Nat) (source : String) (scope : ScopeId) : Run (Option Value) := do
  match ← ofExcept (Value.read source) with
  | none => return none
  | some form => return some (← evalWatched allowed property other fuel maxEvalDepth form scope)

/-- Reads and evaluates the first form of the text, but never ends if a step begins in a world that is
not allowed. -/
noncomputable def Session.evalTextAllowed (allowed : World → Prop) (fuel : Nat) (source : String)
    (scope : ScopeId) : Run (Option Value) :=
  evalTextWatched allowed (fun _ => True) (fun _ _ => Run.diverge) fuel source scope

section Watching

variable {allowed property : World → Prop} {other : Evaluator} {fuel : Nat} {w : World}

theorem Supervisor.watching_step (form : Value) (scope : ScopeId) (run : Run Value) :
    (watching allowed property other).step form scope run =
      Run.byWorld allowed (Run.byWorld property run (other form scope)) Run.diverge :=
  rfl

theorem Supervisor.leavesNatives_watching : (watching allowed property other).LeavesNatives :=
  fun _ _ _ _ _ => rfl

/-- Allowing fewer worlds only makes an evaluation end less often. -/
theorem Supervisor.watching_below : (watching allowed (fun _ => True) other).Below idle where
  floor := fun _ _ => .refl _
  step := by
    intro form scope a b h
    simp only [watching_step, byWorld_true]
    exact h.byWorld
  native := fun _ _ _ _ _ _ h => h

theorem evalWatched_below (fuel levels : Nat) :
    (evalWatched allowed (fun _ => True) other fuel levels).Below (evalWithin fuel levels) := by
  rw [← evalUnder_idle]
  exact evalUnder_below Supervisor.watching_below (Nat.le_refl fuel) levels

/-- What ends in allowed worlds only ends in the same way without watch. -/
theorem Session.evalTextAllowed_below (source : String) (scope : ScopeId) :
    (evalTextAllowed allowed fuel source scope).Below (evalText fuel source scope) := by
  refine .bind (.refl _) fun form? => ?_
  cases form? with
  | none => exact .refl _
  | some form => exact .bind (evalWatched_below fuel maxEvalDepth form scope) fun _ => .refl _

end Watching

/-- No scope binds a name that filled-in templates call to an expander. -/
def Heap.NoJoinExpander (heap : Heap) : Prop :=
  ∀ (i : Nat) (s : Scope) (name : String), heap.scopes.all[i]? = some s →
    name = "cons" ∨ name = "concat" →
    ∀ id note, Entries.find? name s.bindings ≠ some (.fn id true note)

section Keeping

variable {ev ev' : Evaluator} {fuel : Nat} {form : Value} {scope : ScopeId} {w w' : World}

theorem Heap.NoJoinExpander.bind {heap : Heap} (h : heap.NoJoinExpander) (scope : ScopeId)
    {name : String} (hn : name ≠ "cons" ∧ name ≠ "concat") (v : Value) :
    (heap.bind scope name v).NoJoinExpander := by
  intro i s join hs hjoin id note hfind
  simp only [Heap.bind, Scopes.set, Array.getElem?_modify] at hs
  split at hs
  · obtain ⟨s', hs', rfl⟩ := Option.map_eq_some_iff.mp hs
    have hne : name ≠ join := by
      rintro rfl
      exact hjoin.elim hn.1 hn.2
    rw [Entries.find?_insert_ne hne] at hfind
    exact h i s' join hs' hjoin id note hfind
  · exact h i s join hs hjoin id note hfind

theorem Heap.NoJoinExpander.enter {heap : Heap} (h : heap.NoJoinExpander) (outer : Option ScopeId)
    {bindings : Entries String Value}
    (hb : ∀ e ∈ bindings, ∀ id note, e.2 ≠ .fn id true note) :
    (heap.enter outer bindings).1.NoJoinExpander := by
  intro i s join hs hjoin id note hfind
  simp only [Heap.enter, Scopes.enter, Array.getElem?_push] at hs
  split at hs
  · cases hs
    exact hb _ (Entries.mem_of_find? hfind) id note rfl
  · exact h i s join hs hjoin id note hfind

theorem Heap.NoJoinExpander.expander? {heap : Heap} (h : heap.NoJoinExpander) {name : String}
    (hn : name = "cons" ∨ name = "concat") (args : List Value) (note : Value) :
    heap.expander? (.list (.sym name :: args) note) scope = none := by
  refine Heap.expander?_of_lookup args note fun id note hl => ?_
  obtain ⟨i, s, hs, hfind⟩ := Scopes.bound_of_lookup hl
  exact h i s name hs hn id note hfind

/-- A step that safe code takes in a clean world, where templates mean what they say. -/
theorem evalStep_keeps (hev : ev.Keeps ev') (hform : form.Safe) (hw : w.heap.Clean)
    (hjoin : w.heap.NoJoinExpander) :
    KeepsFrom w Step.Safe (evalStep ev fuel form scope) (evalStep ev' fuel form scope) := by
  cases hform with
  | clean hclean =>
    have hkeeps : (evalStep ev fuel form scope).Keeps Step.Safe (evalStep ev' fuel form scope) := by
      rw [evalStep_eq, evalStep_eq]
      exact .bind (expand_keeps hev fuel hclean) fun form hform => evalExpanded_keeps hev fuel hform
    exact hkeeps w hw
  | @error kind payload hpayload =>
    have hdone : Step.Safe (.done (.error kind payload)) := .inr ⟨kind, payload, rfl, hpayload⟩
    exact Keeps.pure hdone w hw
  | @join name a b hn ha hb =>
    have hsame : w.heap.expander? (.list [.sym name, a, b] .nil) scope = none :=
      hjoin.expander? hn [a, b] .nil
    have hheading : SpecialForm.heading? [.sym name, a, b] = none := by
      rcases hn with rfl | rfl <;> rfl
    have hcall : ∀ ev, (evalStep ev fuel (ofList [.sym name, a, b]) scope).outcome w =
        (evalCall ev fuel [.sym name, a, b] scope).outcome w := by
      intro ev
      rw [ofList, evalStep_same hsame, evalExpanded_call _ (List.cons_ne_nil _ _) hheading]
    rw [KeepsFrom, hcall, hcall]
    refine evalCall_keeps hev fuel (fun form hform => ?_) w hw
    simp only [List.mem_cons, List.not_mem_nil, or_false] at hform
    rcases hform with rfl | rfl | rfl
    · exact .clean (.sym name)
    · exact ha
    · exact hb

variable {other other' : Evaluator}

/-- Where all is well the step is taken. -/
theorem evalStepsUnder_watching {allowed : World → Prop} (property : World → Prop) (steps : Nat)
    (ha : allowed w) (hp : property w) :
    (evalStepsUnder (.watching allowed property other) ev fuel (steps + 1) form scope).outcome w =
      (evalStep ev fuel form scope >>=
        Step.finish (evalStepsUnder (.watching allowed property other) ev fuel steps)).outcome w := by
  rw [evalStepsUnder, evalStepUnder_eq Supervisor.leavesNatives_watching, Supervisor.watching_step,
    outcome_byWorld_of _ _ _ ha, outcome_byWorld_of _ _ _ hp]
  rfl

theorem evalStepsUnder_watching_not {allowed property : World → Prop} (steps : Nat)
    (h : ¬ allowed w) :
    (evalStepsUnder (.watching allowed property other) ev fuel (steps + 1) form scope).outcome w =
      none := by
  rw [evalStepsUnder, Supervisor.watching_step, outcome_byWorld_not _ _ _ h]
  rfl

/-- As long as no expander goes by the names that templates call, every step of safe code begins in a
clean world: what would take over in another one makes no difference. -/
theorem evalStepsUnder_watching_keeps (hev : ev.Keeps ev') (hform : form.Safe) (steps : Nat) :
    (evalStepsUnder (.watching (·.heap.NoJoinExpander) (fun _ => True) other) ev fuel steps form
      scope).Keeps Clean
      (evalStepsUnder (.watching (·.heap.NoJoinExpander) (·.heap.Clean) other') ev' fuel steps form
        scope) := by
  induction steps generalizing form scope with
  | zero => exact .diverge
  | succ steps ih =>
    intro w hw
    by_cases hjoin : w.heap.NoJoinExpander
    · rw [KeepsFrom, evalStepsUnder_watching (fun _ => True) steps hjoin trivial,
        evalStepsUnder_watching (·.heap.Clean) steps hjoin hw]
      refine (evalStep_keeps hev hform hw hjoin).bind fun step hstep => ?_
      cases step with
      | done v => exact .settle hstep
      | tail form scope => exact ih hstep
    · rw [KeepsFrom, evalStepsUnder_watching_not steps hjoin, evalStepsUnder_watching_not steps hjoin]
      exact Keeps.diverge w hw

theorem evalWatched_keeps (fuel levels : Nat) :
    (evalWatched (·.heap.NoJoinExpander) (fun _ => True) other fuel levels).Keeps
      (evalWatched (·.heap.NoJoinExpander) (·.heap.Clean) other' fuel levels) := by
  induction levels with
  | zero => exact fun form scope _ => .raise .recursion
  | succ levels ih => exact fun form scope hform => evalStepsUnder_watching_keeps ih hform fuel

theorem Session.evalTextAllowed_keeps (other : Evaluator) (fuel : Nat) (source : String)
    (scope : ScopeId) :
    (evalTextAllowed (·.heap.NoJoinExpander) fuel source scope).Keeps
      (fun v? => ∀ v, v? = some v → v.Clean)
      (evalTextWatched (·.heap.NoJoinExpander) (·.heap.Clean) other fuel source scope) := by
  refine .bind (.ofExcept (Native.read_sound source)) fun form? hform => ?_
  cases form? with
  | none => exact .pure fun v hv => by cases hv
  | some form =>
    refine .bind (evalWatched_keeps fuel maxEvalDepth form scope (.clean (hform form rfl))) ?_
    intro v hv
    refine .pure fun v' hv' => ?_
    cases hv'
    exact hv

end Keeping
end MiniLisp
