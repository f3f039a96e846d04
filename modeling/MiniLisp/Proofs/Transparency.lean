import MiniLisp.Proofs.CallingWays
import MiniLisp.Proofs.DepthLimit
import MiniLisp.Proofs.FileLoading
import MiniLisp.Proofs.Growth

namespace MiniLisp

open Value Run

section Steps

variable {ev : Evaluator} {fuel : Nat} {form m : Value} {scope : ScopeId} {w w' : World}

/-- Expansion ends where there is nothing left to expand. -/
theorem expand_fixed (h : (expand ev fuel form scope).outcome w = some (.ok m, w')) :
    w'.heap.expander? m scope = none := by
  induction fuel generalizing form w with
  | zero =>
    cases hx : w.heap.expander? form scope with
    | none =>
      rw [expand_same hx] at h
      cases h
      exact hx
    | some found =>
      rw [expand, outcome_bind_ok _ (outcome_query _ w), hx] at h
      cases h
  | succ fuel ih =>
    cases hx : w.heap.expander? form scope with
    | none =>
      rw [expand_same hx] at h
      cases h
      exact hx
    | some found =>
      rw [expand_once hx] at h
      obtain ⟨next, w₁, -, hnext⟩ | ⟨fault, -, hfault⟩ := outcome_bind_some h
      · exact ih hnext
      · cases hfault

/-- What has been expanded takes the step that the form takes. -/
theorem evalStep_expand (ev : Evaluator) (fuel : Nat) (form : Value) (scope : ScopeId) :
    evalStep ev fuel form scope =
      (expand ev fuel form scope >>= fun m => evalStep ev fuel m scope) := by
  refine Run.ext fun w => ?_
  rw [evalStep_eq]
  refine outcome_bind_congr fun m w' hm => ?_
  rw [evalStep_same (expand_fixed hm)]

/-- Evaluating a form is expanding it, with the levels that are left inside, and evaluating the
result. -/
theorem evalWithin_expand (fuel levels : Nat) (form : Value) (scope : ScopeId) :
    evalWithin fuel (levels + 1) form scope =
      (expand (evalWithin fuel levels) fuel form scope >>= fun m =>
        evalWithin fuel (levels + 1) m scope) := by
  refine Run.ext fun w => ?_
  cases fuel with
  | zero =>
    cases hx : w.heap.expander? form scope with
    | none => rw [outcome_bind_ok _ (expand_same hx)]
    | some found => rw [expand, bind_assoc, outcome_bind_ok _ (outcome_query _ w), hx]; rfl
  | succ fuel =>
    simp only [evalWithin, evalSteps]
    rw [evalStep_expand, bind_assoc]

theorem Recursive.eval_symbol {n : Nat} {name : String} {v : Value}
    (h : w.heap.scopes.lookup scope name = some v) :
    (eval (n + 1) (.sym name) scope).outcome w = (Run.settle v).outcome w := by
  rw [eval_succ, outcome_bind_ok _ (evalStep_symbol h), Step.finish]

theorem Recursive.eval_expand (n : Nat) (form : Value) (scope : ScopeId) :
    eval (n + 1) form scope =
      (expand (eval n) n form scope >>= fun m => eval (n + 1) m scope) := by
  simp only [eval_succ]
  rw [evalStep_expand, bind_assoc]

end Steps

/-- Expanding the form in the scope. -/
def expanding (form : Value) (scope : ScopeId) : Calling :=
  fun ev fuel => expand ev fuel form scope

/-- What does not come to the limit on levels does not care how many more there are. -/
theorem Calling.WithinLimit.more {run : Calling} {fuel levels : Nat} {w : World}
    (h : run.WithinLimit fuel levels w) (more : Nat) :
    (run (evalWithin fuel (levels + more)) fuel).outcome w =
      (run (evalWithin fuel levels) fuel).outcome w := by
  rw [evalWithin_eq_evalOver fuel (levels + more), evalOver_add]
  exact h _

/-- Expands the form and evaluates the result in the outermost scope. -/
def evalOfExpansion (form : Value) : Value :=
  ofList [.sym "eval", ofList [.sym "macroexpand", form]]

/-- An outermost scope in which `eval` is the native and `macroexpand` the special form. -/
structure Heap.NamesExpansion (heap : Heap) (scope : ScopeId) : Prop where
  outermost : ∃ s, heap.scopes.get? scope = some s ∧ s.outer = none
  native : ∃ note, heap.scopes.lookup scope "eval" = some (.native .eval note)
  expansion : ∀ id note, heap.scopes.lookup scope "macroexpand" ≠ some (.fn id true note)

theorem Heap.NamesExpansion.root {heap heap' : Heap} {scope : ScopeId}
    (h : heap.NamesExpansion scope) (hg : heap.Grows heap') : heap'.scopes.root scope = scope := by
  obtain ⟨s, hs, ho⟩ := h.outermost
  rw [hg.root (Heap.knows_iff.mpr ⟨s, hs⟩), Scopes.root_of_get? hs, ho]
  rfl

section Composed

variable {form : Value} {scope : ScopeId} {w : World}

/-- An error value fails whether it is handed on or evaluated. -/
theorem settle_eval (n : Nat) (v : Value) (w : World) :
    (Run.settle v >>= fun m => Recursive.eval (n + 1) m scope).outcome w =
      (Recursive.eval (n + 1) v scope).outcome w := by
  cases v with
  | error kind payload => rfl
  | _ => rfl

theorem eval_macroexpand (h : w.heap.NamesExpansion scope) (n : Nat) :
    (Recursive.eval (n + 1) (ofList [.sym "macroexpand", form]) scope).outcome w =
      (expand (Recursive.eval n) n form scope >>= Run.settle).outcome w := by
  have hsame : w.heap.expander? (ofList [.sym "macroexpand", form]) scope = none :=
    Heap.expander?_of_lookup _ _ h.expansion
  have hrun : evalExpanded (Recursive.eval n) n (ofList [.sym "macroexpand", form]) scope =
      (expand (Recursive.eval n) n form scope >>= fun m => pure (.done m)) := rfl
  rw [Recursive.eval_succ, outcome_bind, evalStep_same hsame, ← outcome_bind, hrun, bind_assoc]
  rfl

/-- In plain recursive evaluation, expanding and then evaluating comes to evaluating, one call further
down. -/
theorem eval_evalOfExpansion (h : w.heap.NamesExpansion scope) (n : Nat) :
    (Recursive.eval (n + 2) (evalOfExpansion form) scope).outcome w =
      (Recursive.eval (n + 1) form scope).outcome w := by
  obtain ⟨note, hname⟩ := h.native
  let ev := Recursive.eval (n + 1)
  have hsettled : ev.Settled := Recursive.settled_eval (n + 1)
  have hsame : w.heap.expander? (evalOfExpansion form) scope = none :=
    Heap.expander?_of_lookup _ _ fun id note' hfn => by
      rw [hname] at hfn
      cases hfn
  have hhead : (ev (.sym "eval") scope).outcome w = some (.ok (.native .eval note), w) :=
    Recursive.eval_symbol hname
  -- the call of `eval` with what the form has been expanded to
  have hcall : (Recursive.eval (n + 2) (evalOfExpansion form) scope).outcome w =
      (ev (ofList [.sym "macroexpand", form]) scope >>= fun m =>
        Native.call ev (n + 1) .eval [m] scope >>= Run.settle).outcome w := by
    rw [Recursive.eval_succ, outcome_bind, evalStep_same hsame, ← outcome_bind, evalOfExpansion,
      ofList, evalExpanded_call _ (List.cons_ne_nil _ _) rfl,
      ← Recursive.application_finish hsettled, Recursive.application, bind_assoc]
    simp only [List.mapM_cons, List.mapM_nil, bind_assoc, pure_bind]
    rw [outcome_bind_ok _ hhead]
    rfl
  rw [hcall, outcome_bind, eval_macroexpand h, ← outcome_bind, bind_assoc, Recursive.eval_expand]
  refine outcome_bind_congr fun m w' hm => ?_
  have hroot : w'.heap.scopes.root scope = scope :=
    h.root (expand_grows (Recursive.eval_grows n) n form scope w _ w' hm)
  rw [← settle_eval]
  refine outcome_bind_congr fun v w'' hv => ?_
  have hsame' : w'' = w' := by
    cases m <;> cases hv
    all_goals rfl
  have heval : (Native.call ev (n + 1) .eval [v] scope).outcome w'' =
      (ev v scope).outcome w'' := by
    rw [hsame', evalNative_outcome, hroot]
  rw [outcome_bind, heval, ← outcome_bind, hsettled v]

end Composed

/-- Expansion is transparent.

It ends with a form that is no call of an expander in the world that it leaves. A form evaluates as
what expansion makes of it, in that world, where expansion has the levels that are left inside the
evaluation. How many more it has makes no difference as long as it does not come to the limit. And where
the names mean what they say, `eval` of what `macroexpand` gives ends as the form does, and the form as
that does, as long as neither comes to the limit. -/
theorem expansion_transparent (form : Value) (scope : ScopeId) (w : World) :
    (∀ fuel levels m w', (expand (evalWithin fuel levels) fuel form scope).outcome w =
      some (.ok m, w') → w'.heap.expander? m scope = none) ∧
    (∀ fuel levels, (evalWithin fuel (levels + 1) form scope).outcome w =
      (expand (evalWithin fuel levels) fuel form scope >>= fun m =>
        evalWithin fuel (levels + 1) m scope).outcome w) ∧
    (∀ fuel levels more, (expanding form scope).WithinLimit fuel levels w →
      (expand (evalWithin fuel (levels + more)) fuel form scope).outcome w =
        (expand (evalWithin fuel levels) fuel form scope).outcome w) ∧
    (w.heap.NamesExpansion scope → ∀ first second, (first = form ∧ second = evalOfExpansion form ∨
        first = evalOfExpansion form ∧ second = form) →
      ∀ fuel levels ending, WithinLimit fuel levels first scope w →
        (evalWithin fuel levels first scope).outcome w = some ending →
        ∃ least, ∀ fuel', least ≤ fuel' → ∀ levels', WithinLimit fuel' levels' second scope w →
          (evalWithin fuel' levels' second scope).outcome w = some ending) := by
  refine ⟨fun _ _ _ _ h => expand_fixed h, fun fuel levels => ?_, fun _ _ more h => h.more more, ?_⟩
  · rw [evalWithin_expand]
  · intro hnames first second hforms fuel levels ending hwithin hends
    have hmonotone : ∀ form, Calling.Monotone fun ev _ => ev form scope :=
      fun form _ _ _ _ hev _ => hev form scope
    obtain ⟨least, hfirst⟩ := Calling.recursive_of_within (hmonotone first) hwithin hends
    -- either form has its ending with a little more fuel than the other one
    have hsecond : (Recursive.eval (least + 2) second scope).outcome w = some ending := by
      obtain ⟨rfl, rfl⟩ | ⟨rfl, rfl⟩ := hforms
      · rw [eval_evalOfExpansion hnames]
        exact hfirst (least + 1) (by omega)
      · refine Recursive.eval_below (Nat.le_succ (least + 1)) _ _ _ _ ?_
        rw [← eval_evalOfExpansion hnames]
        exact hfirst (least + 2) (by omega)
    exact ⟨least + 2, fun fuel' hfuel levels' hwithin' =>
      Calling.within_of_recursive (hmonotone second) hsecond hfuel hwithin'⟩

/-- A global scope with `eval` and an expander `one` that always gives 1. -/
def withOne : World :=
  let (heap, global) := Heap.empty.enter none
    [("eval", .native .eval .nil), ("one", .fn ⟨0⟩ true .nil)]
  { World.start Files.empty "" 0 with heap := (heap.newClosure ⟨[], .int 1, global⟩).1 }

/-- The world after that expander has been called. -/
def withOneCalled : World :=
  { withOne with heap := (withOne.heap.enter (some ⟨0⟩) []).1 }

/-- The call of that expander. -/
def callOne : Value :=
  ofList [.sym "one"]

theorem withOne_names : withOne.heap.NamesExpansion ⟨0⟩ where
  outermost := ⟨_, rfl, rfl⟩
  native := ⟨.nil, by with_unfolding_all rfl⟩
  expansion := by
    intro id note h
    have hnone : withOne.heap.scopes.lookup ⟨0⟩ "macroexpand" = none := by with_unfolding_all rfl
    rw [hnone] at h
    cases h

theorem expand_callOne {ev : Evaluator} (fuel : Nat)
    (hone : ∀ scope w, (ev (.int 1) scope).outcome w = some (.ok (.int 1), w)) :
    (expand ev (fuel + 1) callOne ⟨0⟩).outcome withOne = some (.ok (.int 1), withOneCalled) := by
  have hfound : withOne.heap.expander? callOne ⟨0⟩ = some (⟨[], .int 1, ⟨0⟩⟩, []) := by
    with_unfolding_all rfl
  rw [expand_once hfound, outcome_bind_ok _ ((Closure.call_eval _ _).trans (hone _ _))]
  exact expand_same rfl

section Ends

variable {E : Nat → Evaluator} {fuel levels : Nat}

theorem callOne_ends (hE : Layered (fuel + 1) E) :
    (E (levels + 2) callOne ⟨0⟩).outcome withOne = some (.ok (.int 1), withOneCalled) := by
  rw [hE]
  refine (evalSteps_done (v := .int 1) ?_).trans rfl
  exact (evalStep_expanded (expand_callOne fuel fun scope _ => hE.int 1 scope)).trans rfl

theorem evalOfExpansion_ends (hE : Layered (fuel + 1) E) :
    (E (levels + 3) (evalOfExpansion callOne) ⟨0⟩).outcome withOne =
      some (.ok (.int 1), withOneCalled) := by
  obtain ⟨note, hname⟩ := withOne_names.native
  have hexpand : (E (levels + 2) (ofList [.sym "macroexpand", callOne]) ⟨0⟩).outcome withOne =
      some (.ok (.int 1), withOneCalled) := by
    have hsame : withOne.heap.expander? (ofList [.sym "macroexpand", callOne]) ⟨0⟩ = none :=
      Heap.expander?_of_lookup _ _ withOne_names.expansion
    rw [hE]
    refine (evalSteps_done (v := .int 1) ((evalStep_same hsame).trans ?_)).trans rfl
    exact outcome_bind_ok _ (expand_callOne fuel fun scope _ => hE.int 1 scope)
  have hparts : InOrder (E (levels + 2) · ⟨0⟩) [.sym "eval", ofList [.sym "macroexpand", callOne]]
      withOne [.native .eval note, .int 1] withOneCalled :=
    .cons (hE.symbol hname rfl) (.cons hexpand .nil)
  have hcall : (Native.call (E (levels + 2)) (fuel + 1) .eval [.int 1] ⟨0⟩).outcome withOneCalled =
      some (.ok (.int 1), withOneCalled) := hE.int 1 _
  rw [hE]
  exact (evalSteps_native rfl hname hparts).trans (outcome_bind_ok _ hcall)

end Ends

theorem expansion_transparent_one :
    withOneCalled.heap.expander? (.int 1) ⟨0⟩ = none ∧
    ∃ fuel, (evalWithin fuel 3 (evalOfExpansion callOne) ⟨0⟩).outcome withOne =
      some (.ok (.int 1), withOneCalled) := by
  obtain ⟨hfixed, -, -, hcomposed⟩ := expansion_transparent callOne ⟨0⟩ withOne
  have hexpand : (expand (evalWithin 1 1) 1 callOne ⟨0⟩).outcome withOne =
      some (.ok (.int 1), withOneCalled) :=
    expand_callOne 0 fun scope _ => (layered_evalWithin 1).int 1 scope
  have hends : (evalWithin 1 2 callOne ⟨0⟩).outcome withOne = _ :=
    callOne_ends (layered_evalWithin 1)
  have hwithin : WithinLimit 1 2 callOne ⟨0⟩ withOne :=
    fun floor => (callOne_ends (layered_evalOver floor 1)).trans hends.symm
  obtain ⟨least, hsecond⟩ := hcomposed withOne_names _ _ (.inl ⟨rfl, rfl⟩) 1 2 _ hwithin hends
  refine ⟨hfixed 1 1 _ _ hexpand, least + 1, hsecond _ (Nat.le_succ least) 3 fun floor => ?_⟩
  rw [evalOfExpansion_ends (layered_evalOver floor _), evalOfExpansion_ends (layered_evalWithin _)]

/-- With one level left, at depth 199, the form can be expanded, and what it expands to can be evaluated
from there; but the evaluation of the form itself has no level left to expand it with. -/
theorem expansion_not_transparent_at_limit :
    (expand (evalWithin 1 (maxEvalDepth - 199)) 1 callOne ⟨0⟩).outcome withOne =
      some (.ok (.int 1), withOneCalled) ∧
    (evalWithin 1 (maxEvalDepth - 199) (.int 1) ⟨0⟩).outcome withOneCalled =
      some (.ok (.int 1), withOneCalled) ∧
    (evalWithin 1 (maxEvalDepth - 199) callOne ⟨0⟩).outcome withOne =
      some (.error Cause.recursion.fault, withOneCalled) := by
  have hone : ∀ scope w, (evalWithin 1 1 (.int 1) scope).outcome w = some (.ok (.int 1), w) :=
    fun scope _ => (layered_evalWithin 1).int 1 scope
  have hfound : withOne.heap.expander? callOne ⟨0⟩ = some (⟨[], .int 1, ⟨0⟩⟩, []) := by
    with_unfolding_all rfl
  refine ⟨expand_callOne 0 hone, hone _ _, evalSteps_error ?_⟩
  rw [evalStep_eq]
  refine outcome_bind_error _ ((expand_once hfound).trans (outcome_bind_error _ ?_))
  exact (Closure.call_eval _ _).trans rfl

end MiniLisp
