import MiniLisp.Proofs.Trampoline

namespace MiniLisp

open Run

/-- Levels on top of other levels have the evaluator for those as their floor. -/
theorem evalOver_add (floor : Evaluator) (fuel levels more : Nat) :
    evalOver floor fuel (levels + more) = evalOver (evalOver floor fuel more) fuel levels := by
  induction levels with
  | zero => rw [Nat.zero_add, evalOver]
  | succ levels ih => simp only [Nat.succ_add, evalOver, ih]

/-- What ends over a floor that never does, ends in the same way over any floor further down. -/
theorem evalOver_diverge_below (floor : Evaluator) (fuel : Nat) {levels levels' : Nat}
    (h : levels ≤ levels') :
    (evalOver (fun _ _ => Run.diverge) fuel levels).Below (evalOver floor fuel levels') := by
  obtain ⟨more, rfl⟩ := Nat.exists_eq_add_of_le h
  rw [evalOver_add]
  exact evalOver_below (fun _ _ => .diverge _) (Nat.le_refl fuel) levels

/-- An evaluation that begins at depth `d` has `maxEvalDepth - d` levels left. If it ends and never
comes to the limit, it ends in the same way, with the same result in the same world, when it begins
at a smaller depth, and does not come to the limit there either. -/
theorem same_ending_at_smaller_depth (fuel d d' : Nat) (hd : d' ≤ d) (form : Value)
    (scope : ScopeId) (w : World) (ending : Except Fault Value × World)
    (hw : WithinLimit fuel (maxEvalDepth - d) form scope w)
    (h : (evalWithin fuel (maxEvalDepth - d) form scope).outcome w = some ending) :
    (evalWithin fuel (maxEvalDepth - d') form scope).outcome w = some ending ∧
      WithinLimit fuel (maxEvalDepth - d') form scope w := by
  have hover : ∀ floor,
      (evalOver floor fuel (maxEvalDepth - d') form scope).outcome w = some ending := fun floor =>
    evalOver_diverge_below floor fuel (by omega) form scope w ending ((withinLimit_iff h).1 hw)
  have hends : (evalWithin fuel (maxEvalDepth - d') form scope).outcome w = some ending := by
    rw [evalWithin_eq_evalOver]
    exact hover _
  exact ⟨hends, fun floor => (hover floor).trans hends.symm⟩

/-- The form needs two levels, and has them at depth 198, but not at depth 199. -/
theorem same_ending_at_smaller_depth_nestedTail :
    (evalWithin 3 (maxEvalDepth - 199) nestedTail ⟨0⟩).outcome (World.start Files.empty "" 0) =
      some (.error Cause.recursion.fault, World.start Files.empty "" 0) ∧
    (evalWithin 3 (maxEvalDepth - 0) nestedTail ⟨0⟩).outcome (World.start Files.empty "" 0) =
      some (.ok (.int 2), World.start Files.empty "" 0) ∧
    WithinLimit 3 (maxEvalDepth - 0) nestedTail ⟨0⟩ (World.start Files.empty "" 0) := by
  have hover : ∀ floor, (evalOver floor 3 (maxEvalDepth - 198) nestedTail ⟨0⟩).outcome
      (World.start Files.empty "" 0) = some (.ok (.int 2), World.start Files.empty "" 0) :=
    fun floor => evalOver_nestedTail floor rfl
  have hends : (evalWithin 3 (maxEvalDepth - 198) nestedTail ⟨0⟩).outcome
      (World.start Files.empty "" 0) = some (.ok (.int 2), World.start Files.empty "" 0) := by
    rw [evalWithin_eq_evalOver]
    exact hover _
  have hunbound : (World.start Files.empty "" 0).heap.expander? nestedTail ⟨0⟩ = none :=
    Heap.expander?_of_lookup _ _ fun id note hl => by
      rw [World.start, Heap.empty, Scopes.lookup_empty] at hl
      cases hl
  refine ⟨evalSteps_error ((evalStep_same hunbound).trans (outcome_bind_error _ rfl)), ?_⟩
  exact same_ending_at_smaller_depth 3 198 0 (by decide) nestedTail ⟨0⟩ _ _
    (fun floor => (hover floor).trans hends.symm) hends

end MiniLisp
