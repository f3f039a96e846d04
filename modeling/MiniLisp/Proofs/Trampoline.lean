import MiniLisp.Proofs.Recursive
import MiniLisp.Proofs.Stepping

namespace MiniLisp

open Run

/-- Evaluates as `evalWithin` does, except that `floor` takes over where no level is left. -/
def evalOver (floor : Evaluator) (fuel : Nat) : Nat → Evaluator
  | 0 => floor
  | levels + 1 => fun form scope => evalSteps (evalOver floor fuel levels) fuel fuel form scope

/-- The evaluation never finds that no level is left: what would happen then makes no difference. -/
def WithinLimit (fuel levels : Nat) (form : Value) (scope : ScopeId) (w : World) : Prop :=
  ∀ floor, (evalOver floor fuel levels form scope).outcome w =
    (evalWithin fuel levels form scope).outcome w

theorem evalWithin_eq_evalOver (fuel levels : Nat) :
    evalWithin fuel levels = evalOver (fun _ _ => Cause.recursion.raise) fuel levels := by
  induction levels with
  | zero => rfl
  | succ levels ih =>
    funext form scope
    simp only [evalWithin, evalOver, ih]

theorem evalOver_below {floor floor' : Evaluator} (h : floor.Below floor') {fuel fuel' : Nat}
    (hf : fuel ≤ fuel') (levels : Nat) :
    (evalOver floor fuel levels).Below (evalOver floor' fuel' levels) := by
  induction levels with
  | zero => exact h
  | succ levels ih => exact evalSteps_below ih hf hf

/-- More fuel never changes how an evaluation ends. -/
theorem evalWithin_below {fuel fuel' : Nat} (hf : fuel ≤ fuel') (levels : Nat) :
    (evalWithin fuel levels).Below (evalWithin fuel' levels) := by
  rw [evalWithin_eq_evalOver, evalWithin_eq_evalOver]
  exact evalOver_below (fun _ _ => .refl _) hf levels

/-- An evaluation that ends is within the limit if it also ends over a floor that never does. -/
theorem withinLimit_iff {fuel levels : Nat} {form : Value} {scope : ScopeId} {w : World}
    {ending : Except Fault Value × World}
    (h : (evalWithin fuel levels form scope).outcome w = some ending) :
    WithinLimit fuel levels form scope w ↔
      (evalOver (fun _ _ => Run.diverge) fuel levels form scope).outcome w = some ending := by
  constructor
  · intro hw
    rw [hw, h]
  · intro hd floor
    rw [h]
    exact evalOver_below (fun _ _ => .diverge _) (Nat.le_refl fuel) levels form scope w ending hd

/-- Steps end as the recursive evaluator does that has fuel for each of them. -/
theorem evalSteps_below_recursive {ev : Evaluator} {fuel least : Nat}
    (h : ∀ n, least ≤ n → ev.Below (Recursive.eval n)) (hf : fuel ≤ least) {steps n : Nat}
    (hn : least + steps ≤ n) (form : Value) (scope : ScopeId) :
    (evalSteps ev fuel steps form scope).Below (Recursive.eval n form scope) := by
  induction steps generalizing n form scope with
  | zero => exact .diverge _
  | succ steps ih =>
    obtain ⟨n, rfl⟩ : ∃ m, n = m + 1 := ⟨n - 1, by omega⟩
    rw [evalSteps, Recursive.eval_succ]
    refine .bind (evalStep_below (h n (by omega)) (by omega) form scope) fun step => ?_
    cases step with
    | done v => exact .refl _
    | tail form scope => exact ih (by omega) form scope

theorem evalOver_below_recursive (fuel levels : Nat) :
    ∃ least, ∀ n, least ≤ n →
      (evalOver (fun _ _ => Run.diverge) fuel levels).Below (Recursive.eval n) := by
  induction levels with
  | zero => exact ⟨0, fun n _ form scope => .diverge _⟩
  | succ levels ih =>
    obtain ⟨least, h⟩ := ih
    refine ⟨least + fuel + fuel, fun n hn form scope => ?_⟩
    have hmore : ∀ n, least + fuel ≤ n →
        (evalOver (fun _ _ => Run.diverge) fuel levels).Below (Recursive.eval n) :=
      fun n hn => h n (by omega)
    exact evalSteps_below_recursive hmore (by omega) (by omega) form scope

/-- A recursive evaluation ends as the steps do that have at least its fuel. -/
theorem recursive_below_evalSteps {ev : Evaluator} {fuel n : Nat}
    (h : ∀ k, k ≤ n → (Recursive.eval k).Below ev) (hf : n ≤ fuel) {k steps : Nat} (hk : k ≤ n)
    (hs : k ≤ steps) (form : Value) (scope : ScopeId) :
    (Recursive.eval k form scope).Below (evalSteps ev fuel steps form scope) := by
  induction k generalizing steps form scope with
  | zero => exact .diverge _
  | succ k ih =>
    obtain ⟨steps, rfl⟩ : ∃ m, steps = m + 1 := ⟨steps - 1, by omega⟩
    rw [evalSteps, Recursive.eval_succ]
    refine .bind (evalStep_below (h k (by omega)) (by omega) form scope) fun step => ?_
    cases step with
    | done v => exact .refl _
    | tail form scope => exact ih (by omega) (by omega) form scope

/-- With the recursive evaluator itself as the floor, evaluation in steps misses nothing. -/
theorem recursive_below_evalOver {fuel n : Nat} (hf : n ≤ fuel) (levels : Nat) {k : Nat}
    (hk : k ≤ n) :
    (Recursive.eval k).Below (evalOver (Recursive.eval n) fuel levels) := by
  induction levels generalizing k with
  | zero => exact Recursive.eval_below hk
  | succ levels ih =>
    intro form scope
    exact recursive_below_evalSteps (fun k hk => ih hk) hf hk (by omega) form scope

/-- Evaluation in steps and plain recursive evaluation agree, whichever of them ends: on the result
and on the whole world that is left. -/
theorem evalWithin_agrees_recursive (levels : Nat) (form : Value) (scope : ScopeId) (w : World)
    (ending : Except Fault Value × World) :
    (∀ fuel, WithinLimit fuel levels form scope w →
      (evalWithin fuel levels form scope).outcome w = some ending →
      ∃ least, ∀ n, least ≤ n → (Recursive.eval n form scope).outcome w = some ending) ∧
    (∀ n, (Recursive.eval n form scope).outcome w = some ending →
      ∀ fuel, n ≤ fuel → WithinLimit fuel levels form scope w →
      (evalWithin fuel levels form scope).outcome w = some ending) := by
  constructor
  · intro fuel hw h
    obtain ⟨least, hbelow⟩ := evalOver_below_recursive fuel levels
    have hd := (withinLimit_iff h).1 hw
    exact ⟨least, fun n hn => hbelow n hn form scope w ending hd⟩
  · intro n hn fuel hf hw
    rw [← hw (Recursive.eval n)]
    exact recursive_below_evalOver hf levels (Nat.le_refl n) form scope w ending hn

/-- A choice at the end of a sequence. -/
def nestedTail : Value :=
  .ofList [.sym "do", .int 1, .ofList [.sym "if", .bool true, .int 2]]

theorem evalOver_nestedTail (floor : Evaluator) {w : World} (hw : w.heap = Heap.empty) :
    (evalOver floor 3 2 nestedTail ⟨0⟩).outcome w = some (.ok (.int 2), w) := by
  have hunbound : ∀ name args note,
      w.heap.expander? (.list (.sym name :: args) note) ⟨0⟩ = none := by
    intro name args note
    refine Heap.expander?_of_lookup args note fun id note => ?_
    simp [hw, Heap.empty, Scopes.lookup_empty]
  have hdo : (evalStep (evalOver floor 3 1) 3 nestedTail ⟨0⟩).outcome w =
      some (.ok (.tail (.ofList [.sym "if", .bool true, .int 2]) ⟨0⟩), w) :=
    evalStep_same (hunbound _ _ _)
  have hif : (evalStep (evalOver floor 3 1) 3 (.ofList [.sym "if", .bool true, .int 2])
      ⟨0⟩).outcome w = some (.ok (.tail (.int 2) ⟨0⟩), w) :=
    evalStep_same (hunbound _ _ _)
  exact (evalSteps_tail hdo).trans (evalSteps_tail hif)

theorem evalWithin_agrees_recursive_nestedTail :
    ∃ n, (evalWithin n 2 nestedTail ⟨0⟩).outcome (World.start Files.empty "" 0) =
        some (.ok (.int 2), World.start Files.empty "" 0) ∧
      (Recursive.eval n nestedTail ⟨0⟩).outcome (World.start Files.empty "" 0) =
        some (.ok (.int 2), World.start Files.empty "" 0) := by
  have hover : ∀ n, 3 ≤ n → ∀ floor,
      (evalOver floor n 2 nestedTail ⟨0⟩).outcome (World.start Files.empty "" 0) =
        some (.ok (.int 2), World.start Files.empty "" 0) :=
    fun n hn floor => evalOver_below (fun _ _ => .refl _) hn 2 nestedTail ⟨0⟩ _ _
      (evalOver_nestedTail floor rfl)
  have hwithin : ∀ n, 3 ≤ n → WithinLimit n 2 nestedTail ⟨0⟩ (World.start Files.empty "" 0) := by
    intro n hn floor
    rw [hover n hn, evalWithin_eq_evalOver, hover n hn]
  have hends : (evalWithin 3 2 nestedTail ⟨0⟩).outcome (World.start Files.empty "" 0) =
      some (.ok (.int 2), World.start Files.empty "" 0) := by
    rw [evalWithin_eq_evalOver]
    exact evalOver_nestedTail _ rfl
  obtain ⟨least, hrec⟩ :=
    (evalWithin_agrees_recursive 2 nestedTail ⟨0⟩ _ _).1 3 (hwithin 3 (Nat.le_refl 3)) hends
  have hn := hrec (max least 3) (Nat.le_max_left least 3)
  exact ⟨max least 3, (evalWithin_agrees_recursive 2 nestedTail ⟨0⟩ _ _).2 _ hn _ (Nat.le_refl _)
    (hwithin _ (Nat.le_max_right least 3)), hn⟩

end MiniLisp
