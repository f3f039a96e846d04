import MiniLisp.Proofs.FailFast
import MiniLisp.Proofs.Growth

namespace MiniLisp

open Run

variable {α β : Type}

/-- These are one scope, or they lie in the same outermost scope. -/
def Heap.SameRoot (heap : Heap) (scope scope' : ScopeId) : Prop :=
  scope = scope' ∨
    heap.Knows scope ∧ heap.Knows scope' ∧ heap.scopes.root scope = heap.scopes.root scope'

namespace Heap.SameRoot

variable {heap heap' : Heap} {scope scope' : ScopeId}

theorem root (h : heap.SameRoot scope scope') :
    heap.scopes.root scope = heap.scopes.root scope' := by
  obtain rfl | ⟨-, -, hroot⟩ := h
  · rfl
  · exact hroot

theorem grows (h : heap.SameRoot scope scope') (hg : heap.Grows heap') :
    heap'.SameRoot scope scope' := by
  obtain rfl | ⟨hk, hk', hroot⟩ := h
  · exact .inl rfl
  · refine .inr ⟨hg.scopes.knows hk, hg.scopes.knows hk', ?_⟩
    rw [hg.root hk, hg.root hk', hroot]

theorem root_of_unknown (h : ¬ heap.Knows scope) : heap.scopes.root scope = scope := by
  have hnone : heap.scopes.get? scope = none := by
    rw [knows_iff, not_exists] at h
    exact Option.eq_none_iff_forall_ne_some.mpr h
  rw [Scopes.root]
  split
  · rfl
  · next s hs =>
    rw [hnone] at hs
    cases hs

/-- A scope that is not there yet is its own outermost scope and of no other one. -/
theorem of_root (h : heap.scopes.root scope = heap.scopes.root scope') :
    heap.SameRoot scope scope' := by
  by_cases hk : heap.Knows scope
  · by_cases hk' : heap.Knows scope'
    · exact .inr ⟨hk, hk', h⟩
    · rw [root_of_unknown hk'] at h
      exact absurd (h ▸ knows_root hk) hk'
  · rw [root_of_unknown hk] at h
    by_cases hk' : heap.Knows scope'
    · exact absurd (h ▸ knows_root hk') hk
    · rw [root_of_unknown hk'] at h
      exact .inl h

end Heap.SameRoot

/-- The runs end in the same way wherever the scopes lie in the same outermost scope. -/
def Run.Alike (scope scope' : ScopeId) (a b : Run α) : Prop :=
  ∀ w : World, w.heap.SameRoot scope scope' → a.outcome w = b.outcome w

namespace Run.Alike

variable {scope scope' : ScopeId}

theorem refl (a : Run α) : Alike scope scope' a a :=
  fun _ _ => rfl

/-- Two sequences are alike if the second parts are: the first part does not take the scopes apart. -/
theorem bind {a b : Run α} {f g : α → Run β} (ha : a.Grows) (hab : Alike scope scope' a b)
    (hfg : ∀ x, Alike scope scope' (f x) (g x)) : Alike scope scope' (a >>= f) (b >>= g) := by
  intro w hw
  rw [outcome_bind, outcome_bind, ← hab w hw]
  cases hrun : a.outcome w with
  | none => rfl
  | some ending =>
    obtain ⟨result, w'⟩ := ending
    cases result with
    | ok x => exact hfg x w' (hw.grows (ha w _ w' hrun))
    | error fault => rfl

theorem mapM {f g : α → Run β} (hf : ∀ x, (f x).Grows) (hfg : ∀ x, Alike scope scope' (f x) (g x))
    (xs : List α) : Alike scope scope' (xs.mapM f) (xs.mapM g) := by
  induction xs with
  | nil => exact refl _
  | cons x xs ih =>
    simp only [List.mapM_cons]
    exact bind (hf x) (hfg x) fun _ => bind (.mapM hf xs) ih fun _ => refl _

end Run.Alike

section Calls

variable {ev : Evaluator} {scope scope' : ScopeId} {call call' : Value → List Value → Run Value}

/-- The scope of a call is of use to `eval` only, and to `eval` the outermost one around it. -/
theorem Native.runEval_alike (args : List Value) :
    Alike scope scope' (runEval ev scope args) (runEval ev scope' args) := by
  intro w hw
  unfold runEval
  split
  · rw [outcome_bind_ok _ (outcome_query _ w), outcome_bind_ok _ (outcome_query _ w), hw.root]
  · rfl

theorem Native.perform_alike (hcall : ∀ f args, (call f args).Grows)
    (h : ∀ f args, Alike scope scope' (call f args) (call' f args)) (op : Native)
    (args : List Value) :
    Alike scope scope' (op.perform ev call args scope) (op.perform ev call' args scope') := by
  unfold perform
  split
  · exact .refl _
  · exact .refl _
  · unfold runApply
    split
    · refine .bind (.ofExcept _) (.refl _) fun _ => ?_
      exact .bind (.ofExcept _) (.refl _) fun items => h _ _
    · exact .refl _
  · unfold runMap
    split
    · refine .bind (.ofExcept _) (.refl _) fun _ => .bind (.ofExcept _) (.refl _) fun items => ?_
      refine .bind (.mapM (fun item => hcall _ _) items) ?_ fun _ => .refl _
      exact .mapM (fun item => hcall _ _) (fun item => h _ _) items
    · exact .refl _
  · unfold runSwap
    split
    · refine .bind (.ofExcept _) (.refl _) fun id => .bind (.ofExcept _) (.refl _) fun _ => ?_
      refine .bind (.query _) (.refl _) fun held => ?_
      exact .bind (hcall _ _) (h _ _) fun _ => .refl _
    · exact .refl _
  · exact runEval_alike args

theorem Value.callWith_alike {native : Native → List Value → ScopeId → Run Value}
    (hn : ∀ op args, Run.Alike scope scope' (native op args scope) (native op args scope')) (f : Value)
    (args : List Value) :
    Run.Alike scope scope' (f.callWith ev native args scope) (f.callWith ev native args scope') := by
  cases f with
  | native op note => exact hn op args
  | _ => exact .refl _

/-- Natives that call one another pass the scope on, and no more. -/
theorem Native.call_alike (hev : ev.Grows) (fuel : Nat) (op : Native) (args : List Value) :
    Alike scope scope' (Native.call ev fuel op args scope) (Native.call ev fuel op args scope') := by
  induction fuel generalizing op args with
  | zero => exact .refl _
  | succ fuel ih =>
    refine .bind (.ofExcept _) (.refl _) fun _ => perform_alike (fun f args => ?_) (fun f args => ?_)
      op args
    · exact Value.call_grows hev f fuel args
    · refine .bind (Value.callWith_grows hev (Native.call_grows hev fuel) f args) ?_ fun _ => .refl _
      exact Value.callWith_alike ih f args

end Calls

/-- What is called does not depend on what its caller has bound: from scopes with the same outermost
scope around them, a call ends alike and leaves the same world. -/
theorem call_independent_of_caller (f : Value) (args : List Value) (fuel levels : Nat) (w : World)
    {caller caller' : ScopeId} (h : w.heap.scopes.root caller = w.heap.scopes.root caller') :
    (f.call (evalWithin fuel levels) fuel args caller).outcome w =
      (f.call (evalWithin fuel levels) fuel args caller').outcome w := by
  have hev := evalWithin_grows fuel levels
  refine Alike.bind (Value.callWith_grows hev (Native.call_grows hev fuel) f args) ?_
    (fun v => .refl _) w (.of_root h)
  exact Value.callWith_alike (Native.call_alike hev fuel) f args

/-- A scope that binds `x` to 0, and two in it that bind it to 1 and to 2. -/
def callers : World :=
  let (heap, global) := Heap.empty.enter none [("x", .int 0)]
  let heap := (heap.enter (some global) [("x", .int 1)]).1
  { World.start Files.empty "" 0 with heap := (heap.enter (some global) [("x", .int 2)]).1 }

/-- Neither of the inner bindings is what `eval` finds when `apply` calls it. -/
theorem call_independent_of_caller_apply :
    callers.heap.scopes.lookup ⟨1⟩ "x" = some (.int 1) ∧
    callers.heap.scopes.lookup ⟨2⟩ "x" = some (.int 2) ∧
    ((Value.native .apply .nil).call (evalWithin 2 1) 2 [.native .eval .nil, .ofVec [.sym "x"]]
        ⟨1⟩).outcome callers = some (.ok (.int 0), callers) ∧
    ((Value.native .apply .nil).call (evalWithin 2 1) 2 [.native .eval .nil, .ofVec [.sym "x"]]
        ⟨1⟩).outcome callers =
      ((Value.native .apply .nil).call (evalWithin 2 1) 2 [.native .eval .nil, .ofVec [.sym "x"]]
        ⟨2⟩).outcome callers := by
  have hroot : callers.heap.scopes.root ⟨1⟩ = callers.heap.scopes.root ⟨2⟩ := by
    with_unfolding_all rfl
  refine ⟨?_, ?_, ?_, ?_⟩
  · with_unfolding_all rfl
  · with_unfolding_all rfl
  · with_unfolding_all rfl
  · exact call_independent_of_caller _ _ 2 1 callers hroot

end MiniLisp
