import MiniLisp.Eval
import MiniLisp.Proofs.Outcome

namespace MiniLisp

namespace Run

variable {α β : Type}

/-- Wherever the first run ends, the second one ends in the same way. -/
def Below (a b : Run α) : Prop :=
  ∀ w ending, a.outcome w = some ending → b.outcome w = some ending

namespace Below

@[refl]
theorem refl (a : Run α) : a.Below a :=
  fun _ _ h => h

theorem diverge (a : Run α) : Run.diverge.Below a := by
  intro w ending h
  simp at h

theorem bind {a b : Run α} {f g : α → Run β} (hab : a.Below b) (hfg : ∀ x, (f x).Below (g x)) :
    (a >>= f).Below (b >>= g) := by
  rintro w ⟨result, w''⟩ h
  rcases outcome_bind_some h with ⟨x, w', ha, hf⟩ | ⟨fault, ha, rfl⟩
  · rw [outcome_bind_ok g (hab _ _ ha)]
    exact hfg x _ _ hf
  · exact outcome_bind_error g (hab _ _ ha)

theorem attempt {a b : Run α} (hab : a.Below b) : (Run.attempt a).Below (Run.attempt b) := by
  intro w ending h
  rw [outcome_attempt] at h ⊢
  obtain ⟨first, ha, hend⟩ := Option.map_eq_some_iff.1 h
  rw [hab _ _ ha, ← hend]
  rfl

theorem mapM {f g : α → Run β} (hfg : ∀ x, (f x).Below (g x)) (xs : List α) :
    (xs.mapM f).Below (xs.mapM g) := by
  induction xs with
  | nil => exact refl _
  | cons x xs ih =>
    simp only [List.mapM_cons]
    exact bind (hfg x) fun y => bind ih fun ys => refl _

end Below
end Run

/-- Every evaluation by the first evaluator is below that by the second one. -/
def Evaluator.Below (ev ev' : Evaluator) : Prop :=
  ∀ form scope, (ev form scope).Below (ev' form scope)

open Run

section Calls

variable {ev ev' : Evaluator} {call call' : Value → List Value → Run Value}

theorem Closure.call_below (h : ev.Below ev') (c : Closure) (args : List Value) :
    (c.call ev args).Below (c.call ev' args) :=
  .bind (.refl _) fun inner => h c.body inner

theorem Value.callWith_below {native native' : Native → List Value → ScopeId → Run Value}
    (h : ev.Below ev') (hn : ∀ op args scope, (native op args scope).Below (native' op args scope))
    (f : Value) (args : List Value) (scope : ScopeId) :
    (f.callWith ev native args scope).Below (f.callWith ev' native' args scope) := by
  unfold Value.callWith
  split
  · exact hn _ _ _
  · refine .bind (.refl _) fun closure? => ?_
    cases closure? with
    | none => exact .refl _
    | some c => exact c.call_below h args
  · exact .refl _

theorem Native.runApply_below (h : ∀ f args, (call f args).Below (call' f args))
    (args : List Value) : (runApply call args).Below (runApply call' args) := by
  unfold runApply
  split
  · exact .bind (.refl _) fun _ => .bind (.refl _) fun items => h _ _
  · exact .refl _

theorem Native.runMap_below (h : ∀ f args, (call f args).Below (call' f args))
    (args : List Value) : (runMap call args).Below (runMap call' args) := by
  unfold runMap
  split
  · refine .bind (.refl _) fun _ => .bind (.refl _) fun items => ?_
    exact .bind (.mapM (fun item => h _ _) items) fun _ => .refl _
  · exact .refl _

theorem Native.runSwap_below (h : ∀ f args, (call f args).Below (call' f args))
    (args : List Value) : (runSwap call args).Below (runSwap call' args) := by
  unfold runSwap
  split
  · refine .bind (.refl _) fun id => .bind (.refl _) fun _ => .bind (.refl _) fun held => ?_
    exact .bind (h _ _) fun _ => .refl _
  · exact .refl _

theorem Native.runEval_below (h : ev.Below ev') (scope : ScopeId) (args : List Value) :
    (runEval ev scope args).Below (runEval ev' scope args) := by
  unfold runEval
  split
  · exact .bind (.refl _) fun root => h _ root
  · exact .refl _

theorem Native.perform_below (h : ev.Below ev')
    (hc : ∀ f args, (call f args).Below (call' f args)) (op : Native) (args : List Value)
    (scope : ScopeId) : (op.perform ev call args scope).Below (op.perform ev' call' args scope) := by
  unfold perform
  split
  · exact .refl _
  · exact .refl _
  · exact runApply_below hc args
  · exact runMap_below hc args
  · exact runSwap_below hc args
  · exact runEval_below h scope args

/-- Natives are monotone in the evaluator and in the fuel for calls among natives. -/
theorem Native.call_below (h : ev.Below ev') {fuel fuel' : Nat} (hf : fuel ≤ fuel') (op : Native)
    (args : List Value) (scope : ScopeId) :
    (Native.call ev fuel op args scope).Below (Native.call ev' fuel' op args scope) := by
  induction fuel generalizing fuel' op args scope with
  | zero => exact .diverge _
  | succ fuel ih =>
    obtain ⟨fuel', rfl⟩ : ∃ n, fuel' = n + 1 := ⟨fuel' - 1, by omega⟩
    simp only [Native.call]
    refine .bind (.refl _) fun _ => ?_
    apply perform_below h
    intro f args
    refine .bind ?_ fun _ => .refl _
    exact Value.callWith_below h (fun op args scope => ih (by omega) op args scope) f args scope

end Calls

section Steps

variable {ev ev' : Evaluator}

/-- Expansion is monotone in the evaluator and in the number of expansions. -/
theorem expand_below (h : ev.Below ev') {fuel fuel' : Nat} (hf : fuel ≤ fuel') (form : Value)
    (scope : ScopeId) : (expand ev fuel form scope).Below (expand ev' fuel' form scope) := by
  induction fuel generalizing fuel' form with
  | zero =>
    rw [expand, expand]
    refine .bind (.refl _) fun expander? => ?_
    cases expander? with
    | none => exact .refl _
    | some found => exact .diverge _
  | succ fuel ih =>
    obtain ⟨fuel', rfl⟩ : ∃ n, fuel' = n + 1 := ⟨fuel' - 1, by omega⟩
    rw [expand, expand]
    refine .bind (.refl _) fun expander? => ?_
    cases expander? with
    | none => exact .refl _
    | some found => exact .bind (found.1.call_below h found.2) fun form => ih (by omega) form

theorem SpecialForm.bindAll_below (h : ev.Below ev') (scope : ScopeId) (row : List Value) :
    (bindAll ev scope row).Below (bindAll ev' scope row) := by
  induction row using bindAll.induct with
  | case1 name expr more ih =>
    exact .bind (h expr scope) fun v => .bind (.refl _) fun _ => ih
  | case2 v expr more hne =>
    rw [bindAll, bindAll] <;> exact hne
  | case3 row hne hne' =>
    rw [bindAll, bindAll] <;> assumption

theorem SpecialForm.runDefine_below (h : ev.Below ev') (form : SpecialForm) (scope : ScopeId)
    (args : List Value) : (form.runDefine ev scope args).Below (form.runDefine ev' scope args) := by
  unfold runDefine
  split
  · exact .bind (h _ scope) fun v => .refl _
  · exact .refl _
  · exact .refl _

theorem SpecialForm.runLetIn_below (h : ev.Below ev') (scope : ScopeId) (args : List Value) :
    (runLetIn ev scope args).Below (runLetIn ev' scope args) := by
  match args with
  | [bindings, body] =>
    rw [runLetIn_pair, runLetIn_pair]
    split
    · exact .refl _
    · split
      · exact .refl _
      · refine .bind (.refl _) fun inner => ?_
        exact .bind (bindAll_below h inner _) fun _ => .refl _
  | [] | [_] | _ :: _ :: _ :: _ => exact .refl _

theorem SpecialForm.runSequence_below (h : ev.Below ev') (scope : ScopeId) (args : List Value) :
    (runSequence ev scope args).Below (runSequence ev' scope args) := by
  induction args using runSequence.induct with
  | case1 => exact .refl _
  | case2 last => exact .refl _
  | case3 form more hne ih =>
    rw [runSequence, runSequence]
    · exact .bind (.bind (h form scope) fun _ => .refl _) fun _ => ih
    · exact hne
    · exact hne

theorem SpecialForm.runChoice_below (h : ev.Below ev') (scope : ScopeId) (args : List Value) :
    (runChoice ev scope args).Below (runChoice ev' scope args) := by
  unfold runChoice
  split
  · exact .bind (h _ scope) fun _ => .refl _
  · exact .bind (h _ scope) fun _ => .refl _
  · exact .refl _

theorem SpecialForm.runHandle_below (h : ev.Below ev') (scope : ScopeId) (args : List Value) :
    (runHandle ev scope args).Below (runHandle ev' scope args) := by
  unfold runHandle
  split
  · exact .refl _
  · split
    · exact .refl _
    · exact .bind (.attempt (h _ scope)) fun _ => .refl _
  · exact .refl _

theorem SpecialForm.run_below (h : ev.Below ev') {fuel fuel' : Nat} (hf : fuel ≤ fuel')
    (form : SpecialForm) (scope : ScopeId) (args : List Value) :
    (form.run ev fuel scope args).Below (form.run ev' fuel' scope args) := by
  cases form with
  | define => exact runDefine_below h _ scope args
  | defineExpander => exact runDefine_below h _ scope args
  | letIn => exact runLetIn_below h scope args
  | sequence => exact runSequence_below h scope args
  | choice => exact runChoice_below h scope args
  | function => exact .refl _
  | quote => exact .refl _
  | quasiquote => exact .refl _
  | expansion =>
    simp only [run]
    split
    · exact .bind (expand_below h hf _ scope) fun _ => .refl _
    · exact .refl _
  | handle => exact runHandle_below h scope args

theorem evalPlain_below (h : ev.Below ev') (form : Value) (scope : ScopeId) :
    (evalPlain ev form scope).Below (evalPlain ev' form scope) := by
  unfold evalPlain
  split
  · exact .refl _
  · exact .bind (.mapM (fun item => h item scope) _) fun _ => .refl _
  · refine .bind (.mapM (fun entry => ?_) _) fun _ => .refl _
    exact .bind (h entry.2 scope) fun _ => .refl _
  · exact .refl _

theorem evalCall_below (h : ev.Below ev') {fuel fuel' : Nat} (hf : fuel ≤ fuel')
    (forms : List Value) (scope : ScopeId) :
    (evalCall ev fuel forms scope).Below (evalCall ev' fuel' forms scope) := by
  refine .bind (.mapM (fun form => h form scope) forms) fun vs => ?_
  split
  · exact .refl _
  · split
    · exact .bind (Native.call_below h hf _ _ scope) fun _ => .refl _
    · exact .refl _
    · exact .refl _

/-- A step is monotone in the evaluator and in the fuel. -/
theorem evalStep_below (h : ev.Below ev') {fuel fuel' : Nat} (hf : fuel ≤ fuel') (form : Value)
    (scope : ScopeId) : (evalStep ev fuel form scope).Below (evalStep ev' fuel' form scope) := by
  unfold evalStep
  split
  · refine .bind (expand_below h hf _ scope) fun expanded => ?_
    split
    · split
      · exact SpecialForm.run_below h hf _ scope _
      · exact evalCall_below h hf _ scope
    · exact .bind (evalPlain_below h _ scope) fun _ => .refl _
  · exact .bind (evalPlain_below h _ scope) fun _ => .refl _

theorem evalSteps_below (h : ev.Below ev') {fuel fuel' steps steps' : Nat} (hf : fuel ≤ fuel')
    (hs : steps ≤ steps') (form : Value) (scope : ScopeId) :
    (evalSteps ev fuel steps form scope).Below (evalSteps ev' fuel' steps' form scope) := by
  induction steps generalizing steps' form scope with
  | zero => exact .diverge _
  | succ steps ih =>
    obtain ⟨steps', rfl⟩ : ∃ n, steps' = n + 1 := ⟨steps' - 1, by omega⟩
    simp only [evalSteps]
    refine .bind (evalStep_below h hf form scope) fun step => ?_
    cases step with
    | done v => exact .refl _
    | tail form scope => exact ih (by omega) form scope

end Steps
end MiniLisp
