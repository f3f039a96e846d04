import MiniLisp.Proofs.ScopeChain
import MiniLisp.Proofs.Trampoline

namespace MiniLisp

open Run

variable {α β : Type}

/-- What may become of a heap: its scopes are where they were and bind what names they bound, and its
functions are what they were. -/
structure Heap.Grows (heap heap' : Heap) : Prop where
  scopes : heap.Extends heap'
  closures : ∀ id c, heap.closure? id = some c → heap'.closure? id = some c

namespace Heap.Grows

variable {heap heap' heap'' : Heap} {scope : ScopeId}

@[refl]
theorem refl (heap : Heap) : heap.Grows heap :=
  ⟨.refl heap, fun _ _ h => h⟩

theorem trans (h : heap.Grows heap') (h' : heap'.Grows heap'') : heap.Grows heap'' :=
  ⟨h.scopes.trans h'.scopes, fun id c hc => h'.closures id c (h.closures id c hc)⟩

theorem enter (heap : Heap) (outer : Option ScopeId) (bindings : Entries String Value) :
    heap.Grows (heap.enter outer bindings).1 :=
  ⟨.enter heap outer bindings, fun _ _ h => h⟩

theorem bind (heap : Heap) (scope : ScopeId) (name : String) (v : Value) :
    heap.Grows (heap.bind scope name v) :=
  ⟨.bind heap scope name v, fun _ _ h => h⟩

theorem newCell (heap : Heap) (v : Value) : heap.Grows (heap.newCell v).1 :=
  ⟨fun _ s hs => ⟨s, hs, rfl, fun _ hname => hname⟩, fun _ _ h => h⟩

theorem setCell (heap : Heap) (id : CellId) (v : Value) : heap.Grows (heap.setCell id v) :=
  ⟨fun _ s hs => ⟨s, hs, rfl, fun _ hname => hname⟩, fun _ _ h => h⟩

theorem newClosure (heap : Heap) (c : Closure) : heap.Grows (heap.newClosure c).1 where
  scopes := fun _ s hs => ⟨s, hs, rfl, fun _ hname => hname⟩
  closures id c' hc := by
    have hlt : id.index < heap.closures.size := (Array.getElem?_eq_some_iff.mp hc).1
    exact (Array.getElem?_push_lt hlt).trans (Array.getElem?_eq_getElem hlt ▸ hc)

/-- The outermost scope around a scope is the same ever after. -/
theorem root (h : heap.Grows heap') (hk : heap.Knows scope) :
    heap'.scopes.root scope = heap.scopes.root scope := by
  fun_induction Scopes.root heap.scopes scope with
  | case1 scope hs =>
    obtain ⟨s, hsome⟩ := knows_iff.mp hk
    rw [hs] at hsome
    cases hsome
  | case2 scope s hs ho =>
    obtain ⟨s', hs', houter, -⟩ := h.scopes scope s hs
    rw [Scopes.root_of_get? hs', houter, ho]
    rfl
  | case3 scope s hs o ho hlt ih =>
    obtain ⟨s', hs', houter, -⟩ := h.scopes scope s hs
    rw [Scopes.root_of_get? hs', houter, ho, Option.map_some, Option.getD_some,
      ih (Nat.lt_trans hlt hk)]

end Heap.Grows

/-- Wherever the run ends, the heap has grown by then. -/
def Run.Grows (run : Run α) : Prop :=
  ∀ w result w', run.outcome w = some (result, w') → w.heap.Grows w'.heap

/-- Every evaluation lets the heap grow. -/
def Evaluator.Grows (ev : Evaluator) : Prop :=
  ∀ form scope, (ev form scope).Grows

namespace Run.Grows

theorem diverge : (Run.diverge : Run α).Grows := by
  intro w result w' h
  cases h

theorem pure (x : α) : (Pure.pure x : Run α).Grows := by
  intro w result w' h
  cases h
  exact .refl _

theorem raise (cause : Cause) : (cause.raise : Run α).Grows := by
  intro w result w' h
  cases h
  exact .refl _

theorem bind {run : Run α} {next : α → Run β} (h : run.Grows) (hn : ∀ x, (next x).Grows) :
    (run >>= next).Grows := by
  intro w result w'' hend
  obtain ⟨x, w', hx, hnext⟩ | ⟨fault, hfail, -⟩ := outcome_bind_some hend
  · exact (h w _ w' hx).trans (hn x w' result w'' hnext)
  · exact h w _ w'' hfail

theorem attempt {run : Run α} (h : run.Grows) : (Run.attempt run).Grows := by
  intro w result w' hend
  rw [outcome_attempt] at hend
  obtain ⟨⟨first, w₁⟩, hrun, hpair⟩ := Option.map_eq_some_iff.mp hend
  cases hpair
  exact h w first _ hrun

theorem mapM {f : α → Run β} (h : ∀ x, (f x).Grows) (xs : List α) : (xs.mapM f).Grows := by
  induction xs with
  | nil => exact pure _
  | cons x xs ih =>
    rw [List.mapM_cons]
    exact bind (h x) fun _ => bind ih fun _ => pure _

theorem query (f : Heap → α) : (Run.query f).Grows := by
  intro w result w' h
  cases h
  exact .refl _

theorem ofExcept (result : Except Fault α) : (MonadExcept.ofExcept result : Run α).Grows := by
  cases result with
  | ok x => exact pure x
  | error fault =>
    intro w result w' h
    cases h
    exact .refl _

theorem settle (v : Value) : (Run.settle v).Grows := by
  intro w result w' h
  cases v <;> cases h <;> exact .refl _

theorem allocate {f : Heap → Heap × α} (h : ∀ heap : Heap, heap.Grows (f heap).1) :
    (Run.allocate f).Grows := by
  intro w result w' hend
  cases hend
  exact h w.heap

theorem update {f : Heap → Heap} (h : ∀ heap : Heap, heap.Grows (f heap)) : (Run.update f).Grows := by
  intro w result w' hend
  cases hend
  exact h w.heap

theorem enter (outer : Option ScopeId) (bindings : Entries String Value) :
    (Run.enter outer bindings).Grows :=
  allocate fun heap => .enter heap outer bindings

theorem bindName (scope : ScopeId) (name : String) (v : Value) : (Run.bind scope name v).Grows :=
  update fun heap => .bind heap scope name v

/-- A run that only looks at the world, or changes it outside of the heap. -/
theorem of_same {run : Run α}
    (h : ∀ w result w', run.outcome w = some (result, w') → w'.heap = w.heap) : run.Grows := by
  intro w result w' hend
  rw [h w result w' hend]

end Run.Grows

namespace Native

variable {op : Native} {args : List Value} {scope : ScopeId} {ev : Evaluator}

/-- A native that acts on the world lets the heap grow. -/
theorem act_grows {f : List Value → Run Value} (hop : op.behaviour = .act f) : (f args).Grows := by
  have htext (style : Value.Style) (sep : String) : (runText style sep args).Grows :=
    .bind (.query _) fun _ => .pure _
  have hprint (text : String) : (Run.print text).Grows := .of_same fun w result w' h => by
    cases h
    rfl
  have hline (style : Value.Style) : (runPrintLine style args).Grows :=
    .bind (.query _) fun _ => .bind (hprint _) fun _ => .pure _
  cases op <;> cases hop
  case prStr => exact htext .readable " "
  case str => exact htext .display ""
  case prn => exact hline .readable
  case println => exact hline .display
  case slurp =>
    unfold runSlurp
    split
    · refine .bind (.ofExcept _) fun path => .bind (.of_same fun w result w' h => ?_) fun _ => .pure _
      have hget : (MonadState.get : Run World).outcome w = some (.ok w, w) := rfl
      rw [readFile, outcome_bind_ok _ hget] at h
      cases hread : w.files.read path <;> rw [hread] at h <;> cases h <;> rfl
    · exact .raise _
  case readline =>
    unfold runReadline
    split
    · refine .bind (.query _) fun _ => .bind (hprint _) fun _ => ?_
      refine .bind (.of_same fun w result w' h => ?_) fun line? => ?_
      · rw [readLine, outcome_modifyGet] at h
        cases h
        split <;> rfl
      · cases line? with
        | none => exact .pure _
        | some line => exact .pure _
    · exact .raise _
  case atom =>
    unfold runAtom
    split
    · exact .bind (.allocate fun heap => .newCell heap _) fun _ => .pure _
    · exact .raise _
  case deref =>
    unfold runDeref
    split
    · exact .bind (.ofExcept _) fun _ => .query _
    · exact .raise _
  case reset =>
    unfold runReset
    split
    · refine .bind (.ofExcept _) fun id => ?_
      exact .bind (.update fun heap => .setCell heap id _) fun _ => .pure _
    · exact .raise _
  case timeMs =>
    refine .bind (.of_same fun w result w' h => ?_) fun _ => .pure _
    cases h
    rfl

theorem perform_grows {call : Value → List Value → Run Value} (hev : ev.Grows)
    (hcall : ∀ f args, (call f args).Grows) : (op.perform ev call args scope).Grows := by
  unfold perform
  split
  · exact .ofExcept _
  · next f hop => exact act_grows hop
  · unfold runApply
    split
    · exact .bind (.ofExcept _) fun _ => .bind (.ofExcept _) fun _ => hcall _ _
    · exact .ofExcept _
  · unfold runMap
    split
    · refine .bind (.ofExcept _) fun _ => .bind (.ofExcept _) fun items => ?_
      exact .bind (.mapM (fun item => hcall _ _) items) fun _ => .pure _
    · exact .ofExcept _
  · unfold runSwap
    split
    · refine .bind (.ofExcept _) fun id => .bind (.ofExcept _) fun _ => .bind (.query _) fun _ => ?_
      refine .bind (hcall _ _) fun v => ?_
      exact .bind (.update fun heap => .setCell heap id v) fun _ => .pure _
    · exact .ofExcept _
  · unfold runEval
    split
    · exact .bind (.query _) fun root => hev _ root
    · exact .ofExcept _

end Native

section Evaluation

variable {ev : Evaluator} {fuel : Nat} {scope : ScopeId} {args : List Value}

theorem Value.notCallable_grows (v : Value) : (v.notCallable : Run α).Grows :=
  .bind (.query _) fun _ => .raise _

theorem Closure.call_grows (hev : ev.Grows) (c : Closure) (args : List Value) :
    (c.call ev args).Grows :=
  .bind (.enter _ _) fun inner => hev c.body inner

theorem Value.callWith_grows {native : Native → List Value → ScopeId → Run Value} (hev : ev.Grows)
    (hn : ∀ op args, (native op args scope).Grows) (f : Value) (args : List Value) :
    (f.callWith ev native args scope).Grows := by
  unfold callWith
  split
  · exact hn _ _
  · refine .bind (.query _) fun c? => ?_
    cases c? with
    | none => exact notCallable_grows _
    | some c => exact c.call_grows hev args
  · exact notCallable_grows _

theorem Native.call_grows (hev : ev.Grows) (fuel : Nat) (op : Native) (args : List Value) :
    (Native.call ev fuel op args scope).Grows := by
  induction fuel generalizing op args with
  | zero => exact .diverge
  | succ fuel ih =>
    refine .bind (.ofExcept _) fun _ => perform_grows hev fun f args => ?_
    exact .bind (Value.callWith_grows hev ih f args) fun v => .settle v

theorem Value.call_grows (hev : ev.Grows) (f : Value) (fuel : Nat) (args : List Value) :
    (f.call ev fuel args scope).Grows :=
  .bind (callWith_grows hev (Native.call_grows hev fuel) f args) fun v => .settle v

theorem expand_grows (hev : ev.Grows) (fuel : Nat) (form : Value) (scope : ScopeId) :
    (expand ev fuel form scope).Grows := by
  induction fuel generalizing form with
  | zero =>
    rw [expand]
    refine .bind (.query _) fun expander? => ?_
    cases expander? with
    | none => exact .pure form
    | some found => exact .diverge
  | succ fuel ih =>
    rw [expand]
    refine .bind (.query _) fun expander? => ?_
    cases expander? with
    | none => exact .pure form
    | some found => exact .bind (found.1.call_grows hev found.2) fun form => ih form

namespace SpecialForm

theorem toExpander_grows (v : Value) : (toExpander v).Grows := by
  unfold toExpander
  split
  · refine .bind (.query _) fun c? => ?_
    cases c? with
    | none => exact .pure _
    | some c => exact .bind (.allocate fun heap => .newClosure heap c) fun _ => .pure _
  · exact .pure v

theorem runDefine_grows (hev : ev.Grows) (form : SpecialForm) :
    (form.runDefine ev scope args).Grows := by
  match args with
  | [v, expr] =>
    cases v with
    | sym name =>
      rw [runDefine_symbol]
      refine .bind (.bind (hev expr scope) fun v => ?_) fun v => ?_
      · by_cases hform : form = .defineExpander
        · simp only [hform, if_true]
          exact toExpander_grows v
        · simp only [hform, if_false]
          exact .pure v
      · exact .bind (.bindName scope name v) fun _ => .pure _
    | _ => exact .raise _
  | [] => exact .raise _
  | [v] => cases v <;> exact .raise _
  | v :: _ :: _ :: _ => cases v <;> exact .raise _

theorem bindAll_grows (hev : ev.Grows) (row : List Value) : (bindAll ev scope row).Grows := by
  induction row using bindAll.induct with
  | case1 name expr more ih =>
    exact .bind (hev expr scope) fun v => .bind (.bindName scope name v) fun _ => ih
  | case2 v expr more hne =>
    rw [bindAll]
    · exact .raise _
    · exact hne
  | case3 row hne hne' =>
    rw [bindAll]
    · exact .pure _
    · exact hne
    · exact hne'

theorem runLetIn_grows (hev : ev.Grows) : (runLetIn ev scope args).Grows := by
  match args with
  | [bindings, body] =>
    rw [runLetIn_pair]
    split
    · exact .raise _
    · split
      · exact .raise _
      · refine .bind (.enter _ _) fun inner => ?_
        exact .bind (bindAll_grows hev _) fun _ => .pure _
  | [] | [_] | _ :: _ :: _ :: _ => exact .raise _

theorem runSequence_grows (hev : ev.Grows) : (runSequence ev scope args).Grows := by
  induction args using runSequence.induct with
  | case1 => exact .pure _
  | case2 last => exact .pure _
  | case3 form more hne ih =>
    rw [runSequence]
    · exact .bind (.bind (hev form scope) fun _ => .pure _) fun _ => ih
    · exact hne

theorem runChoice_grows (hev : ev.Grows) : (runChoice ev scope args).Grows := by
  unfold runChoice
  split
  · exact .bind (hev _ scope) fun _ => .pure _
  · exact .bind (hev _ scope) fun _ => .pure _
  · exact .raise _

theorem runFunction_grows : (runFunction scope args).Grows := by
  unfold runFunction
  split
  · split
    · exact .raise _
    · exact .bind (.allocate fun heap => .newClosure heap _) fun _ => .pure _
  · exact .raise _

theorem runHandle_grows (hev : ev.Grows) : (runHandle ev scope args).Grows := by
  unfold runHandle
  split
  · exact .pure _
  · split
    · exact .raise _
    · refine .bind (.attempt (hev _ scope)) fun result => ?_
      cases result with
      | ok v => exact .pure _
      | error fault => exact .bind (.enter _ _) fun _ => .pure _
  · exact .raise _

theorem run_grows (hev : ev.Grows) (form : SpecialForm) (fuel : Nat) :
    (form.run ev fuel scope args).Grows := by
  cases form with
  | define => exact runDefine_grows hev _
  | defineExpander => exact runDefine_grows hev _
  | letIn => exact runLetIn_grows hev
  | sequence => exact runSequence_grows hev
  | choice => exact runChoice_grows hev
  | function => exact runFunction_grows
  | quote =>
    simp only [run]
    split
    · exact .pure _
    · exact .raise _
  | quasiquote =>
    simp only [run]
    split
    · exact .pure _
    · exact .raise _
  | expansion =>
    simp only [run]
    split
    · exact .bind (expand_grows hev fuel _ scope) fun _ => .pure _
    · exact .raise _
  | handle => exact runHandle_grows hev

end SpecialForm

theorem evalPlain_grows (hev : ev.Grows) (form : Value) : (evalPlain ev form scope).Grows := by
  unfold evalPlain
  split
  · exact .bind (.query _) fun _ => .ofExcept _
  · exact .bind (.mapM (fun item => hev item scope) _) fun _ => .pure _
  · refine .bind (.mapM (fun entry => ?_) _) fun _ => .pure _
    exact .bind (hev entry.2 scope) fun _ => .pure _
  · exact .pure _

theorem evalCall_grows (hev : ev.Grows) (fuel : Nat) (forms : List Value) :
    (evalCall ev fuel forms scope).Grows := by
  refine .bind (.mapM (fun form => hev form scope) forms) fun vs => ?_
  split
  · exact .pure _
  · split
    · exact .bind (Native.call_grows hev fuel _ _) fun _ => .pure _
    · refine .bind (.query _) fun c? => ?_
      cases c? with
      | none => exact Value.notCallable_grows _
      | some c => exact .bind (.enter _ _) fun _ => .pure _
    · exact Value.notCallable_grows _

/-- A step lets the heap grow. -/
theorem evalStep_grows (hev : ev.Grows) (fuel : Nat) (form : Value) (scope : ScopeId) :
    (evalStep ev fuel form scope).Grows := by
  rw [evalStep_eq]
  refine .bind (expand_grows hev fuel form scope) fun expanded => ?_
  unfold evalExpanded
  split
  · split
    · exact SpecialForm.run_grows hev _ fuel
    · exact evalCall_grows hev fuel _
  · exact .bind (evalPlain_grows hev _) fun _ => .pure _

theorem evalSteps_grows (hev : ev.Grows) (fuel steps : Nat) (form : Value) (scope : ScopeId) :
    (evalSteps ev fuel steps form scope).Grows := by
  induction steps generalizing form scope with
  | zero => exact .diverge
  | succ steps ih =>
    refine .bind (evalStep_grows hev fuel form scope) fun step => ?_
    cases step with
    | done v => exact .settle v
    | tail form scope => exact ih form scope

/-- Evaluation lets the heap grow, however many levels it has left. -/
theorem evalWithin_grows (fuel levels : Nat) : (evalWithin fuel levels).Grows := by
  induction levels with
  | zero => exact fun _ _ => .raise _
  | succ levels ih => exact evalSteps_grows ih fuel fuel

theorem Recursive.eval_grows (fuel : Nat) : (Recursive.eval fuel).Grows := by
  induction fuel with
  | zero => exact fun _ _ => .diverge
  | succ fuel ih =>
    intro form scope
    rw [eval_succ]
    refine .bind (evalStep_grows ih fuel form scope) fun step => ?_
    cases step with
    | done v => exact .settle v
    | tail form scope => exact ih form scope

end Evaluation
end MiniLisp
