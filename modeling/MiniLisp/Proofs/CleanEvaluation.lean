import MiniLisp.Proofs.Keeping
import MiniLisp.Proofs.Stepping
import MiniLisp.Proofs.Template

namespace MiniLisp

open Value Run

/-- Safe code is evaluated to clean values, and the second evaluator ends as the first one does. -/
def Evaluator.Keeps (ev ev' : Evaluator) : Prop :=
  ∀ form scope, form.Safe → (ev form scope).Keeps Clean (ev' form scope)

/-- A step ends with a value that is clean or an error value, or goes on with safe code. -/
def Step.Safe : Step → Prop
  | .done v => v.Clean ∨ ∃ kind payload, v = .error kind payload ∧ payload.Clean
  | .tail form _ => form.Safe

namespace Native

variable {op : Native} {args : List Value} {scope : ScopeId}

theorem runText_keeps (style : Style) (sep : String) :
    (runText style sep args).Keeps Clean (runText style sep args) :=
  .bind (.look _) fun text _ => .pure (Clean.str text)

theorem runPrintLine_keeps (style : Style) :
    (runPrintLine style args).Keeps Clean (runPrintLine style args) :=
  .bind (.look _) fun _ _ => .bind (.print _) fun _ _ => .pure .nil

theorem runSlurp_keeps : (runSlurp args).Keeps Clean (runSlurp args) := by
  unfold runSlurp
  split
  · refine .bind (.ofExcept text_sound) fun path _ => .bind (.readFile path) fun text _ => ?_
    exact .pure (Clean.str text)
  · exact .raise _

theorem runReadline_keeps : (runReadline args).Keeps Clean (runReadline args) := by
  unfold runReadline
  split
  · refine .bind (.look _) fun shown _ => .bind (.print _) fun _ _ => ?_
    refine .bind .readLine fun line? _ => ?_
    cases line? with
    | none => exact .pure .nil
    | some line => exact .pure (Clean.str line)
  · exact .raise _

theorem runAtom_keeps (h : ∀ v ∈ args, v.Clean) : (runAtom args).Keeps Clean (runAtom args) := by
  unfold runAtom
  split
  · have hcell := (List.forall_mem_cons.mp h).1
    refine .bind (.allocate fun _ hheap => hheap.newCell hcell) fun id _ => ?_
    exact .pure (.atom .nil)
  · exact .raise _

theorem runDeref_keeps : (runDeref args).Keeps Clean (runDeref args) := by
  unfold runDeref
  split
  · exact .bind (.ofExcept cell_sound) fun id _ => .query fun _ hheap => hheap.cell id
  · exact .raise _

theorem runReset_keeps (h : ∀ v ∈ args, v.Clean) : (runReset args).Keeps Clean (runReset args) := by
  unfold runReset
  split
  · simp only [List.forall_mem_cons] at h
    refine .bind (.ofExcept cell_sound) fun id _ => ?_
    exact .bind (.update fun _ hheap => hheap.setCell id h.2.1) fun _ _ => .pure h.2.1
  · exact .raise _

theorem runTimeMs_keeps : (runTimeMs args).Keeps Clean (runTimeMs args) :=
  .bind .now fun n _ => .pure (Clean.int n)

/-- A native that acts on the world keeps error values out of it. -/
theorem act_keeps {f : List Value → Run Value} (hop : op.behaviour = .act f)
    (h : ∀ v ∈ args, v.Clean) : (f args).Keeps Clean (f args) := by
  cases op <;> cases hop
  case prStr => exact runText_keeps .readable " "
  case str => exact runText_keeps .display ""
  case prn => exact runPrintLine_keeps .readable
  case println => exact runPrintLine_keeps .display
  case slurp => exact runSlurp_keeps
  case readline => exact runReadline_keeps
  case atom => exact runAtom_keeps h
  case deref => exact runDeref_keeps
  case reset => exact runReset_keeps h
  case timeMs => exact runTimeMs_keeps

section Callbacks

variable {call call' : Value → List Value → Run Value}

theorem runApply_keeps
    (hcall : ∀ f args, (∀ v ∈ args, v.Clean) → (call f args).Keeps Clean (call' f args))
    (h : ∀ v ∈ args, v.Clean) : (runApply call args).Keeps Clean (runApply call' args) := by
  unfold runApply
  split
  · next f a more =>
    have hmore := (List.forall_mem_cons.mp h).2
    refine .bind (.ofExcept callable_sound) fun _ _ => ?_
    refine .bind (.ofExcept (callArguments_sound (hmore _ (List.getLast_mem _)))) fun items hitems => ?_
    refine hcall f _ fun v hv => ?_
    rcases List.mem_append.mp hv with hv | hv
    · exact hmore v ((List.dropLast_sublist _).subset hv)
    · exact hitems v hv
  · exact .raise _

theorem runMap_keeps
    (hcall : ∀ f args, (∀ v ∈ args, v.Clean) → (call f args).Keeps Clean (call' f args))
    (h : ∀ v ∈ args, v.Clean) : (runMap call args).Keeps Clean (runMap call' args) := by
  unfold runMap
  split
  · simp only [List.forall_mem_cons] at h
    refine .bind (.ofExcept callable_sound) fun _ _ => ?_
    refine .bind (.ofExcept (callArguments_sound h.2.1)) fun items hitems => ?_
    refine .bind (.mapM fun item hitem => hcall _ _ (by simpa using hitems item hitem)) fun vs hvs => ?_
    exact .pure (clean_ofList.mpr hvs)
  · exact .raise _

theorem runSwap_keeps
    (hcall : ∀ f args, (∀ v ∈ args, v.Clean) → (call f args).Keeps Clean (call' f args))
    (h : ∀ v ∈ args, v.Clean) : (runSwap call args).Keeps Clean (runSwap call' args) := by
  unfold runSwap
  split
  · simp only [List.forall_mem_cons] at h
    refine .bind (.ofExcept cell_sound) fun id _ => .bind (.ofExcept callable_sound) fun _ _ => ?_
    refine .bind (.query fun _ hheap => hheap.cell id) fun held hheld => ?_
    refine .bind (hcall _ _ (List.forall_mem_cons.mpr ⟨hheld, h.2.2⟩)) fun v hv => ?_
    exact .bind (.update fun _ hheap => hheap.setCell id hv) fun _ _ => .pure hv
  · exact .raise _

theorem runEval_keeps {ev ev' : Evaluator} (hev : ev.Keeps ev') (h : ∀ v ∈ args, v.Clean) :
    (runEval ev scope args).Keeps Clean (runEval ev' scope args) := by
  unfold runEval
  split
  · refine .bind (.look _) fun root _ => ?_
    exact hev _ root (.clean (List.forall_mem_cons.mp h).1)
  · exact .raise _

theorem perform_keeps {ev ev' : Evaluator} (hev : ev.Keeps ev')
    (hcall : ∀ f args, (∀ v ∈ args, v.Clean) → (call f args).Keeps Clean (call' f args))
    (h : ∀ v ∈ args, v.Clean) :
    (op.perform ev call args scope).Keeps Clean (op.perform ev' call' args scope) := by
  unfold perform
  split
  · next f hop => exact .ofExcept (compute_sound hop h)
  · next f hop => exact act_keeps hop h
  · exact runApply_keeps hcall h
  · exact runMap_keeps hcall h
  · exact runSwap_keeps hcall h
  · exact runEval_keeps hev h

end Callbacks
end Native

section Evaluation

variable {ev ev' : Evaluator} {scope : ScopeId} {args : List Value}

theorem Closure.call_keeps (hev : ev.Keeps ev') {c : Closure} (hc : c.body.Clean)
    (h : ∀ v ∈ args, v.Clean) : (c.call ev args).Keeps Clean (c.call ev' args) :=
  .bind (.enter _ (bindParams_clean (List.forall_mem_nil _) h)) fun inner _ =>
    hev c.body inner (.clean hc)

theorem Value.notCallable_keeps {α : Type} {P : α → Prop} (v : Value) :
    (v.notCallable : Run α).Keeps P v.notCallable :=
  .bind (.look _) fun _ _ => .raise _

theorem closure?_keeps (id : FnId) :
    (Run.query fun heap => heap.closure? id).Keeps (fun c? => ∀ c, c? = some c → c.body.Clean)
      (Run.query fun heap => heap.closure? id) :=
  .query fun _ hheap _ hc => hheap.closure hc

theorem Value.callWith_keeps {native native' : Native → List Value → ScopeId → Run Value}
    (hev : ev.Keeps ev')
    (hn : ∀ op, (native op args scope).Keeps Clean (native' op args scope)) (f : Value)
    (h : ∀ v ∈ args, v.Clean) :
    (f.callWith ev native args scope).Keeps Clean (f.callWith ev' native' args scope) := by
  unfold callWith
  split
  · exact hn _
  · refine .bind (closure?_keeps _) fun c? hc => ?_
    cases c? with
    | none => exact notCallable_keeps _
    | some c => exact c.call_keeps hev (hc c rfl) h
  · exact notCallable_keeps _

/-- Calling a native with clean arguments keeps the heap clean. -/
theorem Native.call_keeps (hev : ev.Keeps ev') (fuel : Nat) (op : Native)
    (h : ∀ v ∈ args, v.Clean) :
    (Native.call ev fuel op args scope).Keeps Clean (Native.call ev' fuel op args scope) := by
  induction fuel generalizing op args with
  | zero => exact .diverge
  | succ fuel ih =>
    refine .bind (.ofExcept (Arity.check_sound _ _ _)) fun _ _ => ?_
    refine perform_keeps hev (fun f args hargs => ?_) h
    refine .bind (Value.callWith_keeps hev (fun op => ih op hargs) f hargs) fun v hv => ?_
    exact .settle (.inl hv)

theorem expander?_keeps {form : Value} (h : form.Clean) :
    (Run.query fun heap => heap.expander? form scope).Keeps
      (fun found => ∀ c args, found = some (c, args) → c.body.Clean ∧ ∀ v ∈ args, v.Clean)
      (Run.query fun heap => heap.expander? form scope) := by
  refine .query fun heap hheap c args hfound => ?_
  unfold Heap.expander? at hfound
  split at hfound
  · split at hfound
    · obtain ⟨c', hc, heq⟩ := Option.map_eq_some_iff.mp hfound
      cases heq
      exact ⟨hheap.closure hc, (List.forall_mem_cons.mp (clean_list.mp h).1).2⟩
    · cases hfound
  · cases hfound

theorem expand_keeps (hev : ev.Keeps ev') (fuel : Nat) {form : Value} (h : form.Clean) :
    (expand ev fuel form scope).Keeps Clean (expand ev' fuel form scope) := by
  induction fuel generalizing form with
  | zero =>
    rw [expand, expand]
    refine .bind (expander?_keeps h) fun found _ => ?_
    cases found with
    | none => exact .pure h
    | some found => exact .diverge
  | succ fuel ih =>
    rw [expand, expand]
    refine .bind (expander?_keeps h) fun found hfound => ?_
    cases found with
    | none => exact .pure h
    | some found =>
      obtain ⟨hc, hargs⟩ := hfound found.1 found.2 rfl
      exact .bind (found.1.call_keeps hev hc hargs) fun form hform => ih hform

namespace SpecialForm

theorem toExpander_keeps {v : Value} (h : v.Clean) :
    (toExpander v).Keeps Clean (toExpander v) := by
  unfold toExpander
  split
  · refine .bind (closure?_keeps _) fun c? hc => ?_
    cases c? with
    | none => exact .pure h
    | some c =>
      refine .bind (.allocate fun _ hheap => hheap.newClosure (hc c rfl)) fun id _ => ?_
      exact .pure (.fn (clean_fn.mp h))
  · exact .pure h

theorem runDefine_keeps (hev : ev.Keeps ev') (form : SpecialForm) (h : ∀ v ∈ args, v.Clean) :
    (form.runDefine ev scope args).Keeps Step.Safe (form.runDefine ev' scope args) := by
  match args with
  | [v, expr] =>
    cases v with
    | sym name =>
      simp only [List.forall_mem_cons] at h
      rw [runDefine_symbol, runDefine_symbol]
      refine .bind (P := Clean) (.bind (hev expr scope (.clean h.2.1)) fun v hv => ?_) fun v hv => ?_
      · by_cases hform : form = defineExpander
        · simp only [hform, if_true]
          exact toExpander_keeps hv
        · simp only [hform, if_false]
          exact .pure hv
      · exact .bind (.bindName scope name hv) fun _ _ => .pure (.inl hv)
    | _ => exact .raise _
  | [] => exact .raise _
  | [v] | v :: _ :: _ :: _ => cases v <;> exact .raise _

theorem bindAll_keeps (hev : ev.Keeps ev') {row : List Value} (h : ∀ v ∈ row, v.Clean) :
    (bindAll ev scope row).Keeps (fun _ => True) (bindAll ev' scope row) := by
  induction row using bindAll.induct with
  | case1 name expr more ih =>
    simp only [List.forall_mem_cons] at h
    exact .bind (hev expr scope (.clean h.2.1)) fun v hv =>
      .bind (.bindName scope name hv) fun _ _ => ih h.2.2
  | case2 v expr more hne =>
    rw [bindAll, bindAll] <;> first | exact .raise _ | exact hne
  | case3 row hne hne' =>
    rw [bindAll, bindAll] <;> first | exact .pure trivial | assumption

theorem runLetIn_keeps (hev : ev.Keeps ev') (h : ∀ v ∈ args, v.Clean) :
    (runLetIn ev scope args).Keeps Step.Safe (runLetIn ev' scope args) := by
  match args with
  | [bindings, body] =>
    simp only [List.forall_mem_cons] at h
    rw [runLetIn_pair, runLetIn_pair]
    cases hrow : bindings.elements? with
    | none => exact .raise _
    | some row =>
      by_cases hodd : row.length % 2 = 1
      · simp only [hodd, if_true]
        exact .raise _
      · simp only [hodd, if_false]
        refine .bind (.enter _ (List.forall_mem_nil _)) fun inner _ => ?_
        exact .bind (bindAll_keeps hev (h.1.elements hrow)) fun _ _ => .pure (.clean h.2.1)
  | [] | [_] | _ :: _ :: _ :: _ => exact .raise _

theorem runSequence_keeps (hev : ev.Keeps ev') (h : ∀ v ∈ args, v.Clean) :
    (runSequence ev scope args).Keeps Step.Safe (runSequence ev' scope args) := by
  induction args using runSequence.induct with
  | case1 => exact .pure (.inl .nil)
  | case2 last => exact .pure (.clean (h last (by simp)))
  | case3 form more hne ih =>
    obtain ⟨hform, hmore⟩ := List.forall_mem_cons.mp h
    rw [runSequence, runSequence] <;> try exact hne
    rw [discard_eq, discard_eq]
    refine .bind (P := fun _ => True) ?_ fun _ _ => ih hmore
    exact .bind (hev form scope (.clean hform)) fun _ _ => .pure trivial

theorem runChoice_keeps (hev : ev.Keeps ev') (h : ∀ v ∈ args, v.Clean) :
    (runChoice ev scope args).Keeps Step.Safe (runChoice ev' scope args) := by
  match args with
  | [condition, yes] =>
    simp only [List.forall_mem_cons] at h
    refine .bind (hev condition scope (.clean h.1)) fun v _ => .pure ?_
    split
    · exact .clean h.2.1
    · exact .inl .nil
  | [condition, yes, no] =>
    simp only [List.forall_mem_cons] at h
    refine .bind (hev condition scope (.clean h.1)) fun v _ => .pure ?_
    split
    · exact .clean h.2.1
    · exact .clean h.2.2.1
  | [] | [_] | _ :: _ :: _ :: _ :: _ => exact .raise _

theorem runFunction_keeps (h : ∀ v ∈ args, v.Clean) :
    (runFunction scope args).Keeps Step.Safe (runFunction scope args) := by
  unfold runFunction
  split
  · next params body =>
    simp only [List.forall_mem_cons] at h
    split
    · exact .raise _
    · refine .bind (.allocate fun _ hheap => hheap.newClosure h.2.1) fun id _ => ?_
      exact .pure (.inl (.fn .nil))
  · exact .raise _

theorem catchClause_clean {clause : Value} (h : clause.Clean) {name : String} {handler : Value}
    (hc : catchClause? clause = some (name, handler)) : handler.Clean := by
  unfold catchClause? at hc
  split at hc
  · split at hc
    · cases hc
      simp only [clean_list, List.forall_mem_cons] at h
      exact h.1.2.2.1
    · cases hc
  · cases hc

theorem runHandle_keeps (hev : ev.Keeps ev') (h : ∀ v ∈ args, v.Clean) :
    (runHandle ev scope args).Keeps Step.Safe (runHandle ev' scope args) := by
  match args with
  | [body] => exact .pure (.clean (h body (by simp)))
  | [body, clause] =>
    simp only [List.forall_mem_cons] at h
    simp only [runHandle]
    cases hclause : catchClause? clause with
    | none => exact .raise _
    | some found =>
      have hhandler := catchClause_clean h.2.1 hclause
      refine .bind (.attempt (hev body scope (.clean h.1))) fun result hresult => ?_
      cases result with
      | ok v => exact .pure (.inl hresult)
      | error fault =>
        have hcaught : fault.toCaught.Clean := .caught hresult
        refine .bind (.enter _ (by simpa using hcaught)) fun inner _ => ?_
        exact .pure (.clean hhandler)
  | [] | _ :: _ :: _ :: _ => exact .raise _

/-- Running a special form on clean parts keeps the heap clean. -/
theorem run_keeps (hev : ev.Keeps ev') (form : SpecialForm) (fuel : Nat)
    (h : ∀ v ∈ args, v.Clean) :
    (form.run ev fuel scope args).Keeps Step.Safe (form.run ev' fuel scope args) := by
  cases form with
  | define => exact runDefine_keeps hev _ h
  | defineExpander => exact runDefine_keeps hev _ h
  | letIn => exact runLetIn_keeps hev h
  | sequence => exact runSequence_keeps hev h
  | choice => exact runChoice_keeps hev h
  | function => exact runFunction_keeps h
  | quote =>
    match args with
    | [v] => exact .pure (.inl (h v (by simp)))
    | [] | _ :: _ :: _ => exact .raise _
  | quasiquote =>
    match args with
    | [v] => exact .pure (template_safe v (h v (by simp)))
    | [] | _ :: _ :: _ => exact .raise _
  | expansion =>
    match args with
    | [v] => exact .bind (expand_keeps hev fuel (h v (by simp))) fun v hv => .pure (.inl hv)
    | [] | _ :: _ :: _ => exact .raise _
  | handle => exact runHandle_keeps hev h

end SpecialForm

theorem evalPlain_keeps (hev : ev.Keeps ev') {form : Value} (h : form.Clean) :
    (evalPlain ev form scope).Keeps Clean (evalPlain ev' form scope) := by
  unfold evalPlain
  split
  · exact .resolve scope _
  · refine .bind (.mapM fun item hitem => ?_) fun vs hvs => .pure (clean_ofVec.mpr hvs)
    exact hev item scope (.clean ((clean_vec.mp h).1 item hitem))
  · refine .bind (.mapM (Q := fun e => e.2.Clean) fun e he => ?_) fun es hes =>
      .pure (clean_ofEntries.mpr hes)
    exact .bind (hev e.2 scope (.clean ((clean_map.mp h).1 e he))) fun v hv => .pure hv
  · exact .pure h

theorem evalCall_keeps (hev : ev.Keeps ev') (fuel : Nat) {forms : List Value}
    (h : ∀ form ∈ forms, form.Safe) :
    (evalCall ev fuel forms scope).Keeps Step.Safe (evalCall ev' fuel forms scope) := by
  refine .bind (.mapM fun form hform => hev form scope (h form hform)) fun vs hvs => ?_
  cases vs with
  | nil => exact .pure (.inl (by simp))
  | cons f args =>
    have hargs := (List.forall_mem_cons.mp hvs).2
    cases f with
    | native op note =>
      exact .bind (Native.call_keeps hev fuel op hargs) fun v hv => .pure (.inl hv)
    | fn id expander note =>
      refine .bind (closure?_keeps id) fun c? hc => ?_
      cases c? with
      | none => exact Value.notCallable_keeps _
      | some c =>
        refine .bind (.enter _ (bindParams_clean (List.forall_mem_nil _) hargs)) fun inner _ => ?_
        exact .pure (.clean (hc c rfl))
    | _ => exact Value.notCallable_keeps _

theorem evalExpanded_keeps (hev : ev.Keeps ev') (fuel : Nat) {form : Value} (h : form.Clean) :
    (evalExpanded ev fuel form scope).Keeps Step.Safe (evalExpanded ev' fuel form scope) := by
  unfold evalExpanded
  split
  · next head args note =>
    have hitems := (clean_list.mp h).1
    split
    · exact SpecialForm.run_keeps hev _ fuel (List.forall_mem_cons.mp hitems).2
    · exact evalCall_keeps hev fuel fun form hform => .clean (hitems form hform)
  · exact .bind (evalPlain_keeps hev h) fun v hv => .pure (.inl hv)

end Evaluation
end MiniLisp
