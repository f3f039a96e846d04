import MiniLisp.Proofs.MatchingCalls

namespace MiniLisp

open Run Value

/-- The supervisor looks at nothing that matching leaves open, and leaves the steps as they are. -/
structure Supervisor.Repeats (F : Frame) (ρ : Matching) (s : Supervisor) : Prop where
  floor : Evaluator.Matches F ρ s.floor s.floor
  step : ∀ form scope run, s.step form scope run = run
  native : ∀ {σ} {ev ev' : Evaluator} {call call' : Value → List Value → Run Value} {scope scope'}
    {args args' : List Value} (op : Native), ρ.Grows σ → Evaluator.Matches F σ ev ev' →
    CallsMatch F σ call call' → scope.Matches σ scope' → Row.Matches σ args args' →
    (s.native ev op args scope (op.perform ev call args scope)).Matches F σ Value.Matches
      (s.native ev' op args' scope' (op.perform ev' call' args' scope'))

/-- Both steps end with values that match, or go on alike. -/
inductive Step.Matches (ρ : Matching) : Step → Step → Prop
  | done {v v'} (h : v.Matches ρ v') : Matches ρ (.done v) (.done v')
  | tail {form form' scope scope'} (hform : form.Matches ρ form') (hscope : scope.Matches ρ scope') :
      Matches ρ (.tail form scope) (.tail form' scope')

variable {F : Frame} {ρ : Matching} {s : Supervisor} {ev ev' : Evaluator} {fuel : Nat}
  {form form' v v' : Value} {args args' : List Value} {scope scope' : ScopeId}

theorem Supervisor.Repeats.mono {σ : Matching} (h : s.Repeats F ρ) (hσ : ρ.Grows σ) :
    s.Repeats F σ where
  floor := h.floor.mono hσ
  step := h.step
  native op hτ := h.native op (hσ.trans hτ)

namespace Supervisor

theorem repeats_idle (hn : ρ.notes) : idle.Repeats F ρ where
  floor _ _ _ _ _ _ _ _ := .raise _
  step _ _ _ := rfl
  native _ hσ hev hcall hscope h :=
    Native.perform_matches hev hcall (fun _ => hσ.notes.mpr hn) hscope h

/-- Where metadata does not match, it must not be handed out. -/
theorem repeats_replacing_metadata :
    (replacing .metadata fun _ _ => Run.diverge).Repeats F ρ where
  floor _ _ _ _ _ _ _ _ := .raise _
  step _ _ _ := rfl
  native := by
    intro σ ev ev' call call' scope scope' args args' op _ hev hcall hscope h
    simp only [replacing]
    by_cases hop : op = .metadata
    · rw [if_pos hop, if_pos hop]
      exact .diverge
    · rw [if_neg hop, if_neg hop]
      exact Native.perform_matches hev hcall (fun heq => absurd heq hop) hscope h

end Supervisor

namespace Run.Matches

theorem done (h : v.Matches ρ v') :
    Matches F ρ Step.Matches (Pure.pure (Step.done v)) (Pure.pure (Step.done v')) :=
  pure fun _ hσ => .done (h.mono hσ)

theorem tail (hform : form.Matches ρ form') (hscope : scope.Matches ρ scope') :
    Matches F ρ Step.Matches (Pure.pure (Step.tail form scope)) (Pure.pure (Step.tail form' scope')) :=
  pure fun _ hσ => .tail (hform.mono hσ) (hscope.mono hσ)

/-- Opens a scope inside a matching one. -/
theorem enterIn (hscope : scope.Matches ρ scope') {bindings bindings' : Entries String Value}
    (hb : Entries.Matches ρ bindings bindings') :
    Matches F ρ ScopeId.Matches (Run.enter (some scope) bindings) (Run.enter (some scope') bindings') :=
  enter (.some hscope) hb

end Run.Matches

theorem Native.callUnder_matches (hs : s.Repeats F ρ) (hev : Evaluator.Matches F ρ ev ev')
    (fuel : Nat) (op : Native) (hscope : scope.Matches ρ scope') (h : Row.Matches ρ args args') :
    (Native.callUnder s ev fuel op args scope).Matches F ρ Value.Matches
      (Native.callUnder s ev' fuel op args' scope') := by
  induction fuel generalizing ρ op args args' with
  | zero => exact .diverge
  | succ fuel ih =>
    refine .bind (.checked (Arity.check_matches _ _ h.length_eq)) fun σ hσ _ _ _ => ?_
    refine hs.native op hσ (hev.mono hσ) ?_ (hscope.mono hσ) (h.mono hσ)
    intro τ f f' args args' hτ hf hargs
    have hgrown := hσ.trans hτ
    refine .bind (P := Value.Matches) ?_ fun _ _ _ _ hv => .settle hv
    exact Value.callWith_matches (hev.mono hgrown)
      (fun hargs => ih (hs.mono hgrown) (hev.mono hgrown) _ (hscope.mono hgrown) hargs) hf hargs

theorem Heap.Matches.expander? {heap heap' : Heap} (h : heap.Matches F ρ heap')
    (hform : form.Matches ρ form') (hscope : scope.Matches ρ scope') :
    Option.Rel (fun found found' => found.1.Matches ρ found'.1 ∧ Row.Matches ρ found.2 found'.2)
      (heap.expander? form scope) (heap'.expander? form' scope') := by
  have hform' := hform
  cases hform with
  | list =>
    rcases (matches_list.mp hform').1 with _ | ⟨hhead, hargs⟩
    · exact .none
    · cases hhead with
      | sym name =>
        simp only [Heap.expander?]
        rcases (h.lookup hscope name).split with ⟨hv, hv'⟩ | ⟨v, v', hv, hv', hvv⟩
        · rw [hv, hv']
          exact .none
        · rw [hv, hv']
          cases hvv with
          | fn expander place =>
            cases expander with
            | false => exact .none
            | true =>
              rcases (h.closure? place).split with ⟨hc, hc'⟩ | ⟨c, c', hc, hc', hcc⟩
              · simp only [hc, hc']
                exact .none
              · simp only [hc, hc']
                exact .some ⟨hcc, hargs⟩
          | _ => exact .none
      | _ => exact .none
  | _ => exact .none

theorem expand_matches (hev : Evaluator.Matches F ρ ev ev') (fuel : Nat)
    (hform : form.Matches ρ form') (hscope : scope.Matches ρ scope') :
    (expand ev fuel form scope).Matches F ρ Value.Matches (expand ev' fuel form' scope') := by
  have hlook : (Run.query fun heap => heap.expander? form scope).Matches F ρ
      (fun σ => Option.Rel fun found found' =>
        found.1.Matches σ found'.1 ∧ Row.Matches σ found.2 found'.2)
      (Run.query fun heap => heap.expander? form' scope') :=
    .query fun _ hσ _ _ hheap => hheap.expander? (hform.mono hσ) (hscope.mono hσ)
  induction fuel generalizing ρ form form' with
  | zero =>
    rw [expand, expand]
    refine .bind hlook fun σ hσ _ _ hfound => ?_
    cases hfound with
    | none => exact .value (hform.mono hσ)
    | some => exact .diverge
  | succ fuel ih =>
    rw [expand, expand]
    refine .bind hlook fun σ hσ _ _ hfound => ?_
    cases hfound with
    | none => exact .value (hform.mono hσ)
    | some hfound =>
      refine .bind (Closure.call_matches (hev.mono hσ) hfound.1 hfound.2) fun τ hτ form form' hform => ?_
      have hgrown := hσ.trans hτ
      exact ih (hev.mono hgrown) hform (hscope.mono hgrown)
        (.query fun _ hυ _ _ hheap => hheap.expander? (hform.mono hυ) (hscope.mono (hgrown.trans hυ)))

namespace SpecialForm

theorem wrongCount_matches (form : SpecialForm) (h : Row.Matches ρ args args') :
    (form.wrongCount args).Matches F ρ Step.Matches (form.wrongCount args') := by
  rw [wrongCount, wrongCount, h.length_eq]
  exact .raise _

theorem wrongName_matches (form : SpecialForm) (h : v.Matches ρ v') :
    ((Cause.operand form.name "symbol" v.typeName).raise : Run Step).Matches F ρ Step.Matches
      (Cause.operand form.name "symbol" v'.typeName).raise := by
  rw [h.typeName]
  exact .raise _

theorem symbolName?_eq (h : v.Matches ρ v') : symbolName? v = symbolName? v' := by
  cases h <;> rfl

theorem toExpander_matches (h : v.Matches ρ v') :
    (toExpander v).Matches F ρ Value.Matches (toExpander v') := by
  have hv := h
  cases h with
  | fn expander place metadata =>
    refine .bind (.closure? place) fun σ hσ c? c?' hc => ?_
    cases hc with
    | none => exact .value (hv.mono hσ)
    | some hc =>
      refine .bind (.newClosure hc) fun τ hτ id id' hid => .value (.fn true hid fun hn => ?_)
      have hgrown := hσ.trans hτ
      exact (metadata (hgrown.notes.mp hn)).mono hgrown
  | _ => exact .value hv

theorem runDefine_matches (hev : Evaluator.Matches F ρ ev ev') (form : SpecialForm)
    (hscope : scope.Matches ρ scope') (h : Row.Matches ρ args args') :
    (form.runDefine ev scope args).Matches F ρ Step.Matches (form.runDefine ev' scope' args') := by
  have hargs := h
  rcases h with _ | ⟨hname, _ | ⟨hexpr, _ | _⟩⟩
  · exact wrongCount_matches form hargs
  · cases hname <;> exact wrongCount_matches form hargs
  · have hname' := hname
    cases hname with
    | sym name =>
      rw [runDefine_symbol, runDefine_symbol]
      refine .bind (P := Value.Matches) (.bind (hev .refl hexpr hscope) fun σ hσ v v' hv => ?_)
        fun σ hσ v v' hv => ?_
      · by_cases hform : form = defineExpander
        · simp only [hform, if_true]
          exact toExpander_matches hv
        · simp only [hform, if_false]
          exact .value hv
      · exact .bind (.bindName (hscope.mono hσ) name hv) fun _ hτ _ _ _ => .done (hv.mono hτ)
    | _ => exact wrongName_matches form hname'
  · cases hname <;> exact wrongCount_matches form hargs

theorem bindAll_matches (hev : Evaluator.Matches F ρ ev ev') (hscope : scope.Matches ρ scope')
    {row row' : List Value} (h : Row.Matches ρ row row') :
    (bindAll ev scope row).Matches F ρ Same (bindAll ev' scope' row') := by
  induction row using bindAll.induct generalizing ρ row' with
  | case1 name expr more ih =>
    rcases h with _ | ⟨hname, _ | ⟨hexpr, hmore⟩⟩
    cases hname
    rw [bindAll, bindAll]
    refine .bind (hev .refl hexpr hscope) fun σ hσ v v' hv => ?_
    refine .bind (.bindName (hscope.mono hσ) name hv) fun τ hτ _ _ _ => ?_
    have hgrown := hσ.trans hτ
    exact ih (hev.mono hgrown) (hscope.mono hgrown) (Row.Matches.mono hmore hgrown)
  | case2 v expr more hne =>
    rcases h with _ | ⟨hname, _ | ⟨hexpr, hmore⟩⟩
    cases hname with
    | sym name => exact absurd rfl (hne name)
    | _ => exact .raise _
  | case3 row hne hne' =>
    rcases h with _ | ⟨hname, _ | ⟨hexpr, hmore⟩⟩
    · exact .same _
    · cases hname <;> exact .same _
    · exact absurd rfl (hne' _ _ _)

theorem runLetIn_matches (hev : Evaluator.Matches F ρ ev ev') (hscope : scope.Matches ρ scope')
    (h : Row.Matches ρ args args') :
    (runLetIn ev scope args).Matches F ρ Step.Matches (runLetIn ev' scope' args') := by
  have hargs := h
  rcases h with _ | ⟨hbindings, _ | ⟨hbody, _ | _⟩⟩
  case cons.cons.nil =>
    rw [runLetIn_pair, runLetIn_pair]
    rcases hbindings.elements?.split with ⟨hrow, hrow'⟩ | ⟨row, row', hrow, hrow', hrows⟩
    · rw [hrow, hrow']
      exact .raise _
    · rw [hrow, hrow']
      simp only [List.Forall₂.length_eq hrows]
      by_cases hodd : row'.length % 2 = 1
      · simp only [hodd, if_true]
        exact .raise _
      · simp only [hodd, if_false]
        refine .bind (.enterIn hscope .nil) fun σ hσ inner inner' hinner => ?_
        refine .bind (bindAll_matches (hev.mono hσ) hinner (Row.Matches.mono hrows hσ))
          fun τ hτ _ _ _ => ?_
        exact .tail (hbody.mono (hσ.trans hτ)) (hinner.mono hτ)
  all_goals exact wrongCount_matches letIn hargs

theorem runSequence_cons (ev : Evaluator) (scope : ScopeId) (form next : Value) (more : List Value) :
    runSequence ev scope (form :: next :: more) =
      discard (ev form scope) >>= fun _ => runSequence ev scope (next :: more) :=
  rfl

theorem runSequence_matches (hev : Evaluator.Matches F ρ ev ev') (hscope : scope.Matches ρ scope')
    (h : Row.Matches ρ args args') :
    (runSequence ev scope args).Matches F ρ Step.Matches (runSequence ev' scope' args') := by
  induction args using runSequence.induct generalizing ρ args' with
  | case1 =>
    cases h
    exact .done .nil
  | case2 last =>
    rcases h with _ | ⟨hlast, _ | _⟩
    exact .tail hlast hscope
  | case3 form more hne ih =>
    rcases h with _ | ⟨hform, _ | ⟨hnext, hmore⟩⟩
    · exact absurd rfl hne
    · rw [runSequence_cons, runSequence_cons, discard_eq, discard_eq]
      refine .bind (P := Same) ?_ fun σ hσ _ _ _ => ?_
      · exact .bind (hev .refl hform hscope) fun _ _ _ _ _ => .same _
      · exact ih (hev.mono hσ) (hscope.mono hσ) (Row.Matches.mono (.cons hnext hmore) hσ)

theorem runChoice_matches (hev : Evaluator.Matches F ρ ev ev') (hscope : scope.Matches ρ scope')
    (h : Row.Matches ρ args args') :
    (runChoice ev scope args).Matches F ρ Step.Matches (runChoice ev' scope' args') := by
  have hargs := h
  rcases h with _ | ⟨hcondition, _ | ⟨hyes, _ | ⟨hno, _ | _⟩⟩⟩
  case cons.cons.nil =>
    refine .bind (hev .refl hcondition hscope) fun σ hσ v v' hv => ?_
    rw [hv.isTruthy]
    split
    · exact .tail (hyes.mono hσ) (hscope.mono hσ)
    · exact .done .nil
  case cons.cons.cons.nil =>
    refine .bind (hev .refl hcondition hscope) fun σ hσ v v' hv => ?_
    rw [hv.isTruthy]
    split
    · exact .tail (hyes.mono hσ) (hscope.mono hσ)
    · exact .tail (hno.mono hσ) (hscope.mono hσ)
  all_goals exact wrongCount_matches choice hargs

theorem params?_eq (h : v.Matches ρ v') : params? v = params? v' := by
  have hnames : ∀ {xs ys : List Value}, Row.Matches ρ xs ys →
      xs.mapM symbolName? = ys.mapM symbolName? := by
    intro xs ys hxy
    induction hxy with
    | nil => rfl
    | cons hx _ ih => rw [List.mapM_cons, List.mapM_cons, symbolName?_eq hx, ih]
  rw [params?, params?]
  rcases h.elements?.split with ⟨he, he'⟩ | ⟨xs, ys, he, he', hxy⟩
  · rw [he, he']
  · rw [he, he', Option.bind_eq_bind, Option.bind_eq_bind, Option.bind_some, Option.bind_some,
      hnames hxy]

theorem runFunction_matches (hscope : scope.Matches ρ scope') (h : Row.Matches ρ args args') :
    (runFunction scope args).Matches F ρ Step.Matches (runFunction scope' args') := by
  have hargs := h
  rcases h with _ | ⟨hparams, _ | ⟨hbody, _ | _⟩⟩
  case cons.cons.nil =>
    simp only [runFunction, params?_eq hparams]
    split
    · exact .raise _
    · exact .bind (.newClosure ⟨rfl, hbody, hscope⟩) fun _ _ _ _ hid =>
        .done (.fn false hid fun _ => .nil)
  all_goals exact wrongCount_matches function hargs

theorem catchClause?_matches (h : v.Matches ρ v') :
    Option.Rel (fun found found' => found.1 = found'.1 ∧ found.2.Matches ρ found'.2)
      (catchClause? v) (catchClause? v') := by
  have hv := h
  cases h with
  | list =>
    rcases (matches_list.mp hv).1 with _ | ⟨hmark, _ | ⟨hname, _ | ⟨hhandler, _ | _⟩⟩⟩
    case cons.cons.cons.nil =>
      cases hmark with
      | sym mark =>
        cases hname with
        | sym name =>
          simp only [catchClause?]
          split
          · exact .some ⟨rfl, hhandler⟩
          · exact .none
        | _ => exact .none
      | _ => exact .none
    all_goals first
      | exact .none
      | (cases hmark <;> first | exact .none | (cases hname <;> exact .none))
  | _ => exact .none

theorem runHandle_matches (hev : Evaluator.Matches F ρ ev ev') (hscope : scope.Matches ρ scope')
    (h : Row.Matches ρ args args') :
    (runHandle ev scope args).Matches F ρ Step.Matches (runHandle ev' scope' args') := by
  have hargs := h
  rcases h with _ | ⟨hbody, _ | ⟨hclause, _ | _⟩⟩
  case cons.nil => exact .tail hbody hscope
  case cons.cons.nil =>
    simp only [runHandle]
    rcases (catchClause?_matches hclause).split with ⟨hc, hc'⟩ | ⟨found, found', hc, hc', hfound⟩
    · rw [hc, hc']
      exact .raise _
    · obtain ⟨name, handler⟩ := found
      obtain ⟨name', handler'⟩ := found'
      obtain ⟨rfl, hhandler⟩ := hfound
      rw [hc, hc']
      refine .bind (.attempt (hev .refl hbody hscope)) fun σ hσ result result' hresult => ?_
      cases hresult with
      | ok hv => exact .done hv
      | error hfault =>
        refine .bind (.enterIn (hscope.mono hσ) (.cons ⟨rfl, hfault.toCaught⟩ .nil))
          fun τ hτ _ _ hinner => ?_
        exact .tail (hhandler.mono (hσ.trans hτ)) hinner
  all_goals exact wrongCount_matches handle hargs

/-- Every special form does the same with matching arguments. -/
theorem run_matches (hev : Evaluator.Matches F ρ ev ev') (form : SpecialForm) (fuel : Nat)
    (hscope : scope.Matches ρ scope') (h : Row.Matches ρ args args') :
    (form.run ev fuel scope args).Matches F ρ Step.Matches (form.run ev' fuel scope' args') := by
  cases form with
  | define => exact runDefine_matches hev _ hscope h
  | defineExpander => exact runDefine_matches hev _ hscope h
  | letIn => exact runLetIn_matches hev hscope h
  | sequence => exact runSequence_matches hev hscope h
  | choice => exact runChoice_matches hev hscope h
  | function => exact runFunction_matches hscope h
  | quote =>
    have hargs := h
    rcases h with _ | ⟨hv, _ | _⟩
    case cons.nil => exact .done hv
    all_goals exact wrongCount_matches quote hargs
  | quasiquote =>
    have hargs := h
    rcases h with _ | ⟨hv, _ | _⟩
    case cons.nil => exact .tail (template_matches _ _ hv) hscope
    all_goals exact wrongCount_matches quasiquote hargs
  | expansion =>
    have hargs := h
    rcases h with _ | ⟨hv, _ | _⟩
    case cons.nil => exact .bind (expand_matches hev fuel hv hscope) fun _ _ _ _ hv => .done hv
    all_goals exact wrongCount_matches expansion hargs
  | handle => exact runHandle_matches hev hscope h

end SpecialForm

theorem evalPlain_matches (hev : Evaluator.Matches F ρ ev ev') (hform : form.Matches ρ form')
    (hscope : scope.Matches ρ scope') :
    (evalPlain ev form scope).Matches F ρ Value.Matches (evalPlain ev' form' scope') := by
  have hform' := hform
  cases hform with
  | sym name => exact .resolve hscope name
  | vec =>
    refine .bind (.mapRow (matches_vec.mp hform').1 fun σ hσ _ _ hitem => ?_) fun _ _ _ _ hitems => ?_
    · exact hev hσ hitem (hscope.mono hσ)
    · exact .value (matches_ofVec.mpr hitems)
  | map =>
    refine .bind (.mapEntries (matches_map.mp hform').1 fun σ hσ key x y hxy => ?_)
      fun _ _ _ _ hentries => ?_
    · exact .bind (hev hσ hxy (hscope.mono hσ)) fun τ _ v v' hv => .pure fun _ hυ => ⟨rfl, hv.mono hυ⟩
    · exact .value (matches_ofEntries.mpr hentries)
  | _ => exact .value hform'

theorem evalCallUnder_matches (hs : s.Repeats F ρ) (hev : Evaluator.Matches F ρ ev ev') (fuel : Nat)
    {forms forms' : List Value} (h : Row.Matches ρ forms forms') (hscope : scope.Matches ρ scope') :
    (evalCallUnder s ev fuel forms scope).Matches F ρ Step.Matches
      (evalCallUnder s ev' fuel forms' scope') := by
  refine .bind (.mapRow h fun σ hσ _ _ hform => hev hσ hform (hscope.mono hσ))
    fun σ hσ vs vs' hvs => ?_
  rcases hvs with _ | ⟨hf, hargs⟩
  · exact .done (matches_ofList.mpr .nil)
  · have hf' := hf
    cases hf with
    | native op =>
      refine .bind (Native.callUnder_matches (hs.mono hσ) (hev.mono hσ) fuel op (hscope.mono hσ) hargs)
        fun _ _ _ _ hv => .done hv
    | fn expander place =>
      refine .bind (.closure? place) fun τ hτ c? c?' hc => ?_
      cases hc with
      | none => exact Value.notCallable_matches (hf'.mono hτ)
      | some hc =>
        refine .bind (Closure.enter_matches hc (Row.Matches.mono hargs hτ)) fun υ hυ _ _ hinner => ?_
        exact .tail (hc.body.mono hυ) hinner
    | _ => exact Value.notCallable_matches hf'

theorem evalStepUnder_matches (hs : s.Repeats F ρ) (hev : Evaluator.Matches F ρ ev ev') (fuel : Nat)
    (hform : form.Matches ρ form') (hscope : scope.Matches ρ scope') :
    (evalStepUnder s ev fuel form scope).Matches F ρ Step.Matches
      (evalStepUnder s ev' fuel form' scope') := by
  refine .bind (expand_matches hev fuel hform hscope) fun σ hσ expanded expanded' hexpanded => ?_
  have hscope' := hscope.mono hσ
  have hev' := hev.mono hσ
  have hplain := evalPlain_matches (F := F) hev' hexpanded hscope'
  have hexpanded' := hexpanded
  cases hexpanded with
  | list =>
    have hrow := (matches_list.mp hexpanded').1
    rcases (matches_list.mp hexpanded').1 with _ | ⟨hhead, hargs⟩
    · exact .bind hplain fun _ _ _ _ hv => .done hv
    · simp only [SpecialForm.symbolName?_eq hhead]
      generalize (SpecialForm.symbolName? _).bind SpecialForm.ofName? = special
      cases special with
      | none => exact evalCallUnder_matches (hs.mono hσ) hev' fuel hrow hscope'
      | some special => exact SpecialForm.run_matches hev' special fuel hscope' hargs
  | _ => exact .bind hplain fun _ _ _ _ hv => .done hv

theorem evalStepsUnder_matches (hs : s.Repeats F ρ) (hev : Evaluator.Matches F ρ ev ev')
    (fuel steps : Nat) (hform : form.Matches ρ form') (hscope : scope.Matches ρ scope') :
    (evalStepsUnder s ev fuel steps form scope).Matches F ρ Value.Matches
      (evalStepsUnder s ev' fuel steps form' scope') := by
  induction steps generalizing ρ form form' scope scope' with
  | zero => exact .diverge
  | succ steps ih =>
    rw [evalStepsUnder, evalStepsUnder, hs.step, hs.step]
    refine .bind (evalStepUnder_matches hs hev fuel hform hscope) fun σ hσ step step' hstep => ?_
    cases hstep with
    | done hv => exact .settle hv
    | tail hform hscope => exact ih (hs.mono hσ) (hev.mono hσ) hform hscope

/-- Evaluation does the same with matching forms, as long as it does not look at metadata that need
not match. -/
theorem evalUnder_matches (hs : s.Repeats F ρ) (fuel levels : Nat) :
    Evaluator.Matches F ρ (evalUnder s fuel levels) (evalUnder s fuel levels) := by
  induction levels with
  | zero => exact hs.floor
  | succ levels ih =>
    -- What the levels below need is still so when the matching has grown.
    intro σ form form' scope scope' hσ hform hscope
    exact evalStepsUnder_matches (hs.mono hσ) (ih.mono hσ) fuel fuel hform hscope

end MiniLisp
