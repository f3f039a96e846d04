import MiniLisp.Proofs.MatchingNatives
import MiniLisp.Proofs.Supervised

namespace MiniLisp

open Run Value

variable {F : Frame} {ρ : Matching} {op : Native} {args args' : List Value} {v v' : Value}
  {scope scope' : ScopeId} {ev ev' : Evaluator} {fuel : Nat} {α β : Type}

theorem Evaluator.Matches.mono {σ : Matching} (h : Evaluator.Matches F ρ ev ev') (hσ : ρ.Grows σ) :
    Evaluator.Matches F σ ev ev' :=
  fun _ _ _ _ _ hτ hform hscope => h (hσ.trans hτ) hform hscope

/-- The ways to call do the same with matching functions and arguments. -/
def CallsMatch (F : Frame) (ρ : Matching) (call call' : Value → List Value → Run Value) : Prop :=
  ∀ ⦃σ f f' args args'⦄, ρ.Grows σ → f.Matches σ f' → Row.Matches σ args args' →
    (call f args).Matches F σ Value.Matches (call' f' args')

theorem Row.Matches.dropLast {xs ys : List Value} (h : Row.Matches ρ xs ys) :
    Row.Matches ρ xs.dropLast ys.dropLast := by
  induction h with
  | nil => exact .nil
  | cons hxy hrest ih =>
    cases hrest with
    | nil => exact .nil
    | cons => exact .cons hxy ih

theorem Row.Matches.getLast {xs ys : List Value} (h : Row.Matches ρ xs ys) (hx : xs ≠ [])
    (hy : ys ≠ []) : (xs.getLast hx).Matches ρ (ys.getLast hy) := by
  induction h with
  | nil => exact absurd rfl hx
  | cons hxy hrest ih =>
    cases hrest with
    | nil => exact hxy
    | cons => exact ih (List.cons_ne_nil _ _) (List.cons_ne_nil _ _)

namespace Native

theorem printed_matches (style : Value.Style) (sep : String) (h : Row.Matches ρ args args') :
    (printed style sep args).Matches F ρ Same (printed style sep args') :=
  .query fun _ hσ _ _ hheap => hheap.printAll (h.mono hσ) style sep

theorem runText_matches (style : Value.Style) (sep : String) (h : Row.Matches ρ args args') :
    (runText style sep args).Matches F ρ Value.Matches (runText style sep args') := by
  refine .bind (printed_matches style sep h) ?_
  rintro _ _ text _ rfl
  exact .value (.str text)

theorem runPrintLine_matches (style : Value.Style) (h : Row.Matches ρ args args') :
    (runPrintLine style args).Matches F ρ Value.Matches (runPrintLine style args') := by
  refine .bind (printed_matches style " " h) ?_
  rintro _ _ text _ rfl
  exact .bind (.print _) fun _ _ _ _ _ => .value .nil

theorem runSlurp_matches (h : Row.Matches ρ args args') :
    (runSlurp args).Matches F ρ Value.Matches (runSlurp args') := by
  have hargs := h
  rcases h with _ | ⟨hpath, _ | _⟩
  case cons.nil =>
    refine .bind (.checked (text_matches hpath)) ?_
    rintro _ _ path _ rfl
    refine .bind (.readFile path) ?_
    rintro _ _ text _ rfl
    exact .value (.str text)
  all_goals exact .computed (wrongCount_matches _ hargs)

theorem runReadline_matches (h : Row.Matches ρ args args') :
    (runReadline args).Matches F ρ Value.Matches (runReadline args') := by
  have hargs := h
  rcases h with _ | ⟨hprompt, _ | _⟩
  case cons.nil =>
    refine .bind (.printed hprompt .display) ?_
    rintro _ _ shown _ rfl
    refine .bind (.print shown) fun _ _ _ _ _ => .bind .readLine ?_
    rintro _ _ line? _ rfl
    cases line? with
    | none => exact .value .nil
    | some line => exact .value (.str line)
  all_goals exact .computed (wrongCount_matches _ hargs)

theorem runAtom_matches (h : Row.Matches ρ args args') :
    (runAtom args).Matches F ρ Value.Matches (runAtom args') := by
  have hargs := h
  rcases h with _ | ⟨hv, _ | _⟩
  case cons.nil =>
    exact .bind (.newCell hv) fun _ _ _ _ hid => .value (.atom hid fun _ => .nil)
  all_goals exact .computed (wrongCount_matches _ hargs)

/-- The atom among the arguments. -/
theorem cell_run_matches (op : Native) (h : v.Matches ρ v') :
    Run.Matches F ρ (fun σ id id' => σ.cells.pairs id.index id'.index) (ofExcept (op.cell v))
      (ofExcept (op.cell v')) :=
  .ofExcept (cell_matches h) fun _ hσ _ _ hid => hσ.cells _ _ hid

theorem runDeref_matches (h : Row.Matches ρ args args') :
    (runDeref args).Matches F ρ Value.Matches (runDeref args') := by
  have hargs := h
  rcases h with _ | ⟨htarget, _ | _⟩
  case cons.nil =>
    refine .bind (cell_run_matches .deref htarget) fun _ _ _ _ hid => ?_
    exact .query fun _ hσ _ _ hheap => hheap.cell (hσ.cells _ _ hid)
  all_goals exact .computed (wrongCount_matches _ hargs)

theorem runReset_matches (h : Row.Matches ρ args args') :
    (runReset args).Matches F ρ Value.Matches (runReset args') := by
  have hargs := h
  rcases h with _ | ⟨htarget, _ | ⟨hv, _ | _⟩⟩
  case cons.cons.nil =>
    refine .bind (cell_run_matches .reset htarget) fun _ hσ _ _ hid => ?_
    refine .bind (.setCell hid (hv.mono hσ)) fun _ hτ _ _ _ => ?_
    exact .value (hv.mono (hσ.trans hτ))
  all_goals exact .computed (wrongCount_matches _ hargs)

theorem runTimeMs_matches :
    (runTimeMs args).Matches F ρ Value.Matches (runTimeMs args') := by
  refine .bind .now ?_
  rintro _ _ time _ rfl
  exact .value (.int time)

/-- A native that acts on the world does the same with matching arguments. -/
theorem act_matches {f : List Value → Run Value} (hop : op.behaviour = .act f)
    (h : Row.Matches ρ args args') : (f args).Matches F ρ Value.Matches (f args') := by
  cases op <;> cases hop
  case prStr => exact runText_matches .readable " " h
  case str => exact runText_matches .display "" h
  case prn => exact runPrintLine_matches .readable h
  case println => exact runPrintLine_matches .display h
  case slurp => exact runSlurp_matches h
  case readline => exact runReadline_matches h
  case atom => exact runAtom_matches h
  case deref => exact runDeref_matches h
  case reset => exact runReset_matches h
  case timeMs => exact runTimeMs_matches

section Callbacks

variable {call call' : Value → List Value → Run Value}

theorem runApply_matches (hcall : CallsMatch F ρ call call') (h : Row.Matches ρ args args') :
    (runApply call args).Matches F ρ Value.Matches (runApply call' args') := by
  have hargs := h
  rcases h with _ | ⟨hf, _ | ⟨ha, hmore⟩⟩
  case cons.cons =>
    have hrow : Row.Matches ρ (_ :: _) (_ :: _) := .cons ha hmore
    refine .bind (.checked (callable_matches hf)) fun σ hσ _ _ _ => ?_
    have hlast := (hrow.getLast (List.cons_ne_nil _ _) (List.cons_ne_nil _ _)).mono hσ
    refine .bind (.ofExcept (P := Row.Matches) (callArguments_matches hlast)
      fun _ hτ _ _ hitems => Row.Matches.mono hitems hτ) fun τ hτ items items' hitems => ?_
    exact hcall (hσ.trans hτ) (hf.mono (hσ.trans hτ))
      (List.rel_append (hrow.dropLast.mono (hσ.trans hτ)) hitems)
  all_goals exact .computed (wrongCount_matches _ hargs)

theorem runMap_matches (hcall : CallsMatch F ρ call call') (h : Row.Matches ρ args args') :
    (runMap call args).Matches F ρ Value.Matches (runMap call' args') := by
  have hargs := h
  rcases h with _ | ⟨hf, _ | ⟨hxs, _ | _⟩⟩
  case cons.cons.nil =>
    refine .bind (.checked (callable_matches hf)) fun σ hσ _ _ _ => ?_
    refine .bind (.ofExcept (P := Row.Matches) (callArguments_matches (hxs.mono hσ))
      fun _ hτ _ _ hitems => Row.Matches.mono hitems hτ) fun τ hτ items items' hitems => ?_
    refine .bind (.mapRow hitems fun υ hυ x y hxy => ?_) fun υ _ vs vs' hvs => ?_
    · have hgrown := (hσ.trans hτ).trans hυ
      exact hcall hgrown (hf.mono hgrown) (.cons hxy .nil)
    · exact .value (matches_ofList.mpr hvs)
  all_goals exact .computed (wrongCount_matches _ hargs)

theorem runSwap_matches (hcall : CallsMatch F ρ call call') (h : Row.Matches ρ args args') :
    (runSwap call args).Matches F ρ Value.Matches (runSwap call' args') := by
  have hargs := h
  rcases h with _ | ⟨htarget, _ | ⟨hf, hextra⟩⟩
  case cons.cons =>
    refine .bind (cell_run_matches .swap htarget) fun σ hσ id id' hid => ?_
    refine .bind (.checked (callable_matches (hf.mono hσ))) fun τ hτ _ _ _ => ?_
    refine .bind (P := Value.Matches) (.query fun υ hυ _ _ hheap =>
      hheap.cell ((hτ.trans hυ).cells _ _ hid)) fun υ hυ held held' hheld => ?_
    have hgrown := (hσ.trans hτ).trans hυ
    refine .bind (hcall hgrown (hf.mono hgrown)
      (.cons hheld (Row.Matches.mono hextra hgrown))) fun φ hφ v v' hv => ?_
    refine .bind (.setCell (((hτ.trans hυ).trans hφ).cells _ _ hid) hv) fun _ hψ _ _ _ => ?_
    exact .value (hv.mono hψ)
  all_goals exact .computed (wrongCount_matches _ hargs)

theorem runEval_matches (hev : Evaluator.Matches F ρ ev ev') (hscope : scope.Matches ρ scope')
    (h : Row.Matches ρ args args') :
    (runEval ev scope args).Matches F ρ Value.Matches (runEval ev' scope' args') := by
  have hargs := h
  rcases h with _ | ⟨hform, _ | _⟩
  case cons.nil =>
    refine .bind (P := ScopeId.Matches) (.query fun σ hσ _ _ hheap => hheap.root (hscope.mono hσ))
      fun σ hσ _ _ hroot => hev hσ (hform.mono hσ) hroot
  all_goals exact .computed (wrongCount_matches _ hargs)

theorem perform_matches (hev : Evaluator.Matches F ρ ev ev') (hcall : CallsMatch F ρ call call')
    (hn : op = .metadata → ρ.notes) (hscope : scope.Matches ρ scope')
    (h : Row.Matches ρ args args') :
    (op.perform ev call args scope).Matches F ρ Value.Matches
      (op.perform ev' call' args' scope') := by
  unfold perform
  split
  · next f hop => exact .computed (compute_matches hop hn h)
  · next f hop => exact act_matches hop h
  · exact runApply_matches hcall h
  · exact runMap_matches hcall h
  · exact runSwap_matches hcall h
  · exact runEval_matches hev hscope h

end Callbacks
end Native

theorem Closure.enter_matches {c c' : Closure} (hc : c.Matches ρ c') (h : Row.Matches ρ args args') :
    (c.enter args).Matches F ρ ScopeId.Matches (c'.enter args') := by
  rw [enter, enter, hc.params]
  exact .enter (.some hc.scope) (bindParams_matches .nil _ h)

theorem Closure.call_matches (hev : Evaluator.Matches F ρ ev ev') {c c' : Closure}
    (hc : c.Matches ρ c') (h : Row.Matches ρ args args') :
    (c.call ev args).Matches F ρ Value.Matches (c'.call ev' args') :=
  .bind (Closure.enter_matches hc h) fun _ hσ _ _ hinner => hev hσ (hc.body.mono hσ) hinner

theorem Value.notCallable_matches {P : Matching → α → β → Prop} (h : v.Matches ρ v') :
    (v.notCallable : Run α).Matches F ρ P (v'.notCallable : Run β) := by
  refine .bind (.printed h .readable) ?_
  rintro _ _ shown _ rfl
  exact .raise _

theorem Value.callWith_matches {native native' : Native → List Value → ScopeId → Run Value}
    (hev : Evaluator.Matches F ρ ev ev')
    (hn : ∀ {op args args'}, Row.Matches ρ args args' →
      (native op args scope).Matches F ρ Value.Matches (native' op args' scope'))
    (hf : v.Matches ρ v') (h : Row.Matches ρ args args') :
    (v.callWith ev native args scope).Matches F ρ Value.Matches
      (v'.callWith ev' native' args' scope') := by
  have hv := hf
  cases hf with
  | native op => exact hn h
  | fn expander place =>
    refine .bind (.closure? place) fun σ hσ c? c?' hc => ?_
    cases hc with
    | none => exact Value.notCallable_matches (hv.mono hσ)
    | some hc => exact Closure.call_matches (hev.mono hσ) hc (h.mono hσ)
  | _ => exact Value.notCallable_matches hv

end MiniLisp
