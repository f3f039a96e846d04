import MiniLisp.Proofs.Guarded
import MiniLisp.Proofs.Template

namespace MiniLisp

open Value Run

/-- A value in front of the elements of another one. -/
def Run.putBefore (v rest : Value) : Run Value := do
  return ofList (v :: (← ofExcept (Native.cons.elementsOrNil rest)))

/-- The elements of a value in front of those of another one. -/
def Run.spliceBefore (v rest : Value) : Run Value := do
  let items ← ofExcept (Native.concat.elementsOrNil v)
  return ofList (items ++ (← ofExcept (Native.concat.elementsOrNil rest)))

namespace Value

mutual

/-- Fills in a template, with no form in between. -/
def fill (ev : Value → Run Value) : Value → Run Value
  | list items note => if items.isEmpty then pure (list items note) else fillItems ev items
  | vec items note => if items.isEmpty then pure (vec items note) else fillItems ev items
  | v => Run.settle v

/-- Fills in a row of parts: the first one, then the others, and puts the results together. -/
def fillItems (ev : Value → Run Value) : List Value → Run Value
  | [] => pure (ofList [])
  | part :: parts =>
    if part.isSymbol "unquote" then
      match parts with
      | [form] => ev form
      | _ => (Cause.arity "unquote" (.exactly 1) parts.length).raise
    else
      match spliced? part with
      | some [form] => do
        let v ← ev form
        Run.spliceBefore v (← fillItems ev parts)
      | some forms => (Cause.arity "splice-unquote" (.exactly 1) forms.length).raise
      | none => do
        let v ← fill ev part
        Run.putBefore v (← fillItems ev parts)

end

theorem fillItems_cons (ev : Value → Run Value) {part : Value} (parts : List Value)
    (hq : part.isSymbol "unquote" = false) :
    fillItems ev (part :: parts) =
      match spliced? part with
      | some [form] => ev form >>= fun v => fillItems ev parts >>= Run.spliceBefore v
      | some forms => (Cause.arity "splice-unquote" (.exactly 1) forms.length).raise
      | none => fill ev part >>= fun v => fillItems ev parts >>= Run.putBefore v := by
  rw [fillItems.eq_def]
  simp only [hq]
  rfl

end Value

/-- In the scope, the names that stand in the forms of templates mean what they say. -/
structure Heap.TemplateNames (heap : Heap) (scope : ScopeId) : Prop where
  joins : ∀ op, op = .cons ∨ op = .concat →
    ∃ note, heap.scopes.lookup scope op.name = some (.native op note)
  quote : ∀ id note, heap.scopes.lookup scope "quote" ≠ some (.fn id true note)

/-- The native puts a part and the rest of a row together. -/
structure Native.Joins (op : Native) (join : Value → Value → Run Value) : Prop where
  known : op = .cons ∨ op = .concat
  call : ∀ ev fuel v rest scope, Native.call ev (fuel + 1) op [v, rest] scope = join v rest
  settled : ∀ v rest, (join v rest >>= Run.settle) = join v rest
  still : ∀ v rest w ending, (join v rest).outcome w = some ending → ending.2 = w

namespace Native

theorem cons_joins : cons.Joins putBefore where
  known := .inl rfl
  call := by
    intro ev fuel v rest scope
    change (ofExcept (runCons [v, rest]) : Run Value) = _
    simp only [runCons, putBefore]
    cases cons.elementsOrNil rest <;> rfl
  settled := by
    intro v rest
    simp only [putBefore, bind_assoc]
    rfl
  still := by
    intro v rest w ending h
    simp only [putBefore] at h
    cases hr : cons.elementsOrNil rest <;> rw [hr] at h <;> cases h <;> rfl

theorem concat_joins : concat.Joins spliceBefore where
  known := .inr rfl
  call := by
    intro ev fuel v rest scope
    change (ofExcept (runConcat [v, rest]) : Run Value) = _
    simp only [runConcat, spliceBefore, List.mapM_cons, List.mapM_nil]
    cases concat.elementsOrNil v with
    | error fault => rfl
    | ok items =>
      cases concat.elementsOrNil rest with
      | error fault => rfl
      | ok items' =>
        change (pure (ofList [items, items'].flatten) : Run Value) = pure (ofList (items ++ items'))
        rw [List.flatten_cons, List.flatten_singleton]
  settled := by
    intro v rest
    simp only [spliceBefore, bind_assoc]
    rfl
  still := by
    intro v rest w ending h
    simp only [spliceBefore] at h
    cases hv : concat.elementsOrNil v with
    | error fault =>
      rw [hv] at h
      cases h
      rfl
    | ok items =>
      rw [hv] at h
      cases hr : concat.elementsOrNil rest <;> rw [hr] at h <;> cases h <;> rfl

theorem Joins.heading? {op : Native} {join : Value → Value → Run Value} (h : op.Joins join)
    (args : List Value) : SpecialForm.heading? (.sym op.name :: args) = none := by
  rcases h.known with rfl | rfl <;> rfl

end Native

/-- A relation between forms and what they come to, with a rule for each way in which a template
becomes a form. -/
structure TemplateRelation (R : Value → Run Value → Prop) : Prop where
  quoted : ∀ v, R v.quoted (Run.settle v)
  wrongMarker : ∀ name forms,
    R (wrongMarker name forms) (Cause.arity name (.exactly 1) forms.length).raise
  join : ∀ {op joined}, Native.Joins op joined → ∀ {a b runA runB}, R a runA → R b runB →
    R (ofList [.sym op.name, a, b]) (runA >>= fun v => runB >>= joined v)

namespace TemplateRelation

variable {R : Value → Run Value → Prop} {ev : Value → Run Value}

mutual

/-- The form that a template becomes is related to filling in the template. -/
theorem template (hR : TemplateRelation R) (hev : ∀ form, R form (ev form)) (t : Value) :
    R t.template (t.fill ev) := by
  cases t with
  | list items note =>
    rw [Value.template, fill]
    split
    · exact hR.quoted (.list items note)
    · exact hR.templateItems hev items
  | vec items note =>
    rw [Value.template, fill]
    split
    · exact hR.quoted (.vec items note)
    · exact hR.templateItems hev items
  | _ => exact hR.quoted _

theorem templateItems (hR : TemplateRelation R) (hev : ∀ form, R form (ev form))
    (items : List Value) : R (Value.templateItems items) (fillItems ev items) := by
  cases items with
  | nil => exact hR.quoted (ofList [])
  | cons part parts =>
    by_cases hq : part.isSymbol "unquote" = true
    · match parts with
      | [form] =>
        simp only [Value.templateItems, fillItems, hq, if_true]
        exact hev form
      | [] | _ :: _ :: _ =>
        simp only [Value.templateItems, fillItems, hq, if_true]
        exact hR.wrongMarker _ _
    · have hrest := hR.templateItems hev parts
      rw [templateItems_cons parts (Bool.eq_false_iff.mpr hq),
        fillItems_cons ev parts (Bool.eq_false_iff.mpr hq)]
      cases hs : spliced? part with
      | none => exact hR.join Native.cons_joins (hR.template hev part) hrest
      | some forms =>
        match forms with
        | [form] => exact hR.join Native.concat_joins (hev form) hrest
        | [] | _ :: _ :: _ => exact hR.wrongMarker _ _

end

end TemplateRelation

section Steps

variable {ev : Evaluator} {fuel : Nat} {scope : ScopeId} {w : World} {op : Native}
  {join : Value → Value → Run Value} {a b note : Value}

theorem evalStep_quoted (hw : w.heap.TemplateNames scope) (v : Value) :
    (evalStep ev fuel v.quoted scope).outcome w = some (.ok (.done v), w) :=
  (evalStep_same (Heap.expander?_of_lookup _ _ hw.quote)).trans rfl

theorem evalStep_wrongMarker (name : String) (forms : List Value) :
    (evalStep ev fuel (wrongMarker name forms) scope).outcome w =
      some (.ok (.done (wrongMarker name forms)), w) :=
  rfl

theorem evalStep_join (hop : op.Joins join) (hw : w.heap.TemplateNames scope) :
    (evalStep ev fuel (ofList [.sym op.name, a, b]) scope).outcome w =
      (evalCall ev fuel [.sym op.name, a, b] scope).outcome w := by
  obtain ⟨note, hl⟩ := hw.joins op hop.known
  have hsame : w.heap.expander? (ofList [.sym op.name, a, b]) scope = none :=
    Heap.expander?_of_lookup _ _ fun id note' hfn => by
      rw [hl] at hfn
      cases hfn
  rw [evalStep_same hsame, ofList, evalExpanded_call _ (List.cons_ne_nil _ _) (hop.heading? _)]

/-- With its name evaluated, a join evaluates the part, then the rest, and puts them together. -/
theorem evalCall_join (hop : op.Joins join) (tail : Evaluator)
    (hname : (ev (.sym op.name) scope).outcome w = some (.ok (.native op note), w)) :
    (evalCall ev (fuel + 1) [.sym op.name, a, b] scope >>= Step.finish tail).outcome w =
      (ev a scope >>= fun v => ev b scope >>= join v).outcome w := by
  have hsettled : ∀ v rest, (join v rest >>= fun x => Step.finish tail (.done x)) = join v rest :=
    hop.settled
  simp only [evalCall, List.mapM_cons, List.mapM_nil, bind_assoc, pure_bind]
  rw [outcome_bind_ok _ hname]
  simp only [bind_assoc, pure_bind, hop.call, hsettled]

/-- Nothing is made of a call before its name is evaluated. -/
theorem evalCall_starts {form : Value} {forms : List Value} {ending : Except Fault Step × World}
    (h : (evalCall ev fuel (form :: forms) scope).outcome w = some ending) :
    ∃ first, (ev form scope).outcome w = some first := by
  cases hf : (ev form scope).outcome w with
  | some first => exact ⟨first, rfl⟩
  | none => simp [evalCall, List.mapM_cons, outcome_bind, hf] at h

end Steps

section Evaluated

variable {fuel levels : Nat} {scope : ScopeId} {op : Native} {join : Value → Value → Run Value}

/-- Evaluation that ends only if the names mean what they say throughout. -/
noncomputable abbrev evalGuarded (scope : ScopeId) : Nat → Nat → Evaluator :=
  evalUnder (.guarding (·.heap.TemplateNames scope))

/-- A form that is done at the first step comes to its value. -/
theorem done_below {form v : Value}
    (h : ∀ ev w, w.heap.TemplateNames scope →
      (evalStep ev fuel form scope).outcome w = some (.ok (.done v), w)) :
    (evalGuarded scope fuel levels form scope).Below (Run.settle v) := by
  intro w ending hends
  obtain ⟨hw, _, _, _, -, -, hstep⟩ := evalUnder_guarding_step hends
  rwa [outcome_bind_ok _ (h _ w hw)] at hstep

/-- If all its parts come to something, so does the form that joins them. -/
theorem join_below (hop : op.Joins join) {a b : Value} {runA runB : Run Value}
    (ha : ∀ l, l ≤ levels → (evalGuarded scope fuel l a scope).Below runA)
    (hb : ∀ l, l ≤ levels → (evalGuarded scope fuel l b scope).Below runB) :
    (evalGuarded scope fuel levels (ofList [.sym op.name, a, b]) scope).Below
      (runA >>= fun v => runB >>= join v) := by
  intro w ending hends
  obtain ⟨hw, fuel', levels', tail, rfl, rfl, hstep⟩ := evalUnder_guarding_step hends
  obtain ⟨note, hl⟩ := hw.joins op hop.known
  rw [outcome_bind, evalStep_join hop hw, ← outcome_bind] at hstep
  -- As the call ends, the evaluation of its name does, and there the names are good for a step.
  have hname : (evalGuarded scope (fuel' + 1) levels' (.sym op.name) scope).outcome w =
      some (.ok (.native op note), w) := by
    obtain ⟨call, hcall, -⟩ := Option.bind_eq_some_iff.mp ((outcome_bind _ _ w).symm.trans hstep)
    obtain ⟨first, hfirst⟩ := evalCall_starts hcall
    obtain ⟨-, _, _, _, -, -, hsym⟩ := evalUnder_guarding_step hfirst
    rw [outcome_bind_ok _ (evalStep_symbol hl)] at hsym
    exact hfirst.trans hsym.symm
  rw [evalCall_join hop tail hname] at hstep
  refine Below.bind (ha levels' (Nat.le_succ levels')) (fun v => ?_) w ending hstep
  exact .bind (hb levels' (Nat.le_succ levels')) fun _ => .refl _

theorem below_templateRelation (levels : Nat) :
    TemplateRelation fun form run =>
      ∀ l, l ≤ levels → (evalGuarded scope fuel l form scope).Below run where
  quoted := fun v _ _ => done_below fun _ _ hw => evalStep_quoted hw v
  wrongMarker := fun name forms _ _ => done_below fun _ _ _ => evalStep_wrongMarker name forms
  join := by
    intro op joined hop a b runA runB ha hb l hl
    refine join_below hop (fun l' hl' => ?_) fun l' hl' => ?_
    · exact ha l' (Nat.le_trans hl' hl)
    · exact hb l' (Nat.le_trans hl' hl)

end Evaluated

section Filled

variable {scope : ScopeId} {op : Native} {joined : Value → Value → Run Value}

/-- Evaluates, and goes on only if the names still mean what they say. -/
noncomputable def evalChecked (ev : Evaluator) (scope : ScopeId) (form : Value) : Run Value := do
  let v ← ev form scope
  Run.byWorld (·.heap.TemplateNames scope) (pure v) Run.diverge

/-- As long as the names mean what they say, the recursive evaluation of the form with enough fuel ends
as the run does, and they still do after it. -/
def ComesTo (scope : ScopeId) (form : Value) (run : Run Value) : Prop :=
  ∃ least, ∀ n, least ≤ n → ∀ w result w', w.heap.TemplateNames scope →
    run.outcome w = some (result, w') →
    (Recursive.eval n form scope).outcome w = some (result, w') ∧
      ∀ v, result = .ok v → w'.heap.TemplateNames scope

theorem ComesTo.unquoted (n : Nat) (form : Value) :
    ComesTo scope form (evalChecked (Recursive.eval n) scope form) := by
  refine ⟨n, fun m hm w result w' hw hends => ?_⟩
  rcases outcome_bind_some hends with ⟨v, w₁, hv, hcheck⟩ | ⟨fault, hfault, rfl⟩
  · by_cases hw₁ : w₁.heap.TemplateNames scope
    · rw [outcome_byWorld_of _ _ _ hw₁] at hcheck
      cases hcheck
      exact ⟨Recursive.eval_below hm form scope w _ hv, fun _ _ => hw₁⟩
    · rw [outcome_byWorld_not _ _ _ hw₁] at hcheck
      cases hcheck
  · exact ⟨Recursive.eval_below hm form scope w _ hfault, fun _ h => by cases h⟩

theorem ComesTo.done {form v : Value}
    (h : ∀ ev fuel w, w.heap.TemplateNames scope →
      (evalStep ev fuel form scope).outcome w = some (.ok (.done v), w)) :
    ComesTo scope form (Run.settle v) := by
  refine ⟨1, fun n hn w result w' hw hends => ?_⟩
  obtain ⟨n, rfl⟩ : ∃ m, n = m + 1 := ⟨n - 1, by omega⟩
  rw [Recursive.eval_succ, outcome_bind_ok _ (h _ _ w hw)]
  refine ⟨hends, fun _ _ => ?_⟩
  have hsame : w' = w := by
    cases v <;> cases hends <;> rfl
  rw [hsame]
  exact hw

theorem ComesTo.join (hop : op.Joins joined) {a b : Value} {runA runB : Run Value}
    (ha : ComesTo scope a runA) (hb : ComesTo scope b runB) :
    ComesTo scope (ofList [.sym op.name, a, b]) (runA >>= fun v => runB >>= joined v) := by
  obtain ⟨leastA, ha⟩ := ha
  obtain ⟨leastB, hb⟩ := hb
  -- One call of the evaluator is for the joining form, one more for its name.
  refine ⟨leastA + leastB + 2, fun n hn w result w' hw hends => ?_⟩
  obtain ⟨n, rfl⟩ : ∃ m, n = m + 2 := ⟨n - 2, by omega⟩
  obtain ⟨note, hl⟩ := hw.joins op hop.known
  have hname : (Recursive.eval (n + 1) (.sym op.name) scope).outcome w =
      some (.ok (.native op note), w) := by
    rw [Recursive.eval_succ, outcome_bind_ok _ (evalStep_symbol hl)]
    rfl
  rw [Recursive.eval_succ, outcome_bind, evalStep_join hop hw, ← outcome_bind,
    evalCall_join hop _ hname]
  rcases outcome_bind_some hends with ⟨v, w₁, hv, hrest⟩ | ⟨fault, hfault, rfl⟩
  · obtain ⟨hv', hw₁⟩ := ha (n + 1) (by omega) w _ w₁ hw hv
    rw [outcome_bind_ok _ hv']
    rcases outcome_bind_some hrest with ⟨rest, w₂, hr, hjoin⟩ | ⟨fault, hfault, rfl⟩
    · obtain ⟨hr', hw₂⟩ := hb (n + 1) (by omega) w₁ _ w₂ (hw₁ v rfl) hr
      rw [outcome_bind_ok _ hr']
      refine ⟨hjoin, fun _ _ => ?_⟩
      have hstill : w' = w₂ := hop.still v rest w₂ _ hjoin
      rw [hstill]
      exact hw₂ rest rfl
    · obtain ⟨hfault', -⟩ := hb (n + 1) (by omega) w₁ _ w' (hw₁ v rfl) hfault
      exact ⟨outcome_bind_error _ hfault', fun _ h => by cases h⟩
  · obtain ⟨hfault', -⟩ := ha (n + 1) (by omega) w _ w' hw hfault
    exact ⟨outcome_bind_error _ hfault', fun _ h => by cases h⟩

theorem comesTo_templateRelation : TemplateRelation (ComesTo scope) where
  quoted := fun v => .done fun _ _ _ hw => evalStep_quoted hw v
  wrongMarker := fun name forms => .done fun _ _ _ _ => evalStep_wrongMarker name forms
  join := .join

end Filled

/-- Evaluating the form that a template becomes does what filling in the template does: it has the same
result, a value or a failure, in the same world. As long as the names in the form mean what they say
and the limit on levels is not met, filling in ends as the evaluation does; and if filling in ends, and
the names still mean what they say after each unquoted form, so does the evaluation with enough
fuel. -/
theorem template_comes_to_fill (t : Value) (scope : ScopeId) (w : World)
    (ending : Except Fault Value × World) :
    (∀ fuel levels, WithinLimitWhile (·.heap.TemplateNames scope) fuel levels t.template scope w →
      (evalWithin fuel levels t.template scope).outcome w = some ending →
      (t.fill fun form => evalWithin fuel levels form scope).outcome w = some ending ∧
      ∃ least, ∀ n, least ≤ n →
        (t.fill fun form => Recursive.eval n form scope).outcome w = some ending) ∧
    ∀ n, w.heap.TemplateNames scope →
      (t.fill (evalChecked (Recursive.eval n) scope)).outcome w = some ending →
      ∃ least, ∀ fuel levels, least ≤ fuel → WithinLimit fuel levels t.template scope w →
        (evalWithin fuel levels t.template scope).outcome w = some ending := by
  constructor
  · intro fuel levels hwell hends
    -- What would happen instead makes no difference, so it may as well be that nothing ends.
    have hguarded : (evalGuarded scope fuel levels t.template scope).outcome w = some ending :=
      (hwell (fun _ _ => Run.diverge) Run.diverge).trans hends
    obtain ⟨least, hrecursive⟩ := evalOver_below_recursive fuel levels
    refine ⟨?_, least, fun n hn => ?_⟩
    · refine (below_templateRelation levels).template (fun form l hl => ?_) t levels
        (Nat.le_refl levels) w ending hguarded
      rw [evalWithin_eq_evalOver]
      exact evalUnder_guarding_below _ hl form scope
    · refine (below_templateRelation levels).template (fun form l hl => ?_) t levels
        (Nat.le_refl levels) w ending hguarded
      intro w' ending' hends'
      exact hrecursive n hn form scope w' ending'
        (evalUnder_guarding_below _ hl form scope w' ending' hends')
  · intro n hw hfill
    -- The recursive evaluator as the floor makes up for any lack of levels.
    obtain ⟨least, hleast⟩ := comesTo_templateRelation.template (fun form => .unquoted n form) t
    refine ⟨least, fun fuel levels hf hlimit => ?_⟩
    obtain ⟨hrec, -⟩ := hleast least (Nat.le_refl least) w ending.1 ending.2 hw hfill
    rw [← hlimit (Recursive.eval least)]
    exact recursive_below_evalOver hf levels (Nat.le_refl least) t.template scope w ending hrec

/-- A world with the names that templates need, and one part and one row to fill in. -/
def joiningWorld : World :=
  { World.start Files.empty "" 0 with
    heap := (Heap.empty.enter none [("a", .int 1), ("b", ofList [.int 2, .int 3]),
      ("concat", .native .concat .nil), ("cons", .native .cons .nil)]).1 }

theorem lookup_joining_a : joiningWorld.heap.scopes.lookup ⟨0⟩ "a" = some (.int 1) :=
  Scopes.lookup_enter Scopes.empty none rfl

theorem lookup_joining_b :
    joiningWorld.heap.scopes.lookup ⟨0⟩ "b" = some (ofList [.int 2, .int 3]) :=
  Scopes.lookup_enter Scopes.empty none rfl

theorem joiningWorld_templateNames : joiningWorld.heap.TemplateNames ⟨0⟩ where
  joins := by
    intro op hop
    rcases hop with rfl | rfl
    · exact ⟨.nil, Scopes.lookup_enter Scopes.empty none rfl⟩
    · exact ⟨.nil, Scopes.lookup_enter Scopes.empty none rfl⟩
  quote := by
    intro id note hl
    cases (Scopes.lookup_enter_unbound Scopes.empty rfl).symm.trans hl

/-- A supervisor that lets pass what happens in this world. -/
structure Supervisor.Passes (s : Supervisor) (w : World) : Prop where
  step : ∀ form scope run, (s.step form scope run).outcome w = run.outcome w
  native : ∀ ev op args scope run, (s.native ev op args scope run).outcome w = run.outcome w

namespace Supervisor.Passes

variable {s : Supervisor} {w : World} {scope : ScopeId} {levels : Nat} {v : Value}

theorem done {form : Value} (hs : s.Passes w)
    (h : (evalStepUnder s (evalUnder s 1 levels) 1 form scope).outcome w = some (.ok (.done v), w)) :
    (evalUnder s 1 (levels + 1) form scope).outcome w = (Run.settle v).outcome w := by
  simp only [evalUnder, evalStepsUnder]
  rw [hs.step, outcome_bind_ok _ h]

theorem symbol {name : String} (hs : s.Passes w) (hl : w.heap.scopes.lookup scope name = some v) :
    (evalUnder s 1 (levels + 1) (.sym name) scope).outcome w = (Run.settle v).outcome w :=
  hs.done (evalStepUnder_symbol hl)

theorem quoted (hs : s.Passes w) (hw : w.heap.TemplateNames scope) (v : Value) :
    (evalUnder s 1 (levels + 1) v.quoted scope).outcome w = (Run.settle v).outcome w := by
  have hsame : w.heap.expander? v.quoted scope = none := Heap.expander?_of_lookup _ _ hw.quote
  exact hs.done ((outcome_bind_ok _ (expand_same hsame)).trans rfl)

/-- The form that joins a part and the rest of a row comes to what they make together. -/
theorem join {op : Native} {joined : Value → Value → Run Value} {a b part rest : Value}
    (hs : s.Passes w) (hop : op.Joins joined) (hw : w.heap.TemplateNames scope)
    (ha : (evalUnder s 1 (levels + 1) a scope).outcome w = some (.ok part, w))
    (hb : (evalUnder s 1 (levels + 1) b scope).outcome w = some (.ok rest, w))
    (hjoined : (joined part rest).outcome w = some (.ok v, w)) :
    (evalUnder s 1 (levels + 2) (ofList [.sym op.name, a, b]) scope).outcome w =
      (Run.settle v).outcome w := by
  obtain ⟨note, hl⟩ := hw.joins op hop.known
  have hhead : SpecialForm.ofName? op.name = none := by
    rcases hop.known with rfl | rfl <;> rfl
  have hparts : InOrder (evalUnder s 1 (levels + 1) · scope) [.sym op.name, a, b] w
      [.native op note, part, rest] w :=
    .cons (hs.symbol hl) (.cons ha (.cons hb .nil))
  have hcall : (Native.callUnder s (evalUnder s 1 (levels + 1)) 1 op [part, rest] scope).outcome w =
      some (.ok v, w) := by
    rw [← hjoined, ← hop.call (evalUnder s 1 (levels + 1)) 0 part rest scope]
    rcases hop.known with rfl | rfl <;> exact hs.native _ _ _ _ _
  exact hs.done ((evalStepUnder_native hhead hl hparts).trans (outcome_bind_ok _ hcall))

end Supervisor.Passes

/-- A template with a part to fill in and a row to splice in. -/
def twoParts : Value :=
  ofList [ofList [.sym "unquote", .sym "a"], ofList [.sym "splice-unquote", .sym "b"]]

theorem fill_twoParts {ev : Value → Run Value} {w : World}
    (ha : (ev (.sym "a")).outcome w = some (.ok (.int 1), w))
    (hb : (ev (.sym "b")).outcome w = some (.ok (ofList [.int 2, .int 3]), w)) :
    (twoParts.fill ev).outcome w = some (.ok (ofList [.int 1, .int 2, .int 3]), w) := by
  have hrest : (fillItems ev [ofList [.sym "splice-unquote", .sym "b"]]).outcome w =
      some (.ok (ofList [.int 2, .int 3]), w) :=
    (outcome_bind_ok _ hb).trans rfl
  exact (outcome_bind_ok _ ha).trans ((outcome_bind_ok _ hrest).trans rfl)

theorem evalUnder_twoParts {s : Supervisor} (hs : s.Passes joiningWorld) :
    (evalUnder s 1 3 twoParts.template ⟨0⟩).outcome joiningWorld =
      some (.ok (ofList [.int 1, .int 2, .int 3]), joiningWorld) := by
  have hw := joiningWorld_templateNames
  have hrest : (evalUnder s 1 2 (ofList [.sym "concat", .sym "b", (ofList []).quoted]) ⟨0⟩).outcome
      joiningWorld = some (.ok (ofList [.int 2, .int 3]), joiningWorld) :=
    hs.join Native.concat_joins hw (hs.symbol lookup_joining_b) (hs.quoted hw (ofList [])) rfl
  exact hs.join Native.cons_joins hw (hs.symbol lookup_joining_a) hrest rfl

theorem evalChecked_symbol {w : World} {scope : ScopeId} {name : String} {v : Value} (n : Nat)
    (hw : w.heap.TemplateNames scope) (hl : w.heap.scopes.lookup scope name = some v)
    (hv : Run.settle v = pure v) :
    (evalChecked (Recursive.eval (n + 1)) scope (.sym name)).outcome w = some (.ok v, w) := by
  have heval : (Recursive.eval (n + 1) (.sym name) scope).outcome w = some (.ok v, w) := by
    rw [Recursive.eval_succ, outcome_bind_ok _ (evalStep_symbol hl), Step.finish, hv]
    rfl
  rw [evalChecked, outcome_bind_ok _ heval, outcome_byWorld_of _ _ _ hw]
  rfl

/-- Both ways, one part is filled in and one row is spliced in. -/
theorem template_comes_to_fill_twoParts :
    (evalWithin 1 3 twoParts.template ⟨0⟩).outcome joiningWorld =
        some (.ok (ofList [.int 1, .int 2, .int 3]), joiningWorld) ∧
      (twoParts.fill fun form => evalWithin 1 3 form ⟨0⟩).outcome joiningWorld =
        some (.ok (ofList [.int 1, .int 2, .int 3]), joiningWorld) ∧
      (twoParts.fill (evalChecked (Recursive.eval 1) ⟨0⟩)).outcome joiningWorld =
        some (.ok (ofList [.int 1, .int 2, .int 3]), joiningWorld) ∧
      ∃ least, ∀ fuel levels, least ≤ fuel →
        WithinLimit fuel levels twoParts.template ⟨0⟩ joiningWorld →
        (evalWithin fuel levels twoParts.template ⟨0⟩).outcome joiningWorld =
          some (.ok (ofList [.int 1, .int 2, .int 3]), joiningWorld) := by
  have hw := joiningWorld_templateNames
  have hends : (evalWithin 1 3 twoParts.template ⟨0⟩).outcome joiningWorld =
      some (.ok (ofList [.int 1, .int 2, .int 3]), joiningWorld) := by
    rw [← evalUnder_idle]
    exact evalUnder_twoParts ⟨fun _ _ _ => rfl, fun _ _ _ _ _ => rfl⟩
  have hwell : WithinLimitWhile (·.heap.TemplateNames ⟨0⟩) 1 3 twoParts.template ⟨0⟩ joiningWorld := by
    intro floor other
    have hpasses : (Supervisor.minding (fun _ => (·.heap.TemplateNames ⟨0⟩)) other
        (.plain floor)).Passes joiningWorld :=
      ⟨fun _ _ _ => outcome_byWorld_of _ _ _ hw, fun _ _ _ _ _ => outcome_byWorld_of _ _ _ hw⟩
    exact (evalUnder_twoParts hpasses).trans hends.symm
  have hchecked : (twoParts.fill (evalChecked (Recursive.eval 1) ⟨0⟩)).outcome joiningWorld =
      some (.ok (ofList [.int 1, .int 2, .int 3]), joiningWorld) :=
    fill_twoParts (evalChecked_symbol 0 hw lookup_joining_a rfl)
      (evalChecked_symbol 0 hw lookup_joining_b rfl)
  obtain ⟨hfill, heval⟩ := template_comes_to_fill twoParts ⟨0⟩ joiningWorld
    (.ok (ofList [.int 1, .int 2, .int 3]), joiningWorld)
  exact ⟨hends, (hfill 1 3 hwell hends).1, hchecked, heval 1 hw hchecked⟩

end MiniLisp
