import MiniLisp.Proofs.DisciplinedNatives
import MiniLisp.Proofs.Supervised

namespace MiniLisp

open Run

/-- The two supervisors say the same, as far as the discipline is kept to. -/
structure Supervisor.Agrees (D : Discipline) (s s' : Supervisor) : Prop where
  floor : s.floor.Obeys D s'.floor
  step : ∀ {count scope} form {a b}, D.Admits count scope → a.Obeys D count Anything b →
    (s.step form scope a).Obeys D count Anything (s'.step form scope b)
  native : ∀ {ev ev' : Evaluator}, ev.Obeys D ev' →
    ∀ {count} {call call' : Value → List Value → Run Value},
    (∀ f args, (call f args).Obeys D count Anything (call' f args)) →
    ∀ op args {scope}, D.Admits count scope →
    (s.native ev op args scope (op.perform ev call args scope)).Obeys D count Anything
      (s'.native ev' op args scope (op.perform ev' call' args scope))

variable {D : Discipline} {s s' : Supervisor} {ev ev' : Evaluator} {count : Nat} {scope : ScopeId}
  {args : List Value}

/-- A step ends with a value, or goes on in an admitted scope. -/
def Step.Admitted (D : Discipline) (count : Nat) : Step → Prop
  | .done _ => True
  | .tail _ scope => D.Admits count scope

namespace Run.Obeys

/-- A look at the world tells nothing new where the discipline says what is seen. -/
theorem byWorld {property : World → Prop} {P : Nat → α → Prop} {a b : Run α} (other : Run α)
    (h : Obeys D count P a b)
    (hp : ∀ w, D.holds w.heap → count ≤ w.heap.scopeCount → property w) :
    Obeys D count P a (Run.byWorld property b other) := by
  intro w hw hcount
  rw [outcome_byWorld_of property b other (hp w hw hcount)]
  exact h w hw hcount

end Run.Obeys

namespace Supervisor

theorem agrees_idle (hroots : D.AdmitsRoots) : Agrees D .idle .idle where
  floor := fun _ _ _ _ => .raise _
  step := fun _ _ _ _ h => h
  native := fun hev _ _ _ hcall _ _ _ hscope =>
    Native.perform_obeys hev hcall (fun _ => hroots) hscope

theorem agrees_cutting (hroots : D.AdmitsRoots)
    (cut : Value → ScopeId → World → Option (Except Fault Value)) :
    Agrees D (.cutting cut) (.cutting cut) where
  floor := (agrees_idle hroots).floor
  step := by
    intro count scope form a b _ h
    refine .bind .get fun m w hm _ => ?_
    cases cut form scope w with
    | some result => exact .ofExcept result
    | none => exact h.mono hm
  native := (agrees_idle hroots).native

theorem Agrees.minding {well : ScopeId → World → Prop} (other : Run Value) (hs : s.Agrees D s')
    (h : ∀ w scope, D.holds w.heap → D.Admits w.heap.scopeCount scope → well scope w) :
    Agrees D s (.minding well other s') where
  floor := hs.floor
  step := fun form _ _ hscope hab =>
    (hs.step form hscope hab).byWorld other fun w hw hcount => h w _ hw (hscope.mono hcount)
  native := fun hev _ _ _ hcall op args _ hscope =>
    (hs.native hev hcall op args hscope).byWorld other fun w hw hcount =>
      h w _ hw (hscope.mono hcount)

/-- With something else in place of `eval`, the outermost scopes need not be usable. -/
theorem agrees_replacing_eval (other : List Value → ScopeId → Run Value)
    (h : ∀ {count scope} args, D.Admits count scope →
      (other args scope).Obeys D count Anything (other args scope)) :
    Agrees D (.replacing .eval other) (.replacing .eval other) where
  floor := fun _ _ _ _ => .raise _
  step := fun _ _ _ _ h => h
  native := by
    intro ev ev' hev count call call' hcall op args scope hscope
    simp only [replacing]
    by_cases hop : op = .eval
    · rw [if_pos hop, if_pos hop]
      exact h args hscope
    · rw [if_neg hop, if_neg hop]
      exact Native.perform_obeys hev hcall (fun heval => absurd heval hop) hscope

end Supervisor

theorem Native.callUnder_obeys (hs : s.Agrees D s') (hev : ev.Obeys D ev') (fuel : Nat)
    (op : Native) (args : List Value) (hscope : D.Admits count scope) :
    (Native.callUnder s ev fuel op args scope).Obeys D count Anything
      (Native.callUnder s' ev' fuel op args scope) := by
  -- Callbacks may leave more scopes than there were, so the count is not fixed.
  induction fuel generalizing op args count with
  | zero => exact .diverge
  | succ fuel ih =>
    refine .bind (.ofExcept _) fun m _ hm _ => ?_
    have hscope' := hscope.mono hm
    refine hs.native hev (fun f args => ?_) op args hscope'
    refine .bind (P := Anything) ?_ fun _ v _ _ => .settle v
    exact Value.callWith_obeys hev (fun op args => ih op args hscope') f args

theorem expander?_obeys (form : Value) :
    (Run.query fun heap => heap.expander? form scope).Obeys D count
      (fun m found => ∀ c args, found = some (c, args) → c.scope.index < m)
      (Run.query fun heap => heap.expander? form scope) := by
  refine .query fun heap hheap _ c args hfound => ?_
  unfold Heap.expander? at hfound
  split at hfound
  · split at hfound
    · obtain ⟨c', hc, heq⟩ := Option.map_eq_some_iff.mp hfound
      cases heq
      exact D.functions hheap hc
    · cases hfound
  · cases hfound

theorem expand_obeys (hev : ev.Obeys D ev') (fuel : Nat) (form : Value) :
    (expand ev fuel form scope).Obeys D count Anything (expand ev' fuel form scope) := by
  induction fuel generalizing form count with
  | zero =>
    rw [expand, expand]
    refine .bind (expander?_obeys form) fun _ found _ _ => ?_
    cases found with
    | none => exact .value _
    | some found => exact .diverge
  | succ fuel ih =>
    rw [expand, expand]
    refine .bind (expander?_obeys form) fun _ found _ hfound => ?_
    cases found with
    | none => exact .value _
    | some found =>
      exact .bind (found.1.call_obeys hev (hfound found.1 found.2 rfl)) fun _ form _ _ => ih form

namespace SpecialForm

theorem toExpander_obeys (v : Value) :
    (toExpander v).Obeys D count Anything (toExpander v) := by
  unfold toExpander
  split
  · refine .bind (.closure? _) fun _ c? _ hc => ?_
    cases c? with
    | none => exact .value _
    | some c => exact .bind (.newClosure (hc c rfl)) fun _ _ _ _ => .value _
  · exact .value _

theorem runDefine_obeys (hev : ev.Obeys D ev') (form : SpecialForm)
    (hscope : D.Admits count scope) :
    (form.runDefine ev scope args).Obeys D count (Step.Admitted D)
      (form.runDefine ev' scope args) := by
  match args with
  | [v, expr] =>
    cases v with
    | sym name =>
      rw [runDefine_symbol, runDefine_symbol]
      refine .bind (P := Anything) (.bind (hev expr hscope) fun _ v _ _ => ?_) fun _ v _ _ => ?_
      · by_cases hform : form = defineExpander
        · simp only [hform, if_true]
          exact toExpander_obeys v
        · simp only [hform, if_false]
          exact .value v
      · exact .bind (.bindName hscope.1 name v) fun _ _ _ _ => .pure fun _ _ => trivial
    | _ => exact .raise _
  | [] => exact .raise _
  | [v] | v :: _ :: _ :: _ => cases v <;> exact .raise _

theorem bindAll_obeys (hev : ev.Obeys D ev') (hscope : D.Admits count scope) (row : List Value) :
    (bindAll ev scope row).Obeys D count Anything (bindAll ev' scope row) := by
  induction row using bindAll.induct generalizing count with
  | case1 name expr more ih =>
    refine .bind (hev expr hscope) fun _ v hm _ => ?_
    refine .bind (.bindName hscope.1 name v) fun _ _ hm' _ => ?_
    exact ih (hscope.mono (Nat.le_trans hm hm'))
  | case2 v expr more hne =>
    rw [bindAll, bindAll] <;> first | exact .raise _ | exact hne
  | case3 row hne hne' =>
    rw [bindAll, bindAll] <;> first | exact .value _ | assumption

theorem runLetIn_obeys (hev : ev.Obeys D ev') (hscope : scope.index < count) :
    (runLetIn ev scope args).Obeys D count (Step.Admitted D) (runLetIn ev' scope args) := by
  match args with
  | [bindings, body] =>
    rw [runLetIn_pair, runLetIn_pair]
    cases bindings.elements? with
    | none => exact .raise _
    | some row =>
      by_cases hodd : row.length % 2 = 1
      · simp only [hodd, if_true]
        exact .raise _
      · simp only [hodd, if_false]
        refine .bind (.enter hscope _) fun _ inner _ hinner => ?_
        refine .bind (bindAll_obeys hev hinner row) fun _ _ hm _ => ?_
        exact .pure fun _ hm' => hinner.mono (Nat.le_trans hm hm')
  | [] | [_] | _ :: _ :: _ :: _ => exact .raise _

theorem runSequence_obeys (hev : ev.Obeys D ev') (hscope : D.Admits count scope) :
    (runSequence ev scope args).Obeys D count (Step.Admitted D) (runSequence ev' scope args) := by
  induction args using runSequence.induct generalizing count with
  | case1 => exact .pure fun _ _ => trivial
  | case2 last => exact .pure fun _ hm => hscope.mono hm
  | case3 form more hne ih =>
    rw [runSequence, runSequence] <;> try exact hne
    rw [discard_eq, discard_eq]
    refine .bind (P := Anything) ?_ fun _ _ hm _ => ih (hscope.mono hm)
    exact .bind (hev form hscope) fun _ _ _ _ => .value _

theorem runChoice_obeys (hev : ev.Obeys D ev') (hscope : D.Admits count scope) :
    (runChoice ev scope args).Obeys D count (Step.Admitted D) (runChoice ev' scope args) := by
  match args with
  | [condition, yes] =>
    refine .bind (hev condition hscope) fun _ v hm _ => .pure fun _ hm' => ?_
    split
    · exact hscope.mono (Nat.le_trans hm hm')
    · exact trivial
  | [condition, yes, no] =>
    refine .bind (hev condition hscope) fun _ v hm _ => .pure fun _ hm' => ?_
    split
    · exact hscope.mono (Nat.le_trans hm hm')
    · exact hscope.mono (Nat.le_trans hm hm')
  | [] | [_] | _ :: _ :: _ :: _ :: _ => exact .raise _

theorem runFunction_obeys (hscope : scope.index < count) :
    (runFunction scope args).Obeys D count (Step.Admitted D) (runFunction scope args) := by
  unfold runFunction
  split
  · split
    · exact .raise _
    · exact .bind (.newClosure hscope) fun _ _ _ _ => .pure fun _ _ => trivial
  · exact .raise _

theorem runHandle_obeys (hev : ev.Obeys D ev') (hscope : D.Admits count scope) :
    (runHandle ev scope args).Obeys D count (Step.Admitted D) (runHandle ev' scope args) := by
  match args with
  | [body] => exact .pure fun _ hm => hscope.mono hm
  | [body, clause] =>
    simp only [runHandle]
    cases catchClause? clause with
    | none => exact .raise _
    | some found =>
      refine .bind (.attempt (hev body hscope)) fun _ result hm _ => ?_
      cases result with
      | ok v => exact .pure fun _ _ => trivial
      | error fault =>
        exact .bind (.enter (hscope.mono hm).2 _) fun _ _ _ hinner =>
          .pure fun _ hm' => hinner.mono hm'
  | [] | _ :: _ :: _ :: _ => exact .raise _

/-- Every special form keeps to the discipline. -/
theorem run_obeys (hev : ev.Obeys D ev') (form : SpecialForm) (fuel : Nat)
    (hscope : D.Admits count scope) :
    (form.run ev fuel scope args).Obeys D count (Step.Admitted D)
      (form.run ev' fuel scope args) := by
  cases form with
  | define => exact runDefine_obeys hev _ hscope
  | defineExpander => exact runDefine_obeys hev _ hscope
  | letIn => exact runLetIn_obeys hev hscope.2
  | sequence => exact runSequence_obeys hev hscope
  | choice => exact runChoice_obeys hev hscope
  | function => exact runFunction_obeys hscope.2
  | quote =>
    match args with
    | [v] => exact .pure fun _ _ => trivial
    | [] | _ :: _ :: _ => exact .raise _
  | quasiquote =>
    match args with
    | [v] => exact .pure fun _ hm => hscope.mono hm
    | [] | _ :: _ :: _ => exact .raise _
  | expansion =>
    match args with
    | [v] => exact .bind (expand_obeys hev fuel v) fun _ _ _ _ => .pure fun _ _ => trivial
    | [] | _ :: _ :: _ => exact .raise _
  | handle => exact runHandle_obeys hev hscope

end SpecialForm

theorem evalPlain_obeys (hev : ev.Obeys D ev') (form : Value) (hscope : D.Admits count scope) :
    (evalPlain ev form scope).Obeys D count Anything (evalPlain ev' form scope) := by
  unfold evalPlain
  split
  · exact .resolve scope _
  · exact .bind (.mapM (fun item => hev item hscope) _) fun _ _ _ _ => .value _
  · refine .bind (.mapM (fun e => ?_) _) fun _ _ _ _ => .value _
    exact .bind (hev e.2 hscope) fun _ _ _ _ => .value _
  · exact .value _

theorem evalCallUnder_obeys (hs : s.Agrees D s') (hev : ev.Obeys D ev') (fuel : Nat)
    (forms : List Value) (hscope : D.Admits count scope) :
    (evalCallUnder s ev fuel forms scope).Obeys D count (Step.Admitted D)
      (evalCallUnder s' ev' fuel forms scope) := by
  refine .bind (.mapM (fun form => hev form hscope) forms) fun _ vs hm _ => ?_
  cases vs with
  | nil => exact .pure fun _ _ => trivial
  | cons f args =>
    cases f with
    | native op note =>
      exact .bind (Native.callUnder_obeys hs hev fuel op args (hscope.mono hm)) fun _ _ _ _ =>
        .pure fun _ _ => trivial
    | fn id expander note =>
      refine .bind (.closure? id) fun _ c? _ hc => ?_
      cases c? with
      | none => exact Value.notCallable_obeys _
      | some c =>
        exact .bind (.enter (hc c rfl) _) fun _ _ _ hinner => .pure fun _ hm' => hinner.mono hm'
    | _ => exact Value.notCallable_obeys _

theorem evalStepUnder_obeys (hs : s.Agrees D s') (hev : ev.Obeys D ev') (fuel : Nat) (form : Value)
    (hscope : D.Admits count scope) :
    (evalStepUnder s ev fuel form scope).Obeys D count (Step.Admitted D)
      (evalStepUnder s' ev' fuel form scope) := by
  refine .bind (expand_obeys hev fuel form) fun _ expanded hm _ => ?_
  have hscope' := hscope.mono hm
  split
  · split
    · exact SpecialForm.run_obeys hev _ fuel hscope'
    · exact evalCallUnder_obeys hs hev fuel _ hscope'
  · exact .bind (evalPlain_obeys hev _ hscope') fun _ _ _ _ => .pure fun _ _ => trivial

theorem evalStepsUnder_obeys (hs : s.Agrees D s') (hev : ev.Obeys D ev') (fuel steps : Nat)
    (form : Value) (hscope : D.Admits count scope) :
    (evalStepsUnder s ev fuel steps form scope).Obeys D count Anything
      (evalStepsUnder s' ev' fuel steps form scope) := by
  induction steps generalizing form scope count with
  | zero => exact .diverge
  | succ steps ih =>
    refine hs.step form hscope (.bind (evalStepUnder_obeys hs hev fuel form hscope) ?_)
    intro _ step _ hstep
    cases step with
    | done v => exact .settle v
    | tail form scope => exact ih form hstep

/-- Evaluation in an admitted scope keeps to the discipline, and is the same under both
supervisors. -/
theorem evalUnder_obeys (hs : s.Agrees D s') (fuel levels : Nat) :
    (evalUnder s fuel levels).Obeys D (evalUnder s' fuel levels) := by
  induction levels with
  | zero => exact hs.floor
  | succ levels ih =>
    exact fun _ _ form hscope => evalStepsUnder_obeys hs ih fuel fuel form hscope

theorem evalWithin_obeys (hroots : D.AdmitsRoots) (fuel levels : Nat) :
    (evalWithin fuel levels).Obeys D (evalWithin fuel levels) := by
  rw [← evalUnder_idle]
  exact evalUnder_obeys (Supervisor.agrees_idle hroots) fuel levels

theorem evalSteps_obeys (hroots : D.AdmitsRoots) (hev : ev.Obeys D ev') (fuel steps : Nat) :
    Evaluator.Obeys D (evalSteps ev fuel steps) (evalSteps ev' fuel steps) := by
  intro count scope form hscope
  have hidle := evalStepsUnder_obeys (Supervisor.agrees_idle hroots) hev fuel steps form hscope
  rwa [Supervisor.idle, evalStepsUnder_plain, evalStepsUnder_plain] at hidle

end MiniLisp
