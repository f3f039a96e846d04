import MiniLisp.Proofs.Endings

namespace MiniLisp

open Run

namespace Run

variable {α β : Type}

/-- Where the run fails, it leaves the world as it was. -/
def FailsUnchanged (run : Run α) : Prop :=
  ∀ w fault w', run.outcome w = some (.error fault, w') → w' = w

namespace FailsUnchanged

theorem ofExcept (result : Except Fault α) : FailsUnchanged (ofExcept result : Run α) := by
  intro w fault w' h
  rw [outcome_ofExcept] at h
  cases h
  rfl

/-- A run that never fails. -/
theorem of_ok {run : Run α} (h : ∀ w, ∃ a w', run.outcome w = some (.ok a, w')) :
    FailsUnchanged run := by
  intro w fault w' hfails
  obtain ⟨a, w'', hok⟩ := h w
  rw [hok] at hfails
  cases hfails

theorem ofExcept_bind (result : Except Fault α) {next : α → Run β}
    (h : ∀ a, FailsUnchanged (next a)) :
    FailsUnchanged (MonadExcept.ofExcept result >>= next) := by
  intro w fault w' hfails
  cases result with
  | ok a => exact h a w fault w' hfails
  | error fault' => exact ofExcept (.error fault' : Except Fault β) w fault w' hfails

theorem readFile (path : String) : FailsUnchanged (readFile path) := by
  intro w fault w' h
  have hget : (get : Run World).outcome w = some (.ok w, w) := rfl
  rw [Run.readFile, outcome_bind_ok _ hget] at h
  cases hfile : w.files.read path with
  | ok text => simp [hfile] at h
  | error fault' =>
    simp only [hfile, outcome_raise, Option.some.injEq, Prod.mk.injEq] at h
    exact h.2.symm

end FailsUnchanged

/-- A failure among these calls, made one after the other: all before the failing one have ended well,
and the failing one has left the world behind. Where no call is to be made, nothing has been done. -/
inductive FailsIn (w : World) (fault : Fault) (w' : World) (calls : List (Run Value)) : Prop
  | refused (empty : calls = []) (same : w' = w)
  | call {before failing after vs w₁} (split : calls = before ++ failing :: after)
      (earlier : InOrder id before w vs w₁) (fails : failing.outcome w₁ = some (.error fault, w'))

namespace FailsIn

variable {call : Run Value} {calls : List (Run Value)} {w w' : World} {fault : Fault}

theorem single (h : call.outcome w = some (.error fault, w')) : FailsIn w fault w' [call] :=
  .call (show [call] = [] ++ call :: [] from rfl) .nil h

theorem of_single (h : FailsIn w fault w' [call]) : call.outcome w = some (.error fault, w') := by
  cases h with
  | refused empty => cases empty
  | @call before failing after vs w₁ split earlier fails =>
    cases before with
    | nil =>
      cases split
      cases earlier
      exact fails
    | cons => simp at split

theorem unchanged (h : FailsIn w fault w' calls) (hcalls : calls = []) : w' = w := by
  cases h with
  | refused _ same => exact same
  | call split => simp [hcalls] at split

/-- A check that comes first: where it refuses, no call is to be made. -/
theorem of_check {check : Except Fault α} {next : α → Run β}
    (h : (MonadExcept.ofExcept check >>= next : Run β).outcome w = some (.error fault, w'))
    (refuses : ∀ refusal, check = .error refusal → calls = [])
    (goesOn : ∀ a, check = .ok a → (next a).outcome w = some (.error fault, w') →
      FailsIn w fault w' calls) : FailsIn w fault w' calls := by
  cases hcheck : check with
  | ok a =>
    rw [hcheck] at h
    exact goesOn a hcheck h
  | error refusal =>
    rw [hcheck] at h
    cases h
    exact .refused (refuses _ hcheck) rfl

end FailsIn

theorem InOrder.map_id {run : α → Run β} {xs : List α} {ys : List β} {w w' : World}
    (h : InOrder run xs w ys w') : InOrder id (xs.map run) w ys w' := by
  induction h with
  | nil => exact .nil
  | cons head tail ih => exact .cons head ih

end Run

namespace Native

section Acts

theorem runSlurp_failsUnchanged (args : List Value) : (runSlurp args).FailsUnchanged := by
  rcases args with _ | ⟨path, _ | ⟨_, _⟩⟩
  · exact .ofExcept (slurp.wrongCount _)
  · refine .ofExcept_bind _ fun name w fault w' h => ?_
    obtain ⟨text, w₁, -, h⟩ | ⟨fault', h, -⟩ := outcome_bind_some h
    · cases h
    · exact FailsUnchanged.readFile name w fault' w' h
  · exact .ofExcept (slurp.wrongCount _)

theorem runReadline_failsUnchanged (args : List Value) : (runReadline args).FailsUnchanged := by
  rcases args with _ | ⟨prompt, _ | ⟨_, _⟩⟩
  · exact .ofExcept (readline.wrongCount _)
  · refine .of_ok fun w => ?_
    let shown : World := { w with output := w.output ++ prompt.print w.heap .display }
    have hprint : (print (prompt.print w.heap .display)).outcome w = some (.ok (), shown) := rfl
    rw [runReadline, outcome_bind_ok _ (outcome_query _ w), outcome_bind_ok _ hprint]
    obtain ⟨line, w₁, hline⟩ : ∃ line w₁, readLine.outcome shown = some (.ok line, w₁) :=
      ⟨_, _, outcome_modifyGet _ shown⟩
    rw [outcome_bind_ok _ hline]
    cases line with
    | none => exact ⟨_, _, outcome_pure _ w₁⟩
    | some line => exact ⟨_, _, outcome_pure _ w₁⟩
  · exact .ofExcept (readline.wrongCount _)

theorem runAtom_failsUnchanged (args : List Value) : (runAtom args).FailsUnchanged := by
  rcases args with _ | ⟨v, _ | ⟨_, _⟩⟩
  · exact .ofExcept (atom.wrongCount _)
  · exact .of_ok fun w => ⟨_, _, rfl⟩
  · exact .ofExcept (atom.wrongCount _)

theorem runDeref_failsUnchanged (args : List Value) : (runDeref args).FailsUnchanged := by
  rcases args with _ | ⟨target, _ | ⟨_, _⟩⟩
  · exact .ofExcept (deref.wrongCount _)
  · exact .ofExcept_bind _ fun id => .of_ok fun w => ⟨_, _, outcome_query _ w⟩
  · exact .ofExcept (deref.wrongCount _)

theorem runReset_failsUnchanged (args : List Value) : (runReset args).FailsUnchanged := by
  rcases args with _ | ⟨target, _ | ⟨v, _ | ⟨_, _⟩⟩⟩
  · exact .ofExcept (reset.wrongCount _)
  · exact .ofExcept (reset.wrongCount _)
  · exact .ofExcept_bind _ fun id => .of_ok fun w => ⟨_, _, rfl⟩
  · exact .ofExcept (reset.wrongCount _)

/-- A native that calls nothing fails before it touches the world. -/
theorem act_failsUnchanged {op : Native} {f : List Value → Run Value} (hf : op.behaviour = .act f)
    (args : List Value) : (f args).FailsUnchanged := by
  have text (style sep) : (runText style sep args).FailsUnchanged := .of_ok fun w => ⟨_, _, rfl⟩
  have line (style) : (runPrintLine style args).FailsUnchanged := .of_ok fun w => ⟨_, _, rfl⟩
  cases op with
  | prStr => cases hf; exact text .readable " "
  | str => cases hf; exact text .display ""
  | prn => cases hf; exact line .readable
  | println => cases hf; exact line .display
  | slurp => cases hf; exact runSlurp_failsUnchanged args
  | readline => cases hf; exact runReadline_failsUnchanged args
  | atom => cases hf; exact runAtom_failsUnchanged args
  | deref => cases hf; exact runDeref_failsUnchanged args
  | reset => cases hf; exact runReset_failsUnchanged args
  | timeMs => cases hf; exact .of_ok fun w => ⟨_, _, rfl⟩
  | _ => cases hf

end Acts

/-- The calls that a native makes back into evaluation, in their order and up to the first failure.
Refused arguments come to no call. -/
def callbacks (op : Native) (ev : Evaluator) (count : Nat) (scope : ScopeId) (heap : Heap)
    (args : List Value) : List (Run Value) :=
  match op, args with
  | apply, f :: a :: more =>
    match apply.callable f,
      apply.callArguments ((a :: more).getLast (List.cons_ne_nil a more)) with
    | .ok (), .ok items => [f.call ev count ((a :: more).dropLast ++ items) scope]
    | _, _ => []
  | map, [f, xs] =>
    match map.callable f, map.callArguments xs with
    | .ok (), .ok items => items.map fun item => f.call ev count [item] scope
    | _, _ => []
  | swap, target :: f :: extra =>
    match swap.cell target, swap.callable f with
    | .ok id, .ok () => [f.call ev count (heap.cell id :: extra) scope]
    | _, _ => []
  | eval, [form] => [ev form (heap.scopes.root scope)]
  | _, _ => []

section Fails

variable {ev : Evaluator} {count : Nat} {scope : ScopeId} {w w' : World} {fault : Fault}

theorem behaviour_call {op : Native} {c : Callback} (h : op.behaviour = .call c) :
    op = apply ∧ c = .apply ∨ op = map ∧ c = .map ∨ op = swap ∧ c = .swap ∨ op = eval ∧ c = .eval := by
  cases op <;> cases h <;> decide

theorem callbacks_eq_nil {op : Native} (h : ∀ c, op.behaviour ≠ .call c) (heap : Heap)
    (args : List Value) : op.callbacks ev count scope heap args = [] := by
  fun_cases callbacks op ev count scope heap args with
  | case1 | case2 => exact absurd rfl (h .apply)
  | case3 | case4 => exact absurd rfl (h .map)
  | case5 | case6 => exact absurd rfl (h .swap)
  | case7 => exact absurd rfl (h .eval)
  | case8 => rfl

theorem callbacks_of_refused {op : Native} {args : List Value} {refusal : Fault} (heap : Heap)
    (h : op.arity.check op.name args.length = .error refusal) :
    op.callbacks ev count scope heap args = [] := by
  fun_cases callbacks op ev count scope heap args with
  | case2 | case4 | case6 | case8 => rfl
  | case1 f a more => simp [Arity.check, Arity.Accepts, Native.arity] at h
  | case3 f xs => cases h
  | case5 target f extra => simp [Arity.check, Arity.Accepts, Native.arity] at h
  | case7 form => cases h

theorem runApply_failsIn {args : List Value}
    (h : (runApply (fun f args => f.call ev count args scope) args).outcome w =
      some (.error fault, w')) :
    FailsIn w fault w' (apply.callbacks ev count scope w.heap args) := by
  match args with
  | f :: a :: more =>
    refine .of_check h (fun refusal hf => by simp only [callbacks, hf]) fun _ hf h => ?_
    refine .of_check h (fun refusal hi => by simp only [callbacks, hf, hi]) fun items hi h => ?_
    simp only [callbacks, hf, hi]
    exact .single h
  | [] | [_] =>
    cases h
    exact .refused rfl rfl

theorem runMap_failsIn {args : List Value}
    (h : (runMap (fun f args => f.call ev count args scope) args).outcome w =
      some (.error fault, w')) :
    FailsIn w fault w' (map.callbacks ev count scope w.heap args) := by
  match args with
  | [f, xs] =>
    refine .of_check h (fun refusal hf => by simp only [callbacks, hf]) fun _ hf h => ?_
    refine .of_check h (fun refusal hi => by simp only [callbacks, hf, hi]) fun items hi h => ?_
    simp only [callbacks, hf, hi]
    obtain ⟨vs, w₁, -, h⟩ | ⟨fault', h, hfault⟩ := outcome_bind_some h
    · cases h
    · cases hfault
      obtain ⟨vs, -, h⟩ | ⟨before, x, after, vs, w₁, fault'', rfl, hbefore, hx, hfault⟩ :=
        InOrder.of_mapM h
      · cases h
      · cases hfault
        exact .call (List.map_append ..) hbefore.map_id hx
  | [] | [_] | _ :: _ :: _ :: _ =>
    cases h
    exact .refused rfl rfl

/-- The atom is written after the call, so that a failing call is the last that has happened. -/
theorem runSwap_failsIn {args : List Value}
    (h : (runSwap (fun f args => f.call ev count args scope) args).outcome w =
      some (.error fault, w')) :
    FailsIn w fault w' (swap.callbacks ev count scope w.heap args) := by
  match args with
  | target :: f :: extra =>
    refine .of_check h (fun refusal ht => by simp only [callbacks, ht]) fun id ht h => ?_
    refine .of_check h (fun refusal hf => by simp only [callbacks, ht, hf]) fun _ hf h => ?_
    simp only [callbacks, ht, hf]
    rw [outcome_bind_ok _ (outcome_query _ w)] at h
    obtain ⟨v, w₁, -, h⟩ | ⟨fault', h, hfault⟩ := outcome_bind_some h
    · cases h
    · cases hfault
      exact .single h
  | [] | [_] =>
    cases h
    exact .refused rfl rfl

theorem runEval_failsIn {args : List Value}
    (h : (runEval ev scope args).outcome w = some (.error fault, w')) :
    FailsIn w fault w' (eval.callbacks ev count scope w.heap args) := by
  match args with
  | [form] => exact .single h
  | [] | _ :: _ :: _ =>
    cases h
    exact .refused rfl rfl

/-- Where a native fails, one of its calls has failed, or it has done nothing. -/
theorem call_failsIn {op : Native} {args : List Value}
    (h : (Native.call ev (count + 1) op args scope).outcome w = some (.error fault, w')) :
    FailsIn w fault w' (op.callbacks ev count scope w.heap args) := by
  cases hcheck : op.arity.check op.name args.length with
  | error refusal =>
    rw [Native.call, hcheck] at h
    cases h
    exact .refused (callbacks_of_refused _ hcheck) rfl
  | ok _ =>
    rw [call_perform hcheck, perform] at h
    cases hop : op.behaviour with
    | compute f =>
      refine .refused (callbacks_eq_nil (by simp [hop]) _ _) ?_
      simp only [hop] at h
      exact FailsUnchanged.ofExcept _ w fault w' h
    | act f =>
      refine .refused (callbacks_eq_nil (by simp [hop]) _ _) ?_
      simp only [hop] at h
      exact act_failsUnchanged hop args w fault w' h
    | call c =>
      simp only [hop] at h
      obtain ⟨rfl, rfl⟩ | ⟨rfl, rfl⟩ | ⟨rfl, rfl⟩ | ⟨rfl, rfl⟩ := behaviour_call hop
      · exact runApply_failsIn h
      · exact runMap_failsIn h
      · exact runSwap_failsIn h
      · exact runEval_failsIn h

end Fails

end Native

namespace SpecialForm

variable {ev : Evaluator} {fuel steps : Nat} {scope : ScopeId} {w w₁ w' : World} {fault : Fault}
  {form : SpecialForm} {args : List Value}

/-- Making an expander of a value fails never, and makes no error of what is none. -/
theorem toExpander_ok (v : Value) (w : World) :
    ∃ x w', (toExpander v).outcome w = some (.ok x, w') ∧ (settle v = pure v → settle x = pure x) := by
  cases v with
  | fn id expander note =>
    rw [toExpander, outcome_bind_ok _ (outcome_query _ w)]
    cases w.heap.closure? id with
    | none => exact ⟨_, _, rfl, fun _ => rfl⟩
    | some c => exact ⟨_, _, rfl, fun _ => rfl⟩
  | _ => exact ⟨_, _, rfl, id⟩

/-- What is bound to the name, after the value of the form has been found. -/
theorem mark_ok (form : SpecialForm) (v : Value) (w : World) :
    ∃ x w', ((if form = defineExpander then toExpander else pure) v : Run Value).outcome w =
      some (.ok x, w') ∧ (settle v = pure v → settle x = pure x) := by
  by_cases h : form = defineExpander
  · simp only [h, if_true]
    exact toExpander_ok v w
  · simp only [h, if_false]
    exact ⟨v, w, rfl, id⟩

/-- What a definition does after its form has been evaluated succeeds. -/
theorem runDefine_ok (form : SpecialForm) (name : String) {expr v : Value}
    (h : (ev expr scope).outcome w = some (.ok v, w₁)) :
    ∃ x w', (form.runDefine ev scope [.sym name, expr]).outcome w = some (.ok (.done x), w') ∧
      (settle v = pure v → settle x = pure x) := by
  obtain ⟨x, w₂, hx, hsettle⟩ := mark_ok form v w₁
  refine ⟨x, { w₂ with heap := w₂.heap.bind scope name x }, ?_, hsettle⟩
  rw [runDefine_symbol, bind_assoc, outcome_bind_ok _ h, outcome_bind_ok _ hx]
  rfl

theorem runDefine_malformed (form : SpecialForm) (ev : Evaluator) (scope : ScopeId)
    (h : ∀ name expr, args ≠ [.sym name, expr]) :
    ∃ cause : Cause, form.runDefine ev scope args = cause.raise := by
  match args with
  | [v, expr] =>
    cases v with
    | sym name => exact absurd rfl (h name expr)
    | _ => exact ⟨_, rfl⟩
  | [] => exact ⟨_, rfl⟩
  | [v] | v :: _ :: _ :: _ => exact ⟨.arity form.name form.arity _, by cases v <;> rfl⟩

/-- A definition fails with the form that it evaluates, or at once. -/
theorem finish_runDefine_failed (hev : ev.Settled) {next : Evaluator}
    (h : (form.runDefine ev scope args >>= Step.finish next).outcome w = some (.error fault, w')) :
    (∃ name expr, args = [.sym name, expr] ∧ (ev expr scope).outcome w = some (.error fault, w')) ∨
      (∀ name expr, args ≠ [.sym name, expr]) ∧ w' = w := by
  by_cases hargs : ∃ name expr, args = [.sym name, expr]
  · obtain ⟨name, expr, rfl⟩ := hargs
    refine .inl ⟨name, expr, rfl, ?_⟩
    cases hexpr : (ev expr scope).outcome w with
    | none =>
      rw [runDefine_symbol, bind_assoc, bind_assoc, outcome_bind, hexpr] at h
      cases h
    | some ending =>
      obtain ⟨result, w₁⟩ := ending
      cases result with
      | ok v =>
        -- with a value the definition is made, and no value is an error that could fail it in the end
        obtain ⟨x, w₂, hdone, hsettle⟩ := runDefine_ok form name hexpr
        rw [outcome_bind_ok _ hdone, Step.finish, hsettle (hev.value hexpr)] at h
        cases h
      | error fault' =>
        rw [runDefine_symbol, bind_assoc, bind_assoc, outcome_bind_error _ hexpr] at h
        exact h
  · have hmalformed : ∀ name expr, args ≠ [.sym name, expr] :=
      fun name expr heq => hargs ⟨name, expr, heq⟩
    obtain ⟨cause, hcause⟩ := runDefine_malformed form ev scope hmalformed
    rw [hcause, outcome_bind_error _ (outcome_raise cause w)] at h
    cases h
    exact .inr ⟨hmalformed, rfl⟩

theorem evalExpanded_define (hform : form = define ∨ form = defineExpander) (note : Value) :
    evalExpanded ev fuel (.list (.sym form.name :: args) note) scope =
      form.runDefine ev scope args := by
  rcases hform with rfl | rfl
  · rfl
  · rfl

/-- The evaluation of a form that expands to a definition fails with the form that is to be defined, or
after the expansion. -/
theorem definition_failed (hform : form = define ∨ form = defineExpander) (hev : ev.Settled)
    {source note : Value}
    (hx : (expand ev fuel source scope).outcome w =
      some (.ok (.list (.sym form.name :: args) note), w₁))
    (h : (evalSteps ev fuel steps source scope).outcome w = some (.error fault, w')) :
    (∃ name expr, args = [.sym name, expr] ∧ (ev expr scope).outcome w₁ = some (.error fault, w')) ∨
      (∀ name expr, args ≠ [.sym name, expr]) ∧ w' = w₁ := by
  cases steps with
  | zero => cases h
  | succ steps =>
    rw [evalSteps_succ, evalStep_eq, bind_assoc, outcome_bind_ok _ hx, evalExpanded_define hform] at h
    exact finish_runDefine_failed hev h

end SpecialForm

/-- What fails has written nothing itself. Where a definition fails, the form whose value is to be bound
has failed and left the world behind, or the definition is malformed and the world is as it was; so it is
in tail position and for forms that become a definition by expansion. Where a native fails, one of the
calls it makes has failed and left the world behind, or no call is made and the world is as it was; so
it always is for natives that call nothing, and `swap!` leaves its atom to the failed call. -/
theorem failures_write_nothing :
    (∀ (fuel levels steps : Nat) (form : SpecialForm) (source : Value) (args : List Value)
      (note : Value) (scope : ScopeId) (w w₁ w' : World) (fault : Fault),
      form = .define ∨ form = .defineExpander →
      (expand (evalWithin fuel levels) fuel source scope).outcome w =
        some (.ok (.list (.sym form.name :: args) note), w₁) →
      (evalSteps (evalWithin fuel levels) fuel steps source scope).outcome w = some (.error fault, w') →
      (∃ name expr, args = [.sym name, expr] ∧
        (evalWithin fuel levels expr scope).outcome w₁ = some (.error fault, w')) ∨
      (∀ name expr, args ≠ [.sym name, expr]) ∧ w' = w₁) ∧
    (∀ (fuel levels : Nat) (form : SpecialForm) (args : List Value) (note : Value) (scope : ScopeId)
      (w w' : World) (fault : Fault),
      form = .define ∨ form = .defineExpander →
      w.heap.expander? (.list (.sym form.name :: args) note) scope = none →
      (evalWithin fuel levels (.list (.sym form.name :: args) note) scope).outcome w =
        some (.error fault, w') →
      (∃ name expr, args = [.sym name, expr] ∧
        (evalWithin fuel (levels - 1) expr scope).outcome w = some (.error fault, w')) ∨
      w' = w ∧ (levels = 0 ∨ ∀ name expr, args ≠ [.sym name, expr])) ∧
    (∀ (ev : Evaluator) (count : Nat) (op : Native) (args : List Value) (scope : ScopeId)
      (w w' : World) (fault : Fault),
      (Native.call ev (count + 1) op args scope).outcome w = some (.error fault, w') →
      FailsIn w fault w' (op.callbacks ev count scope w.heap args) ∧
      (op ∉ [Native.apply, .map, .swap, .eval] → w' = w) ∧
      (∀ id note f extra, op = .swap → args = .atom id note :: f :: extra →
        Native.swap.callable f = .ok () →
        (f.call ev count (w.heap.cell id :: extra) scope).outcome w = some (.error fault, w'))) := by
  refine ⟨?_, ?_, ?_⟩
  · intro fuel levels steps form source args note scope w w₁ w' fault hform hx h
    exact SpecialForm.definition_failed hform (evalWithin_settled fuel levels) hx h
  · intro fuel levels form args note scope w w' fault hform hsame h
    cases levels with
    | zero =>
      cases h
      exact .inr ⟨rfl, .inl rfl⟩
    | succ levels =>
      refine (SpecialForm.definition_failed hform (evalWithin_settled fuel levels)
        (expand_same hsame) h).imp_right ?_
      rintro ⟨hmalformed, rfl⟩
      exact ⟨rfl, .inr hmalformed⟩
  · intro ev count op args scope w w' fault h
    have hfails := Native.call_failsIn h
    refine ⟨hfails, fun hop => ?_, ?_⟩
    · refine hfails.unchanged (Native.callbacks_eq_nil (fun c hc => hop ?_) _ _)
      obtain ⟨rfl, -⟩ | ⟨rfl, -⟩ | ⟨rfl, -⟩ | ⟨rfl, -⟩ := Native.behaviour_call hc <;> decide
    · rintro id note f extra rfl rfl hf
      refine FailsIn.of_single ?_
      simpa only [Native.callbacks, Native.cell, hf] using hfails

/-- A world without names, but with an atom. -/
def nameless : World :=
  { World.start Files.empty "" 0 with heap := (Heap.empty.newCell (.int 7)).1 }

/-- Definitions fail with the unbound name that they evaluate, and an atom keeps what it holds where
that is thrown in place of a new value. -/
theorem failures_write_nothing_throw :
    (evalWithin 1 2 (.ofList [.sym "def!", .sym "x", .sym "y"]) ⟨0⟩).outcome nameless =
        some (.error (Cause.unbound "y").fault, nameless) ∧
      (evalWithin 1 2 (.ofList [.sym "defmacro!", .sym "x", .sym "z"]) ⟨0⟩).outcome nameless =
        some (.error (Cause.unbound "z").fault, nameless) ∧
      (evalWithin 1 1 (.sym "y") ⟨0⟩).outcome nameless =
        some (.error (Cause.unbound "y").fault, nameless) ∧
      (evalWithin 1 1 (.sym "z") ⟨0⟩).outcome nameless =
        some (.error (Cause.unbound "z").fault, nameless) ∧
      (Native.call (eval 1) 2 .swap [.atom ⟨0⟩ .nil, .native .throw .nil] ⟨0⟩).outcome nameless =
        some (.error ⟨.user, .int 7⟩, nameless) ∧
      (Value.call (.native .throw .nil) (eval 1) 1 [.int 7] ⟨0⟩).outcome nameless =
        some (.error ⟨.user, .int 7⟩, nameless) := by
  obtain ⟨hexpanded, hdirect, hnative⟩ := failures_write_nothing
  have hsame (head : String) (args : List Value) :
      nameless.heap.expander? (.ofList (.sym head :: args)) ⟨0⟩ = none :=
    Heap.expander?_of_lookup _ _ fun id note h => by
      rw [show nameless.heap.scopes = Scopes.empty from rfl, Scopes.lookup_empty] at h
      cases h
  have hunbound (name : String) : (evalWithin 1 1 (.sym name) ⟨0⟩).outcome nameless =
      some (.error (Cause.unbound name).fault, nameless) :=
    evalSteps_unbound (Scopes.lookup_empty _ _)
  have hdefine : (evalWithin 1 2 (.ofList [.sym "def!", .sym "x", .sym "y"]) ⟨0⟩).outcome nameless =
      some (.error (Cause.unbound "y").fault, nameless) :=
    evalSteps_error ((evalStep_same (hsame _ _)).trans (outcome_bind_error _ (hunbound "y")))
  have hexpander : (evalWithin 1 2 (.ofList [.sym "defmacro!", .sym "x", .sym "z"]) ⟨0⟩).outcome
      nameless = some (.error (Cause.unbound "z").fault, nameless) :=
    evalSteps_error ((evalStep_same (hsame _ _)).trans (outcome_bind_error _ (hunbound "z")))
  have hswap : (Native.call (eval 1) 2 .swap [.atom ⟨0⟩ .nil, .native .throw .nil] ⟨0⟩).outcome
      nameless = some (.error ⟨.user, .int 7⟩, nameless) := Native.swap_error rfl rfl
  refine ⟨hdefine, hexpander, ?_, ?_, hswap, (hnative _ 1 _ _ _ _ _ _ hswap).2.2 _ _ _ _ rfl rfl rfl⟩
  · obtain ⟨name, expr, hargs, hexpr⟩ | ⟨hmalformed, -⟩ :=
      hexpanded 1 1 1 .define _ _ _ _ _ _ _ _ (.inl rfl) (expand_same (hsame _ _)) hdefine
    · cases hargs
      exact hexpr
    · exact absurd rfl (hmalformed "x" (.sym "y"))
  · obtain ⟨name, expr, hargs, hexpr⟩ | ⟨-, hlevels | hmalformed⟩ :=
      hdirect 1 2 .defineExpander _ _ _ _ _ _ (.inr rfl) (hsame _ _) hexpander
    · cases hargs
      exact hexpr
    · cases hlevels
    · exact absurd rfl (hmalformed "x" (.sym "z"))

end MiniLisp
