import MiniLisp.Proofs.FailFast
import MiniLisp.Proofs.Trampoline

namespace MiniLisp

open Value Run

/-- Something that calls an evaluator back, with some fuel for what natives and steps it takes. -/
abbrev Calling := Evaluator → Nat → Run Value

namespace Calling

/-- Nothing that is called back finds that no level is left: what would happen then makes no
difference. -/
def WithinLimit (run : Calling) (fuel levels : Nat) (w : World) : Prop :=
  ∀ floor, (run (evalOver floor fuel levels) fuel).outcome w =
    (run (evalWithin fuel levels) fuel).outcome w

/-- With an evaluator that lets more runs end, and with more fuel, it ends in the same way. -/
def Monotone (run : Calling) : Prop :=
  ∀ {ev ev' : Evaluator} {fuel fuel' : Nat}, ev.Below ev' → fuel ≤ fuel' →
    (run ev fuel).Below (run ev' fuel')

variable {run : Calling} {fuel levels n : Nat} {w : World} {ending : Except Fault Value × World}

/-- What ends within the limit ends in the same way with plain recursive evaluation. -/
theorem recursive_of_within (hrun : run.Monotone) (hw : run.WithinLimit fuel levels w)
    (h : (run (evalWithin fuel levels) fuel).outcome w = some ending) :
    ∃ least, ∀ n, least ≤ n → (run (Recursive.eval n) n).outcome w = some ending := by
  obtain ⟨least, hbelow⟩ := evalOver_below_recursive fuel levels
  have hdiverge := (hw fun _ _ => Run.diverge).trans h
  refine ⟨max least fuel, fun n hn => ?_⟩
  exact hrun (hbelow n (by omega)) (by omega) w ending hdiverge

/-- What ends with plain recursive evaluation ends in the same way within the limit. -/
theorem within_of_recursive (hrun : run.Monotone)
    (h : (run (Recursive.eval n) n).outcome w = some ending) (hn : n ≤ fuel)
    (hw : run.WithinLimit fuel levels w) :
    (run (evalWithin fuel levels) fuel).outcome w = some ending := by
  rw [← hw (Recursive.eval n)]
  exact hrun (recursive_below_evalOver hn levels (Nat.le_refl n)) hn w ending h

end Calling

/-- A way to call something with values for arguments. -/
inductive CallWay where
  /-- A form calls. It holds what is called and the quoted values. -/
  | form
  /-- A native calls. -/
  | inside
  /-- A native calls `apply`, with some of the values and a list or vector of the others. -/
  | apply (front : List Value) (last : Value)

namespace CallWay

/-- The values are those that this way of calling passes on. -/
def Passes (values : List Value) : CallWay → Prop
  | form | inside => True
  | apply front last => ∃ items, last.elements? = some items ∧ front ++ items = values

/-- The call of `f` in this way, from a scope. -/
def call (f : Value) (values : List Value) (scope : ScopeId) : CallWay → Calling
  | form, ev, _ => ev (ofList (f :: values.map quoted)) scope
  | inside, ev, fuel => f.call ev fuel values scope
  | apply front last, ev, fuel => Native.call ev fuel .apply (f :: (front ++ [last])) scope

end CallWay

/-- Functions, expanders and natives can be called. -/
def Value.IsCallable : Value → Prop
  | .native .. | .fn .. => True
  | _ => False

theorem Value.IsCallable.callable {f : Value} (h : f.IsCallable) (op : Native) :
    op.callable f = .ok () := by
  cases f with
  | native | fn => rfl
  | _ => exact h.elim

section Ways

variable {f : Value} {values : List Value} {scope : ScopeId} {w : World} {ev ev' : Evaluator}
  {fuel fuel' n : Nat} {ending : Except Fault Value × World}

theorem Value.call_below (h : ev.Below ev') (hf : fuel ≤ fuel') :
    (f.call ev fuel values scope).Below (f.call ev' fuel' values scope) := by
  apply Run.Below.bind
  · apply callWith_below h
    intro op args scope
    exact Native.call_below h hf op args scope
  · intro v
    exact .refl _

theorem settle_value {v : Value} (h : ∀ kind payload, v ≠ .error kind payload) :
    Run.settle v = pure v := by
  cases v with
  | error kind payload => exact absurd rfl (h kind payload)
  | _ => rfl

theorem eval_quoted {v : Value} (hv : ∀ kind payload, v ≠ .error kind payload)
    (hquote : ∀ id note, w.heap.scopes.lookup scope "quote" ≠ some (.fn id true note)) :
    (Recursive.eval (n + 1) v.quoted scope).outcome w = some (.ok v, w) := by
  have hsame : w.heap.expander? v.quoted scope = none := Heap.expander?_of_lookup [v] .nil hquote
  have hstep : (evalStep (Recursive.eval n) n v.quoted scope).outcome w =
      some (.ok (.done v), w) := evalStep_same hsame
  rw [Recursive.eval_succ, outcome_bind_ok _ hstep, Step.finish, settle_value hv]
  rfl

/-- The quoted values of a form come to the values, one after the other. -/
theorem inOrder_quoted (hvalues : ∀ kind payload, Value.error kind payload ∉ values)
    (hquote : ∀ id note, w.heap.scopes.lookup scope "quote" ≠ some (.fn id true note)) :
    InOrder (Recursive.eval (n + 1) · scope) (values.map quoted) w values w := by
  induction values with
  | nil => exact .nil
  | cons v values ih =>
    simp only [List.mem_cons, not_or] at hvalues
    have hv : ∀ kind payload, v ≠ .error kind payload :=
      fun kind payload h => (hvalues kind payload).1 h.symm
    exact .cons (eval_quoted hv hquote) (ih fun kind payload => (hvalues kind payload).2)

/-- A form that calls with quoted values calls as a native does. -/
theorem eval_form (hf : f.IsCallable) (hvalues : ∀ kind payload, Value.error kind payload ∉ values)
    (hquote : ∀ id note, w.heap.scopes.lookup scope "quote" ≠ some (.fn id true note)) :
    (Recursive.eval (n + 2) (ofList (f :: values.map quoted)) scope).outcome w =
      (f.call (Recursive.eval (n + 1)) (n + 1) values scope).outcome w := by
  -- what can be called stands for itself and is no name
  obtain ⟨hhead, hsame, hheading⟩ :
      (Recursive.eval (n + 1) f scope).outcome w = some (.ok f, w) ∧
      w.heap.expander? (ofList (f :: values.map quoted)) scope = none ∧
      SpecialForm.heading? (f :: values.map quoted) = none := by
    cases f with
    | native | fn => exact ⟨rfl, rfl, rfl⟩
    | _ => exact hf.elim
  have hparts : InOrder (Recursive.eval (n + 1) · scope) (f :: values.map quoted) w (f :: values) w :=
    .cons hhead (inOrder_quoted hvalues hquote)
  rw [Recursive.eval_succ, outcome_bind, evalStep_same hsame, ← outcome_bind, ofList,
    evalExpanded_call _ (List.cons_ne_nil _ _) hheading,
    ← Recursive.application_finish (Recursive.settled_eval (n + 1)), Recursive.application,
    bind_assoc, outcome_bind_ok _ hparts.mapM]
  rfl

end Ways

end MiniLisp
