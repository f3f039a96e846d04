import MiniLisp.Proofs.Recording

namespace MiniLisp

open Value Run

variable {α β : Type}

namespace CallStack

/-- How many evaluations are in progress inside one another. -/
def evaluations : CallStack → Nat
  | [] => 0
  | .evaluation :: stack => evaluations stack + 1
  | .native .. :: stack => evaluations stack

/-- How many natives are in progress inside one another. -/
def natives : CallStack → Nat
  | [] => 0
  | .evaluation :: stack => natives stack
  | .native .. :: stack => natives stack + 1

/-- The arguments with which natives have been called by evaluations, not by other natives. -/
def handed : CallStack → List (List Value)
  | .native _ args :: .evaluation :: stack => args :: handed stack
  | _ :: stack => handed stack
  | [] => []

end CallStack

mutual

/-- How many values there are, counting into lists and vectors. -/
def Value.size : Value → Nat
  | .list items _ | .vec items _ => rowSize items + 1
  | _ => 1

def rowSize : List Value → Nat
  | [] => 0
  | v :: vs => v.size + rowSize vs

end

/-- The size of all arguments behind the first one. -/
def behindFirst (args : List Value) : Nat :=
  rowSize args.tail

theorem Value.size_pos (v : Value) : 0 < v.size := by
  cases v <;> exact Nat.zero_lt_succ _

theorem rowSize_append (vs ws : List Value) : rowSize (vs ++ ws) = rowSize vs + rowSize ws := by
  induction vs with
  | nil => exact (Nat.zero_add _).symm
  | cons v vs ih => rw [List.cons_append, rowSize, rowSize, ih, Nat.add_assoc]

theorem behindFirst_le (args : List Value) : behindFirst args ≤ rowSize args := by
  cases args with
  | nil => exact Nat.le_refl _
  | cons v vs => exact Nat.le_add_left _ _

theorem size_of_elements {v : Value} {items : List Value} (h : v.elements? = some items) :
    v.size = rowSize items + 1 := by
  cases v <;> cases h <;> rfl

theorem Native.size_of_callArguments {op : Native} {v : Value} {items : List Value}
    (h : op.callArguments v = .ok items) : v.size = rowSize items + 1 := by
  unfold callArguments at h
  cases hitems : v.elements? with
  | none =>
    rw [hitems] at h
    cases h
  | some found =>
    rw [hitems] at h
    cases h
    exact size_of_elements hitems

/-- What `apply` calls with is smaller than what it is called with. -/
theorem behindFirst_apply {op : Native} (f a : Value) {more items : List Value}
    (h : op.callArguments ((a :: more).getLast (List.cons_ne_nil a more)) = .ok items) :
    behindFirst ((a :: more).dropLast ++ items) < behindFirst (f :: a :: more) := by
  have hne := List.cons_ne_nil a more
  have hrow : rowSize (a :: more) = rowSize (a :: more).dropLast + (rowSize items + 1) := by
    calc rowSize (a :: more)
        = rowSize ((a :: more).dropLast ++ [(a :: more).getLast hne]) := by
          rw [List.dropLast_concat_getLast hne]
      _ = rowSize (a :: more).dropLast + ((a :: more).getLast hne).size := by
          rw [rowSize_append, rowSize, rowSize, Nat.add_zero]
      _ = rowSize (a :: more).dropLast + (rowSize items + 1) := by
          rw [Native.size_of_callArguments h]
  have hle := behindFirst_le ((a :: more).dropLast ++ items)
  rw [rowSize_append] at hle
  change _ < rowSize (a :: more)
  omega

/-- What can be in progress inside one another: whatever an evaluation calls, and what a native calls
with arguments that are smaller behind the first one. -/
inductive CallStack.Sound : CallStack → Prop
  | nil : Sound []
  | evaluation {stack} (h : Sound stack) : Sound (.evaluation :: stack)
  | byEvaluation {stack} (op : Native) (args : List Value) (h : Sound (.evaluation :: stack)) :
    Sound (.native op args :: .evaluation :: stack)
  | byNative {stack op args} (op' : Native) {args'} (h : Sound (.native op args :: stack))
      (hop : op = .apply ∨ op = .map ∨ op = .swap) (hsmaller : behindFirst args' < behindFirst args) :
    Sound (.native op' args' :: .native op args :: stack)

namespace CallStack

/-- How much room the innermost native leaves for others that are called by natives. -/
def room : CallStack → Nat
  | .native _ args :: _ => behindFirst args
  | _ => 0

/-- For how many natives these arguments make room: for each row the native that it is handed to, and
those that this one calls. -/
def capacity : List (List Value) → Nat
  | [] => 0
  | args :: rows => behindFirst args + 1 + capacity rows

theorem capacity_le {bound : Nat} {rows : List (List Value)}
    (h : ∀ args ∈ rows, behindFirst args ≤ bound) : capacity rows ≤ rows.length * (bound + 1) := by
  induction rows with
  | nil => exact Nat.zero_le _
  | cons args rows ih =>
    have hfirst := h args List.mem_cons_self
    have hrest := ih fun args hargs => h args (List.mem_cons_of_mem _ hargs)
    rw [capacity, List.length_cons, Nat.succ_mul]
    omega

theorem Sound.natives_add_room_le {stack : CallStack} (h : stack.Sound) :
    stack.natives + stack.room ≤ capacity stack.handed := by
  induction h with
  | nil => exact Nat.le_refl _
  | evaluation h ih =>
    simp only [natives, room, handed]
    omega
  | byEvaluation op args h ih =>
    simp only [natives, room, handed, capacity] at ih ⊢
    omega
  | @byNative stack op args op' args' h hop hsmaller ih =>
    have hsame : handed (.native op' args' :: .native op args :: stack) =
        handed (.native op args :: stack) := rfl
    rw [hsame]
    simp only [natives, room] at ih ⊢
    omega

theorem handed_length (stack : CallStack) : stack.handed.length ≤ stack.evaluations := by
  fun_induction CallStack.handed stack with
  | case1 op args stack ih =>
    simp only [List.length_cons, evaluations]
    omega
  | case2 activity stack _ ih => cases activity <;> simp only [evaluations] <;> omega
  | case3 => exact Nat.le_refl _

/-- There are no more natives than what evaluations have handed over has room for. -/
theorem Sound.natives_le {stack : CallStack} (h : stack.Sound) :
    stack.natives ≤ capacity stack.handed :=
  Nat.le_trans (Nat.le_add_right _ _) h.natives_add_room_le

/-- If what evaluations hand over is of bounded size, the natives are bounded by the evaluations. -/
theorem Sound.natives_le_mul {stack : CallStack} (h : stack.Sound) {bound : Nat}
    (hbound : ∀ args ∈ stack.handed, behindFirst args ≤ bound) :
    stack.natives ≤ stack.evaluations * (bound + 1) := by
  calc stack.natives
      ≤ capacity stack.handed := h.natives_le
    _ ≤ stack.handed.length * (bound + 1) := capacity_le hbound
    _ ≤ stack.evaluations * (bound + 1) := Nat.mul_le_mul_right _ (handed_length stack)

end CallStack

namespace Recorded

/-- Whatever native is called, what is in progress then has come about as calls do, in no more evaluations
than the limit. -/
def Orderly (limit : Nat) (m : Recorded α) : Prop :=
  ∀ w stack, .call stack ∈ m.events w → stack.Sound ∧ stack.evaluations ≤ limit

namespace Orderly

variable {limit : Nat}

theorem silent (run : Run α) : (Recorded.silent run).Orderly limit :=
  fun _ _ h => absurd h List.not_mem_nil

theorem pure (a : α) : (Pure.pure a : Recorded α).Orderly limit :=
  silent _

/-- What follows need be orderly only where it is come to. -/
theorem bind_of {m : Recorded α} {next : α → Recorded β} (h : m.Orderly limit)
    (hn : ∀ a w w', m.run.outcome w = some (.ok a, w') → (next a).Orderly limit) :
    (m >>= next).Orderly limit := by
  intro w stack hcall
  rcases List.mem_append.mp hcall with hfirst | hnext
  · exact h w stack hfirst
  · rcases ho : m.run.outcome w with _ | ⟨fault | a, w'⟩
    · simp [ho, afterwards] at hnext
    · simp [ho, afterwards] at hnext
    · rw [ho] at hnext
      exact hn a w w' ho w' stack hnext

theorem bind {m : Recorded α} {next : α → Recorded β} (h : m.Orderly limit)
    (hn : ∀ a, (next a).Orderly limit) : (m >>= next).Orderly limit :=
  h.bind_of fun a _ _ _ => hn a

theorem ofExcept {result : Except Fault α} {next : α → Recorded β}
    (h : ∀ a, result = .ok a → (next a).Orderly limit) :
    (Recorded.silent (MonadExcept.ofExcept result) >>= next).Orderly limit :=
  (silent _).bind_of fun a _ _ ho => h a (of_outcome_ofExcept ho).1

theorem attempt {m : Recorded α} (h : m.Orderly limit) : m.attempt.Orderly limit :=
  h

theorem calling {m : Recorded α} {stack : CallStack}
    (hstack : stack.Sound ∧ stack.evaluations ≤ limit) (h : m.Orderly limit) :
    (calling stack m).Orderly limit := by
  intro w other hcall
  rcases List.mem_cons.mp hcall with heq | hmem
  · cases heq
    exact hstack
  · exact h w other hmem

theorem running {m : Recorded α} (op : Native) (args : List Value) (scope : ScopeId)
    (h : m.Orderly limit) : (running op args scope m).Orderly limit := by
  intro w stack hcall
  rcases List.mem_cons.mp hcall with heq | hmem
  · cases heq
  · exact h w stack hmem

theorem stepping {m : Recorded Value} (form : Value) (scope : ScopeId) (h : m.Orderly limit) :
    (stepping form scope m).Orderly limit := by
  intro w stack hcall
  rcases List.mem_cons.mp hcall with heq | hmem
  · cases heq
  · rcases List.mem_append.mp hmem with hmem | hvalue
    · exact h w stack hmem
    · rcases ho : m.run.outcome w with _ | ⟨fault | v, w'⟩ <;> simp [ho, afterwards] at hvalue

theorem each {f : α → Recorded β} (h : ∀ x, (f x).Orderly limit) (xs : List α) :
    (each f xs).Orderly limit := by
  induction xs with
  | nil => exact pure _
  | cons x xs ih => exact bind (h x) fun y => bind ih fun ys => pure _

section Natives

variable {ev : Recorder} {call : Value → List Value → Recorded Value} {scope : ScopeId}
  {args : List Value}

theorem callClosure (hev : ∀ form scope, (ev form scope).Orderly limit) (c : Closure) (args : List Value) :
    (callClosure ev c args).Orderly limit :=
  bind (silent _) fun inner => hev c.body inner

theorem callWith {native : Native → List Value → ScopeId → Recorded Value}
    (hev : ∀ form scope, (ev form scope).Orderly limit) (hn : ∀ op, (native op args scope).Orderly limit)
    (f : Value) : (callWith ev native f args scope).Orderly limit := by
  cases f with
  | native op note => exact hn op
  | fn id expander note =>
    refine bind (silent _) fun c? => ?_
    cases c? with
    | none => exact silent _
    | some c => exact callClosure hev c args
  | _ => exact silent _

/-- A native records nothing if evaluation does not, nor any native that it calls with arguments that
are smaller behind the first one. -/
theorem perform {op : Native} (hev : ∀ form scope, (ev form scope).Orderly limit)
    (hcall : op = .apply ∨ op = .map ∨ op = .swap → ∀ f args',
      behindFirst args' < behindFirst args → (call f args').Orderly limit) :
    (perform ev op call args scope).Orderly limit := by
  unfold Recorded.perform
  cases hop : op.behaviour with
  | compute f => exact silent _
  | act f => exact silent _
  | call c =>
    cases c with
    | apply =>
      have hop : op = .apply := by cases op <;> cases hop; rfl
      match args with
      | f :: a :: more =>
        refine ofExcept fun _ _ => ofExcept fun items hitems => ?_
        exact hcall (.inl hop) f _ (behindFirst_apply f a hitems)
      | [] | [_] => exact silent _
    | map =>
      have hop : op = .map := by cases op <;> cases hop; rfl
      match args with
      | [f, xs] =>
        refine ofExcept fun _ _ => ofExcept fun items _ => ?_
        refine bind (each (fun item => ?_) items) fun _ => pure _
        exact hcall (.inr (.inl hop)) f [item] (Nat.add_pos_left xs.size_pos _)
      | [] | [_] | _ :: _ :: _ :: _ => exact silent _
    | swap =>
      have hop : op = .swap := by cases op <;> cases hop; rfl
      match args with
      | target :: f :: extra =>
        refine bind (silent _) fun id => bind (silent _) fun _ => bind (silent _) fun held => ?_
        refine bind (hcall (.inr (.inr hop)) f _ ?_) fun v => bind (silent _) fun _ => pure _
        exact Nat.lt_add_of_pos_left f.size_pos
      | [] | [_] => exact silent _
    | eval =>
      match args with
      | [form] => exact bind (silent _) fun root => hev form root
      | [] | _ :: _ :: _ => exact silent _

end Natives

section SpecialForms

variable {ev : Recorder} {scope : ScopeId} {args : List Value}
  (hev : ∀ form scope, (ev form scope).Orderly limit)
include hev

theorem expand (fuel : Nat) (form : Value) : (expand ev fuel form scope).Orderly limit := by
  induction fuel generalizing form with
  | zero =>
    rw [Recorded.expand]
    refine bind (silent _) fun found => ?_
    cases found with
    | none => exact pure form
    | some found => exact silent _
  | succ fuel ih =>
    rw [Recorded.expand]
    refine bind (silent _) fun found => ?_
    cases found with
    | none => exact pure form
    | some found => exact bind (callClosure hev found.1 found.2) ih

theorem bindAll (row : List Value) : (bindAll ev scope row).Orderly limit := by
  induction row using SpecialForm.bindAll.induct with
  | case1 name expr more ih => exact bind (hev _ _) fun v => bind (silent _) fun _ => ih
  | case2 head next more hne =>
    rw [Recorded.bindAll]
    · exact silent _
    · exact hne
  | case3 row hlong hshort =>
    rw [Recorded.bindAll]
    · exact pure _
    all_goals assumption

theorem runSequence : (runSequence ev scope args).Orderly limit := by
  fun_induction Recorded.runSequence ev scope args with
  | case1 => exact pure _
  | case2 => exact pure _
  | case3 form next more ih => exact bind (hev _ _) fun _ => ih

theorem runLetIn : (runLetIn ev scope args).Orderly limit := by
  unfold Recorded.runLetIn
  split
  · split
    · exact silent _
    · split
      · exact silent _
      · exact bind (silent _) fun inner => bind (bindAll hev _) fun _ => pure _
  · exact silent _

theorem runHandle : (runHandle ev scope args).Orderly limit := by
  unfold Recorded.runHandle
  split
  · exact pure _
  · split
    · exact silent _
    · refine bind (attempt (hev _ _)) fun result => ?_
      cases result with
      | ok v => exact pure _
      | error fault => exact bind (silent _) fun _ => pure _
  · exact silent _

theorem runForm (form : SpecialForm) (fuel : Nat) : (runForm ev form fuel scope args).Orderly limit := by
  cases form with
  | define | defineExpander =>
    simp only [Recorded.runForm, Recorded.runDefine]
    split
    · exact bind (hev _ _) fun v => bind (silent _) fun v => bind (silent _) fun _ => pure _
    · exact silent _
    · exact silent _
  | letIn => exact runLetIn hev
  | sequence => exact runSequence hev
  | choice =>
    simp only [Recorded.runForm, Recorded.runChoice]
    split
    · exact bind (hev _ _) fun _ => pure _
    · exact bind (hev _ _) fun _ => pure _
    · exact silent _
  | function => exact silent _
  | quote | quasiquote =>
    simp only [Recorded.runForm]
    split
    · exact pure _
    · exact silent _
  | expansion =>
    simp only [Recorded.runForm]
    split
    · exact bind (expand hev fuel _) fun _ => pure _
    · exact silent _
  | handle => exact runHandle hev

theorem evalPlain (form : Value) : (evalPlain ev form scope).Orderly limit := by
  unfold Recorded.evalPlain
  split
  · exact silent _
  · exact bind (each (fun item => hev _ _) _) fun _ => pure _
  · exact bind (each (fun e => bind (hev _ _) fun _ => pure _) _) fun _ => pure _
  · exact pure _

end SpecialForms

section Stacks

variable {ev : CallStack → Recorder} {fuel levels : Nat} {stack : CallStack} {scope : ScopeId}
  (hev : ∀ {stack : CallStack}, stack.Sound → stack.evaluations + levels ≤ limit →
    ∀ form scope, (ev stack form scope).Orderly limit)
include hev

theorem callNative (fuel : Nat) {op : Native} {args : List Value}
    (hsound : CallStack.Sound (.native op args :: stack))
    (hlevels : stack.evaluations + levels ≤ limit) (scope : ScopeId) :
    (callNative ev fuel stack op args scope).Orderly limit := by
  induction fuel generalizing stack op args scope with
  | zero => exact silent _
  | succ fuel ih =>
    have hinside : CallStack.evaluations (.native op args :: stack) + levels ≤ limit := hlevels
    have hcalls := hev hsound hinside
    refine calling ⟨hsound, Nat.le_trans (Nat.le_add_right _ _) hinside⟩ ?_
    refine bind (silent _) fun _ => running op args scope ?_
    refine perform hcalls fun hop f args' hsmaller => ?_
    refine bind (callWith hcalls (fun op' => ?_) f) fun v => silent _
    exact ih (hsound.byNative op' hop hsmaller) hinside scope

theorem evalCall (hsound : CallStack.Sound (.evaluation :: stack))
    (hlevels : CallStack.evaluations (.evaluation :: stack) + levels ≤ limit) (forms : List Value) :
    (evalCall ev fuel (.evaluation :: stack) forms scope).Orderly limit := by
  refine bind (each (fun form => hev hsound hlevels form scope) forms) fun vs => ?_
  match vs with
  | [] => exact pure _
  | .native op note :: args =>
    exact bind (callNative hev fuel (hsound.byEvaluation op args) hlevels scope) fun v => pure _
  | .fn id expander note :: args =>
    refine bind (silent _) fun c? => ?_
    cases c? with
    | none => exact silent _
    | some c => exact bind (silent _) fun inner => pure _
  | .nil :: _ | .bool _ :: _ | .int _ :: _ | .str _ :: _ | .sym _ :: _ | .kw _ :: _ | .list .. :: _
  | .vec .. :: _ | .map .. :: _ | .atom .. :: _ | .error .. :: _ | .caught .. :: _ => exact silent _

theorem evalSteps (hsound : CallStack.Sound (.evaluation :: stack))
    (hlevels : CallStack.evaluations (.evaluation :: stack) + levels ≤ limit) (steps : Nat)
    (form : Value) (scope : ScopeId) :
    (evalSteps ev fuel (.evaluation :: stack) steps form scope).Orderly limit := by
  have hparts := hev hsound hlevels
  induction steps generalizing form scope with
  | zero => exact silent _
  | succ steps ih =>
    refine stepping form scope (bind (bind (expand hparts fuel form) fun expanded => ?_) fun step => ?_)
    · unfold Recorded.evalExpanded
      split
      · split
        · exact runForm hparts _ fuel
        · exact evalCall hev hsound hlevels _
      · exact bind (evalPlain hparts _) fun v => pure _
    · cases step with
      | done v => exact silent _
      | tail form scope => exact ih form scope

end Stacks

theorem evalWithin (fuel levels : Nat) {stack : CallStack} (hsound : stack.Sound)
    (hlevels : stack.evaluations + levels ≤ limit) (form : Value) (scope : ScopeId) :
    (evalWithin fuel levels stack form scope).Orderly limit := by
  induction levels generalizing stack form scope with
  | zero => exact silent _
  | succ levels ih =>
    have hdeeper : CallStack.evaluations (.evaluation :: stack) + levels ≤ limit := by
      simp only [CallStack.evaluations]
      omega
    exact evalSteps ih hsound.evaluation hdeeper fuel form scope

end Orderly
end Recorded

/-- The evaluation comes to the call of a native, and with it all of this is in progress. It need not end
for that. -/
def StacksUp (fuel levels : Nat) (form : Value) (scope : ScopeId) (w : World) (stack : CallStack) :
    Prop :=
  .call stack ∈ (Recorded.evalWithin fuel levels [] form scope).events w

/-- Whatever is in progress has come about as calls do, in no more evaluations than there are levels. -/
theorem StacksUp.sound {fuel levels : Nat} {form : Value} {scope : ScopeId} {w : World}
    {stack : CallStack} (h : StacksUp fuel levels form scope w stack) :
    stack.Sound ∧ stack.evaluations ≤ levels := by
  have hlevels : CallStack.evaluations [] + levels ≤ levels := Nat.le_of_eq (Nat.zero_add levels)
  exact Recorded.Orderly.evalWithin fuel levels .nil hlevels form scope w stack h

end MiniLisp
