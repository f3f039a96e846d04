import MiniLisp.Proofs.Rethrowing
import MiniLisp.Proofs.SoundStacks

namespace MiniLisp

open Value Run

variable {α β : Type} {fuel levels : Nat} {stack : CallStack} {scope : ScopeId} {w w' : World} {n : Nat}

namespace Recorded

variable {e : Event} {ev : CallStack → Recorder}

theorem mem_events_bind_first {m : Recorded α} (next : α → Recorded β) (h : e ∈ m.events w) :
    e ∈ (m >>= next).events w :=
  List.mem_append_left _ h

theorem mem_events_bind_next {m : Recorded α} {next : α → Recorded β} {a : α}
    (hm : m.run.outcome w = some (.ok a, w')) (h : e ∈ (next a).events w') :
    e ∈ (m >>= next).events w := by
  apply List.mem_append_right
  rw [hm]
  exact h

theorem mem_events_call {op : Native} {args : List Value} :
    .call (.native op args :: stack) ∈ (callNative ev (fuel + 1) stack op args scope).events w :=
  List.mem_cons_self

/-- What happens in the native that `apply` calls happens in `apply`. -/
theorem mem_events_apply {op : Native} {note : Value} {items : List Value}
    (h : e ∈ (callNative ev fuel (.native .apply [.native op note, ofList items] :: stack) op items
      scope).events w) :
    e ∈ (callNative ev (fuel + 1) stack .apply [.native op note, ofList items] scope).events w := by
  have hcheck : (silent (ofExcept (Native.apply.arity.check Native.apply.name 2))).run.outcome w =
      some (.ok (), w) := rfl
  have hcallable : (silent (ofExcept (Native.apply.callable (.native op note)))).run.outcome w =
      some (.ok (), w) := rfl
  have hitems : (silent (ofExcept (Native.apply.callArguments (ofList items)))).run.outcome w =
      some (.ok items, w) := rfl
  apply List.mem_cons_of_mem
  apply mem_events_bind_next hcheck
  apply List.mem_cons_of_mem
  exact mem_events_bind_next hcallable (mem_events_bind_next hitems (mem_events_bind_first _ h))

/-- What happens in the native that a form calls happens in its evaluation, once the parts have been
evaluated. -/
theorem mem_events_evalWithin {head : Value} {op : Native} {note : Value} {forms args : List Value}
    (hhead : (SpecialForm.symbolName? head).bind SpecialForm.ofName? = none)
    (hsame : w.heap.expander? (ofList (head :: forms)) scope = none)
    (hparts : InOrder (MiniLisp.evalWithin (fuel + 1) levels · scope) (head :: forms) w
      (.native op note :: args) w')
    (h : e ∈ (callNative (evalWithin (fuel + 1) levels) (fuel + 1) (.evaluation :: stack) op args
      scope).events w') :
    e ∈ (evalWithin (fuel + 1) (levels + 1) stack (ofList (head :: forms)) scope).events w := by
  have hplain := plain_evalWithin (fuel + 1) levels (.evaluation :: stack)
  have hexpand : (expand (evalWithin (fuel + 1) levels (.evaluation :: stack)) (fuel + 1)
      (ofList (head :: forms)) scope).run.outcome w = some (.ok (ofList (head :: forms)), w) := by
    rw [run_expand]
    exact expand_same hsame
  have hvalues : (each (fun form => evalWithin (fuel + 1) levels (.evaluation :: stack) form scope)
      (head :: forms)).run.outcome w = some (.ok (.native op note :: args), w') := by
    rw [run_each]
    exact (hplain ▸ hparts).mapM
  rw [evalWithin, evalSteps]
  apply List.mem_cons_of_mem
  apply List.mem_append_left
  apply mem_events_bind_first
  apply mem_events_bind_next hexpand
  simp only [evalExpanded, ofList, hhead]
  exact mem_events_bind_next hvalues (mem_events_bind_first _ h)

end Recorded

/-- Arguments with which `apply` calls itself so many times, and `list` in the end. -/
def nestedCalls : Nat → List Value
  | 0 => [.native .list .nil, ofList []]
  | n + 1 => [.native .apply .nil, ofList (nestedCalls n)]

/-- The stack in which all of these calls are in progress. -/
def CallStack.nested (stack : CallStack) : Nat → CallStack
  | 0 => .native .list [] :: .native .apply (nestedCalls 0) :: stack
  | n + 1 => nested (.native .apply (nestedCalls (n + 1)) :: stack) n

theorem CallStack.natives_nested (stack : CallStack) (n : Nat) :
    (stack.nested n).natives = stack.natives + (n + 2) := by
  induction n generalizing stack with
  | zero => rfl
  | succ n ih =>
    rw [nested, ih, natives]
    omega

theorem Recorded.mem_events_nestedCalls (ev : CallStack → Recorder) (n : Nat) (hfuel : n + 2 ≤ fuel) :
    .call (stack.nested n) ∈ (callNative ev fuel stack .apply (nestedCalls n) scope).events w := by
  induction n generalizing stack fuel with
  | zero =>
    obtain ⟨fuel, rfl⟩ := Nat.exists_eq_add_of_le' hfuel
    exact mem_events_apply mem_events_call
  | succ n ih =>
    obtain ⟨fuel, rfl⟩ : ∃ more, fuel = more + 1 := ⟨fuel - 1, by omega⟩
    exact mem_events_apply (ih (by omega))

theorem call_apply (ev : Evaluator) (op : Native) (note : Value) (items : List Value) :
    (Native.call ev (fuel + 1) .apply [.native op note, ofList items] scope).outcome w =
      (Native.call ev fuel op items scope >>= Run.settle).outcome w :=
  rfl

/-- No level is needed for any of these calls, and they end well. -/
theorem call_nestedCalls (ev : Evaluator) (n : Nat) (hfuel : n + 2 ≤ fuel) :
    (Native.call ev fuel .apply (nestedCalls n) scope).outcome w = some (.ok (ofList []), w) := by
  induction n generalizing fuel with
  | zero =>
    obtain ⟨fuel, rfl⟩ := Nat.exists_eq_add_of_le' hfuel
    rfl
  | succ n ih =>
    obtain ⟨fuel, rfl⟩ : ∃ more, fuel = more + 1 := ⟨fuel - 1, by omega⟩
    exact (call_apply ev .apply .nil (nestedCalls n)).trans (outcome_bind_ok _ (ih (by omega)))

namespace Session

/-- Evaluation of the first form of a text comes to a point where a native begins inside all of this. -/
def StacksUp (fuel : Nat) (source : String) (scope : ScopeId) (w : World) (stack : CallStack) : Prop :=
  ∃ form, Value.read source = .ok (some form) ∧ MiniLisp.StacksUp fuel maxEvalDepth form scope w stack

theorem read_innermost : Value.read "(def! e (list list (list)))" =
    .ok (some (ofList [.sym "def!", .sym "e",
      ofList [.sym "list", .sym "list", ofList [.sym "list"]]])) := by
  refine read_of_tokens rfl ?_
  with_unfolding_all rfl

theorem read_further : Value.read "(def! e (list apply e))" =
    .ok (some (ofList [.sym "def!", .sym "e", ofList [.sym "list", .sym "apply", .sym "e"]])) := by
  refine read_of_tokens rfl ?_
  with_unfolding_all rfl

theorem read_applied : Value.read "(apply apply e)" =
    .ok (some (ofList [.sym "apply", .sym "apply", .sym "e"])) := by
  refine read_of_tokens rfl ?_
  with_unfolding_all rfl

/-- The scope is ready for calling `apply` with what `e` stands for. -/
structure Nested (global : ScopeId) (w : World) (n : Nat) : Prop where
  means : w.heap.Means global [] [.define]
  list : w.heap.scopes.lookup global "list" = some (.native .list .nil)
  apply : w.heap.scopes.lookup global "apply" = some (.native .apply .nil)
  bound : w.heap.scopes.lookup global "e" = some (ofList (nestedCalls n))

variable {global : ScopeId}

theorem nested_binding (hmeans : w.heap.Means global [] [.define])
    (hlist : w.heap.scopes.lookup global "list" = some (.native .list .nil))
    (happly : w.heap.scopes.lookup global "apply" = some (.native .apply .nil)) (n : Nat) :
    Nested global (w.binding global "e" (ofList (nestedCalls n))) n where
  means := hmeans.binding (by decide +kernel) global _
  list := (World.lookup_binding_ne hmeans.known (by decide) global _).trans hlist
  apply := (World.lookup_binding_ne hmeans.known (by decide) global _).trans happly
  bound := World.lookup_binding_self hmeans.known "e" _

/-- In a new global scope `e` is defined as what calls `list` with nothing. -/
theorem exists_innermost : ∃ global w, Arises global w ∧ Nested global w 0 := by
  obtain ⟨global, w, hmade, -⟩ := newGlobal_makes 0 Files.empty "" 0
  have hstandard := newGlobal_standard hmade
  have hmeans := hstandard.means [] [.define]
  have hlist := hstandard.native .list
  have hempty : Gives 198 (ofList [.sym "list"]) global w (ofList []) w :=
    .compute .list rfl rfl hlist .nil rfl rfl rfl
  have hrow : Gives 199 (ofList [.sym "list", .sym "list", ofList [.sym "list"]]) global w
      (ofList (nestedCalls 0)) w :=
    .compute .list rfl rfl hlist (.cons (.symbol hlist rfl) (.cons hempty .nil)) rfl rfl rfl
  have hgives : Gives maxEvalDepth (ofList [.sym "def!", .sym "e", _]) global w _ _ :=
    .definition (hmeans.form .define (by decide)) hrow
  obtain ⟨fuel, htext⟩ := evalText_of_gives read_innermost hgives
  exact ⟨global, _, .evaluate (.start hmade) htext,
    nested_binding hmeans hlist (hstandard.native .apply) 0⟩

/-- One more text nests the calls by one more. -/
theorem Nested.further (h : Nested global w n) : ∃ fuel result w',
    (evalText fuel "(def! e (list apply e))" global).outcome w = some (result, w') ∧
      Nested global w' (n + 1) := by
  have hrow : Gives 199 (ofList [.sym "list", .sym "apply", .sym "e"]) global w
      (ofList (nestedCalls (n + 1))) w :=
    .compute .list rfl rfl h.list (.cons (.symbol h.apply rfl) (.cons (.symbol h.bound rfl) .nil)) rfl
      rfl rfl
  have hgives : Gives maxEvalDepth (ofList [.sym "def!", .sym "e", _]) global w _ _ :=
    .definition (h.means.form .define (by decide)) hrow
  obtain ⟨fuel, htext⟩ := evalText_of_gives read_further hgives
  exact ⟨fuel, _, _, htext, nested_binding h.means h.list h.apply (n + 1)⟩

theorem exists_nested (n : Nat) : ∃ global w, Arises global w ∧ Nested global w n := by
  induction n with
  | zero => exact exists_innermost
  | succ n ih =>
    obtain ⟨global, w, hw, hnested⟩ := ih
    obtain ⟨fuel, _, w', htext, hnested'⟩ := hnested.further
    exact ⟨global, w', .evaluate hw htext, hnested'⟩

/-- All of these natives are in progress in an evaluation that ends well. -/
theorem Nested.stacksUp (h : Nested global w n) : ∃ fuel,
    (evalText fuel "(apply apply e)" global).outcome w = some (.ok (some (ofList [])), w) ∧
      StacksUp fuel "(apply apply e)" global w (CallStack.nested [.evaluation] (n + 1)) := by
  have hparts : GivesAll 199 global [.sym "apply", .sym "apply", .sym "e"] w
      (.native .apply .nil :: nestedCalls (n + 1)) w :=
    .cons (.symbol h.apply rfl) (.cons (.symbol h.apply rfl) (.cons (.symbol h.bound rfl) .nil))
  have hcall : Ultimately (fun fuel => Native.call (evalWithin fuel 199) fuel .apply
      (nestedCalls (n + 1)) global) w (some (.ok (ofList []), w)) :=
    ⟨n + 3, fun fuel hfuel => call_nestedCalls _ (n + 1) hfuel⟩
  have hgives : Gives maxEvalDepth (ofList [.sym "apply", .sym "apply", .sym "e"]) global w (ofList [])
      w :=
    .native .apply rfl h.apply (.cons (.symbol h.apply rfl) (.cons (.symbol h.bound rfl) .nil)) hcall
      rfl
  obtain ⟨least, hgives⟩ := hgives
  obtain ⟨least', hinOrder⟩ := hparts.inOrder
  let fuel := least + least' + n + 3
  have hsame : w.heap.expander? (ofList [.sym "apply", .sym "apply", .sym "e"]) global = none := by
    refine Heap.expander?_of_lookup _ _ fun id note hl => ?_
    rw [h.apply] at hl
    cases hl
  have hcomes : MiniLisp.StacksUp (fuel + 1) maxEvalDepth _ global w
      (CallStack.nested [.evaluation] (n + 1)) :=
    Recorded.mem_events_evalWithin rfl hsame (hinOrder _ (by omega))
      (Recorded.mem_events_nestedCalls _ (n + 1) (by omega))
  exact ⟨fuel + 1, evalText_outcome read_applied (hgives _ (by omega)), _, read_applied, hcomes⟩

end Session

/-- Whatever evaluation comes to, the natives in progress have been called by evaluations, of which
there are no more than levels, or by natives whose own arguments are larger behind the first one. So
there are no more of them than what evaluations have handed over has room for; if that is of bounded
size, the limit on levels bounds the natives as well. -/
theorem natives_in_progress {form : Value} (h : StacksUp fuel levels form scope w stack) :
    (Recorded.evalWithin fuel levels []).plain = evalWithin fuel levels ∧
      stack.Sound ∧ stack.evaluations ≤ levels ∧ stack.handed.length ≤ levels ∧
      stack.natives ≤ CallStack.capacity stack.handed ∧
      ∀ bound, (∀ args ∈ stack.handed, behindFirst args ≤ bound) →
        stack.natives ≤ levels * (bound + 1) := by
  obtain ⟨hsound, hlevels⟩ := h.sound
  have hhanded : stack.handed.length ≤ levels := Nat.le_trans stack.handed_length hlevels
  refine ⟨Recorded.plain_evalWithin fuel levels [], hsound, hlevels, hhanded,
    hsound.natives_le, fun bound hbound => ?_⟩
  exact Nat.le_trans (hsound.natives_le_mul hbound) (Nat.mul_le_mul_right (bound + 1) hlevels)

/-- Where `apply` calls `list`, two natives are in progress in one evaluation. -/
theorem natives_in_progress_apply :
    StacksUp 2 maxEvalDepth (ofList (.native .apply .nil :: nestedCalls 0)) ⟨0⟩
        (World.start Files.empty "" 0) (CallStack.nested [.evaluation] 0) ∧
      (CallStack.nested [.evaluation] 0).natives = 2 ∧
      (CallStack.nested [.evaluation] 0).handed = [nestedCalls 0] ∧
      (CallStack.nested [.evaluation] 0).natives ≤ maxEvalDepth * (1 + 1) := by
  have hcomes : StacksUp 2 maxEvalDepth (ofList (.native .apply .nil :: nestedCalls 0)) ⟨0⟩
      (World.start Files.empty "" 0) (CallStack.nested [.evaluation] 0) :=
    Recorded.mem_events_evalWithin rfl rfl (.cons rfl (.cons rfl (.cons rfl .nil)))
      (Recorded.mem_events_nestedCalls _ 0 (Nat.le_refl 2))
  refine ⟨hcomes, rfl, rfl, (natives_in_progress hcomes).2.2.2.2.2 1 fun args hargs => ?_⟩
  obtain rfl := List.mem_singleton.mp hargs
  exact Nat.le_refl 1

/-- No constant bounds the natives in progress in all sessions, not even where evaluation ends well. -/
theorem natives_in_progress_unbounded : ¬ ∃ bound, ∀ (global : ScopeId) (w w' : World) (fuel : Nat)
    (source : String) (v : Value) (stack : CallStack), Session.Arises global w →
      (Session.evalText fuel source global).outcome w = some (.ok (some v), w') →
      Session.StacksUp fuel source global w stack → stack.natives ≤ bound := by
  rintro ⟨bound, hbound⟩
  obtain ⟨global, w, hw, hnested⟩ := Session.exists_nested bound
  obtain ⟨fuel, htext, hcomes⟩ := hnested.stacksUp
  have hle := hbound global w w fuel _ _ _ hw htext hcomes
  rw [CallStack.natives_nested] at hle
  omega

end MiniLisp
