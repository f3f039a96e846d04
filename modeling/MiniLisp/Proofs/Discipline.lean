import MiniLisp.Eval
import MiniLisp.Proofs.Outcome
import MiniLisp.Proofs.ScopeChain

namespace MiniLisp

open Run

variable {α β : Type}

/-- A rule for heaps together with the scopes in which names may be bound, such that nothing that evaluation
does to a heap breaks the rule. -/
structure Discipline where
  holds : Heap → Prop
  /-- Names may be bound here, now or once the scope is there. -/
  usable : ScopeId → Prop
  functions : ∀ {heap id c}, holds heap → heap.closure? id = some c → heap.Knows c.scope
  enter : ∀ {heap scope} bindings, holds heap → heap.Knows scope →
    holds (heap.enter (some scope) bindings).1 ∧ usable (heap.enter (some scope) bindings).2
  bind : ∀ {heap scope} name v, holds heap → usable scope → holds (heap.bind scope name v)
  newCell : ∀ {heap} v, holds heap → holds (heap.newCell v).1
  setCell : ∀ {heap} id v, holds heap → holds (heap.setCell id v)
  newClosure : ∀ {heap c}, holds heap → heap.Knows c.scope → holds (heap.newClosure c).1

namespace Discipline

variable (D : Discipline)

/-- Forms may be evaluated in the scope as soon as there are so many scopes. -/
def Admits (count : Nat) (scope : ScopeId) : Prop :=
  D.usable scope ∧ scope.index < count

/-- The outermost scopes around usable ones are usable, too. -/
def AdmitsRoots : Prop :=
  ∀ ⦃heap scope⦄, D.holds heap → D.usable scope → heap.Knows scope →
    D.usable (heap.scopes.root scope)

variable {D}

theorem Admits.mono {count count' : Nat} {scope : ScopeId} (h : D.Admits count scope)
    (hc : count ≤ count') : D.Admits count' scope :=
  ⟨h.1, Nat.lt_of_lt_of_le h.2 hc⟩

end Discipline

/-- Any result at all. -/
abbrev Anything : Nat → α → Prop :=
  fun _ _ => True

/-- In a world that keeps to the discipline and has at least so many scopes, both runs end in the same
way or not at all. Where they end, the discipline still holds, no scope is gone, and the result has
the property, which may depend on the number of scopes. -/
def Run.Obeys (D : Discipline) (count : Nat) (property : Nat → α → Prop) (a b : Run α) : Prop :=
  ∀ w, D.holds w.heap → count ≤ w.heap.scopeCount →
    b.outcome w = a.outcome w ∧
    ∀ result w', a.outcome w = some (result, w') →
      D.holds w'.heap ∧ w.heap.scopeCount ≤ w'.heap.scopeCount ∧
      ∀ x, result = .ok x → property w'.heap.scopeCount x

/-- Every evaluation in an admitted scope keeps to the discipline, with either evaluator. -/
def Evaluator.Obeys (D : Discipline) (ev ev' : Evaluator) : Prop :=
  ∀ ⦃count scope⦄ form, D.Admits count scope →
    (ev form scope).Obeys D count Anything (ev' form scope)

namespace Run.Obeys

variable {D : Discipline} {count count' : Nat} {P : Nat → α → Prop} {Q : Nat → β → Prop}
  {scope : ScopeId}

theorem mono {a b : Run α} (h : Obeys D count P a b) (hc : count ≤ count') :
    Obeys D count' P a b :=
  fun w hw hcount => h w hw (Nat.le_trans hc hcount)

theorem diverge : Obeys D count P (Run.diverge : Run α) Run.diverge := by
  refine fun w _ _ => ⟨rfl, fun result w' h => ?_⟩
  cases h

theorem pure {x : α} (h : ∀ m, count ≤ m → P m x) :
    Obeys D count P (Pure.pure x : Run α) (Pure.pure x) := by
  refine fun w hw hcount => ⟨rfl, fun result w' hr => ?_⟩
  cases hr
  refine ⟨hw, Nat.le_refl _, fun y hy => ?_⟩
  cases hy
  exact h _ hcount

theorem value (x : α) : Obeys D count Anything (Pure.pure x : Run α) (Pure.pure x) :=
  pure fun _ _ => trivial

theorem throw (fault : Fault) :
    Obeys D count P (MonadExcept.throw fault : Run α) (MonadExcept.throw fault) := by
  refine fun w hw _ => ⟨rfl, fun result w' hr => ?_⟩
  cases hr
  exact ⟨hw, Nat.le_refl _, fun y hy => by cases hy⟩

theorem raise (cause : Cause) : Obeys D count P (cause.raise : Run α) cause.raise :=
  throw cause.fault

theorem bind {a b : Run α} {f g : α → Run β} (h : Obeys D count P a b)
    (hfg : ∀ m x, count ≤ m → P m x → Obeys D m Q (f x) (g x)) :
    Obeys D count Q (a >>= f) (b >>= g) := by
  intro w hw hcount
  obtain ⟨hsame, hend⟩ := h w hw hcount
  cases ha : a.outcome w with
  | none =>
    rw [ha] at hsame
    rw [outcome_bind, outcome_bind, hsame, ha]
    exact ⟨rfl, fun _ _ hr => by cases hr⟩
  | some ending =>
    obtain ⟨first, w₁⟩ := ending
    obtain ⟨hw₁, hgrown, hfirst⟩ := hend first w₁ ha
    rw [ha] at hsame
    cases first with
    | ok x =>
      rw [outcome_bind_ok f ha, outcome_bind_ok g hsame]
      obtain ⟨hsame', hend'⟩ :=
        hfg _ x (Nat.le_trans hcount hgrown) (hfirst x rfl) w₁ hw₁ (Nat.le_refl _)
      refine ⟨hsame', fun result w' hr => ?_⟩
      obtain ⟨hw', hgrown', hresult⟩ := hend' result w' hr
      exact ⟨hw', Nat.le_trans hgrown hgrown', hresult⟩
    | error fault =>
      rw [outcome_bind_error f ha, outcome_bind_error g hsame]
      refine ⟨rfl, fun result w' hr => ?_⟩
      cases hr
      exact ⟨hw₁, hgrown, fun y hy => by cases hy⟩

theorem attempt {a b : Run α} (h : Obeys D count P a b) :
    Obeys D count Anything (Run.attempt a) (Run.attempt b) := by
  intro w hw hcount
  obtain ⟨hsame, hend⟩ := h w hw hcount
  rw [outcome_attempt, outcome_attempt, hsame]
  refine ⟨rfl, fun result w' hr => ?_⟩
  obtain ⟨⟨first, w₁⟩, ha, heq⟩ := Option.map_eq_some_iff.mp hr
  cases heq
  obtain ⟨hw', hgrown, -⟩ := hend first _ ha
  exact ⟨hw', hgrown, fun _ _ => trivial⟩

theorem mapM {f g : α → Run β} (h : ∀ x, Obeys D count Anything (f x) (g x)) (xs : List α) :
    Obeys D count Anything (xs.mapM f) (xs.mapM g) := by
  induction xs generalizing count with
  | nil => exact value _
  | cons x xs ih =>
    rw [List.mapM_cons, List.mapM_cons]
    refine bind (h x) fun m y hm _ => ?_
    exact bind (ih fun x => (h x).mono hm) fun m ys _ _ => value _

theorem ofExcept (result : Except Fault α) :
    Obeys D count Anything (MonadExcept.ofExcept result : Run α)
      (MonadExcept.ofExcept result) := by
  cases result with
  | ok x => exact value x
  | error fault => exact throw fault

theorem query {f : Heap → α}
    (h : ∀ heap, D.holds heap → count ≤ heap.scopeCount → P heap.scopeCount (f heap)) :
    Obeys D count P (Run.query f) (Run.query f) := by
  refine fun w hw hcount => ⟨rfl, fun result w' hr => ?_⟩
  cases hr
  refine ⟨hw, Nat.le_refl _, fun y hy => ?_⟩
  cases hy
  exact h w.heap hw hcount

theorem look (f : Heap → α) : Obeys D count Anything (Run.query f) (Run.query f) :=
  query fun _ _ _ => trivial

theorem closure? (id : FnId) :
    Obeys D count (fun m c? => ∀ c, c? = some c → c.scope.index < m)
      (Run.query fun heap => heap.closure? id) (Run.query fun heap => heap.closure? id) :=
  query fun _ hheap _ _ hc => D.functions hheap hc

/-- What looks at the world, but leaves the heap alone. -/
theorem modifyGet {f : World → α × World} (h : ∀ w, (f w).2.heap = w.heap) :
    Obeys D count Anything (MonadState.modifyGet f : Run α) (MonadState.modifyGet f) := by
  refine fun w hw hcount => ⟨rfl, fun result w' hr => ?_⟩
  rw [outcome_modifyGet] at hr
  cases hr
  rw [h]
  exact ⟨hw, Nat.le_refl _, fun _ _ => trivial⟩

theorem allocate {f : Heap → Heap × α}
    (h : ∀ heap, D.holds heap → count ≤ heap.scopeCount →
      D.holds (f heap).1 ∧ heap.scopeCount ≤ (f heap).1.scopeCount ∧
      P (f heap).1.scopeCount (f heap).2) :
    Obeys D count P (Run.allocate f) (Run.allocate f) := by
  refine fun w hw hcount => ⟨rfl, fun result w' hr => ?_⟩
  cases hr
  obtain ⟨hheap, hgrown, hp⟩ := h w.heap hw hcount
  refine ⟨hheap, hgrown, fun y hy => ?_⟩
  cases hy
  exact hp

theorem update {f : Heap → Heap}
    (h : ∀ heap, D.holds heap → D.holds (f heap) ∧ heap.scopeCount ≤ (f heap).scopeCount) :
    Obeys D count Anything (Run.update f) (Run.update f) := by
  refine fun w hw _ => ⟨rfl, fun result w' hr => ?_⟩
  cases hr
  obtain ⟨hheap, hgrown⟩ := h w.heap hw
  exact ⟨hheap, hgrown, fun _ _ => trivial⟩

theorem enter (hscope : scope.index < count) (bindings : Entries String Value) :
    Obeys D count D.Admits (Run.enter (some scope) bindings) (Run.enter (some scope) bindings) := by
  refine allocate fun heap hheap hcount => ?_
  obtain ⟨hentered, husable⟩ := D.enter bindings hheap (Nat.lt_of_lt_of_le hscope hcount)
  refine ⟨hentered, ?_, husable, ?_⟩ <;> rw [Heap.scopeCount_enter]
  · exact Nat.le_succ _
  · exact Nat.lt_succ_self _

theorem bindName (hscope : D.usable scope) (name : String) (v : Value) :
    Obeys D count Anything (Run.bind scope name v) (Run.bind scope name v) := by
  refine update fun heap hheap => ⟨D.bind name v hheap hscope, ?_⟩
  exact Nat.le_of_eq (Heap.scopeCount_bind heap scope name v).symm

theorem newClosure {c : Closure} (hscope : c.scope.index < count) :
    Obeys D count Anything (Run.allocate fun heap => heap.newClosure c)
      (Run.allocate fun heap => heap.newClosure c) :=
  allocate fun _ hheap hcount =>
    ⟨D.newClosure hheap (Nat.lt_of_lt_of_le hscope hcount), Nat.le_refl _, trivial⟩

theorem setCell (id : CellId) (v : Value) :
    Obeys D count Anything (Run.update fun heap => heap.setCell id v)
      (Run.update fun heap => heap.setCell id v) :=
  update fun _ hheap => ⟨D.setCell id v hheap, Nat.le_refl _⟩

theorem print (text : String) : Obeys D count Anything (Run.print text) (Run.print text) :=
  modifyGet fun _ => rfl

theorem get : Obeys D count Anything (MonadState.get : Run World) MonadState.get :=
  modifyGet fun _ => rfl

theorem readLine : Obeys D count Anything Run.readLine Run.readLine := by
  refine modifyGet fun w => ?_
  split <;> rfl

theorem readFile (path : String) :
    Obeys D count Anything (Run.readFile path) (Run.readFile path) := by
  refine bind get fun m w _ _ => ?_
  split
  · exact value _
  · exact raise _

theorem resolve (scope : ScopeId) (name : String) :
    Obeys D count Anything (Run.resolve scope name) (Run.resolve scope name) :=
  bind (look _) fun _ result _ _ => ofExcept result

theorem settle (v : Value) : Obeys D count Anything (Run.settle v) (Run.settle v) := by
  cases v with
  | error kind payload => exact throw _
  | _ => exact value _

end Run.Obeys

end MiniLisp
