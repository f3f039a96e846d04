import MiniLisp.Eval
import MiniLisp.Proofs.CleanNatives
import MiniLisp.Proofs.Outcome

namespace MiniLisp

open Value Run

variable {α β : Type}

/-- From this world both runs end in the same way or not at all, and where they end, the heap is clean
and the result has the property. -/
def Run.KeepsFrom (w : World) (property : α → Prop) (a b : Run α) : Prop :=
  b.outcome w = a.outcome w ∧
    ∀ result w', a.outcome w = some (result, w') → w'.heap.Clean ∧ Sound property result

/-- What holds from a world with a clean heap. -/
def Run.Keeps (property : α → Prop) (a b : Run α) : Prop :=
  ∀ w, w.heap.Clean → KeepsFrom w property a b

theorem Run.KeepsFrom.bind {w : World} {P : α → Prop} {Q : β → Prop} {a b : Run α}
    {f g : α → Run β} (h : KeepsFrom w P a b) (hfg : ∀ x, P x → Keeps Q (f x) (g x)) :
    KeepsFrom w Q (a >>= f) (b >>= g) := by
  obtain ⟨hsame, hend⟩ := h
  cases ha : a.outcome w with
  | none =>
    rw [ha] at hsame
    rw [KeepsFrom, outcome_bind, outcome_bind, hsame, ha]
    exact ⟨rfl, fun _ _ hr => by cases hr⟩
  | some ending =>
    obtain ⟨first, w₁⟩ := ending
    obtain ⟨hw₁, hfirst⟩ := hend first w₁ ha
    rw [ha] at hsame
    cases first with
    | ok x =>
      rw [KeepsFrom, outcome_bind_ok f ha, outcome_bind_ok g hsame]
      exact hfg x hfirst w₁ hw₁
    | error fault =>
      rw [KeepsFrom, outcome_bind_error f ha, outcome_bind_error g hsame]
      refine ⟨rfl, fun result w' hr => ?_⟩
      cases hr
      exact ⟨hw₁, hfirst⟩

namespace Run.Keeps

variable {P : α → Prop} {Q : β → Prop}

theorem diverge : Keeps P (Run.diverge : Run α) Run.diverge := by
  refine fun w _ => ⟨rfl, fun result w' h => ?_⟩
  cases h

theorem pure {x : α} (h : P x) : Keeps P (Pure.pure x : Run α) (Pure.pure x) := by
  refine fun w hw => ⟨rfl, fun result w' hr => ?_⟩
  cases hr
  exact ⟨hw, h⟩

theorem throw {fault : Fault} (h : fault.payload.Clean) :
    Keeps P (MonadExcept.throw fault : Run α) (MonadExcept.throw fault) := by
  refine fun w hw => ⟨rfl, fun result w' hr => ?_⟩
  cases hr
  exact ⟨hw, h⟩

theorem raise (cause : Cause) : Keeps P (cause.raise : Run α) cause.raise :=
  throw (Clean.str _)

theorem bind {a b : Run α} {f g : α → Run β} (h : Keeps P a b)
    (hfg : ∀ x, P x → Keeps Q (f x) (g x)) : Keeps Q (a >>= f) (b >>= g) :=
  fun w hw => (h w hw).bind hfg

theorem attempt {a b : Run α} (h : Keeps P a b) :
    Keeps (fun result => Sound P result) (Run.attempt a) (Run.attempt b) := by
  intro w hw
  obtain ⟨hsame, hend⟩ := h w hw
  rw [KeepsFrom, outcome_attempt, outcome_attempt, hsame]
  refine ⟨rfl, fun result w' hr => ?_⟩
  obtain ⟨⟨first, w₁⟩, ha, heq⟩ := Option.map_eq_some_iff.mp hr
  cases heq
  exact hend first _ ha

theorem mapM {f g : α → Run β} {xs : List α} (h : ∀ x ∈ xs, Keeps Q (f x) (g x)) :
    Keeps (fun ys => ∀ y ∈ ys, Q y) (xs.mapM f) (xs.mapM g) := by
  induction xs with
  | nil => exact pure (List.forall_mem_nil _)
  | cons x xs ih =>
    rw [List.mapM_cons, List.mapM_cons]
    refine bind (h x List.mem_cons_self) fun y hy => ?_
    refine bind (ih fun x hx => h x (List.mem_cons_of_mem _ hx)) fun ys hys => ?_
    exact pure (List.forall_mem_cons.mpr ⟨hy, hys⟩)

theorem ofExcept {result : Except Fault α} (h : Sound P result) :
    Keeps P (MonadExcept.ofExcept result : Run α) (MonadExcept.ofExcept result) := by
  cases result with
  | ok x => exact pure h
  | error fault => exact throw h

theorem query {f : Heap → α} (h : ∀ heap : Heap, heap.Clean → P (f heap)) :
    Keeps P (Run.query f) (Run.query f) := by
  refine fun w hw => ⟨rfl, fun result w' hr => ?_⟩
  cases hr
  exact ⟨hw, h w.heap hw⟩

theorem look (f : Heap → α) : Keeps (fun _ => True) (Run.query f) (Run.query f) :=
  query fun _ _ => trivial

theorem allocate {f : Heap → Heap × α} (h : ∀ heap : Heap, heap.Clean → (f heap).1.Clean) :
    Keeps (fun _ => True) (Run.allocate f) (Run.allocate f) := by
  refine fun w hw => ⟨rfl, fun result w' hr => ?_⟩
  cases hr
  exact ⟨h w.heap hw, trivial⟩

theorem update {f : Heap → Heap} (h : ∀ heap : Heap, heap.Clean → (f heap).Clean) :
    Keeps (fun _ => True) (Run.update f) (Run.update f) := by
  refine fun w hw => ⟨rfl, fun result w' hr => ?_⟩
  cases hr
  exact ⟨h w.heap hw, trivial⟩

/-- What looks at the world, but leaves the heap alone, keeps it clean. -/
theorem modifyGet {f : World → α × World} (h : ∀ w, (f w).2.heap = w.heap) :
    Keeps (fun _ => True) (MonadState.modifyGet f : Run α) (MonadState.modifyGet f) := by
  refine fun w hw => ⟨rfl, fun result w' hr => ?_⟩
  rw [outcome_modifyGet] at hr
  cases hr
  refine ⟨?_, trivial⟩
  rw [h]
  exact hw

theorem print (text : String) : Keeps (fun _ => True) (Run.print text) (Run.print text) :=
  modifyGet fun _ => rfl

theorem get : Keeps (fun _ => True) (MonadState.get : Run World) MonadState.get :=
  modifyGet fun _ => rfl

theorem now : Keeps (fun _ => True) Run.now Run.now :=
  bind get fun _ _ => pure trivial

theorem readLine : Keeps (fun _ => True) Run.readLine Run.readLine := by
  refine modifyGet fun w => ?_
  split <;> rfl

theorem readFile (path : String) :
    Keeps (fun _ => True) (Run.readFile path) (Run.readFile path) := by
  refine bind get fun w _ => ?_
  split
  · exact pure trivial
  · exact raise _

theorem enter (outer : Option ScopeId) {bindings : Entries String Value}
    (h : ∀ e ∈ bindings, e.2.Clean) :
    Keeps (fun _ => True) (Run.enter outer bindings) (Run.enter outer bindings) :=
  allocate fun _ hheap => hheap.enter outer h

theorem bindName (scope : ScopeId) (name : String) {v : Value} (h : v.Clean) :
    Keeps (fun _ => True) (Run.bind scope name v) (Run.bind scope name v) :=
  update fun _ hheap => hheap.bind scope name h

theorem resolve (scope : ScopeId) (name : String) :
    Keeps Clean (Run.resolve scope name) (Run.resolve scope name) := by
  refine bind (query (P := Sound Clean) fun heap hheap => ?_) fun result => ofExcept
  rw [Scopes.resolve]
  cases hv : heap.scopes.lookup scope name with
  | none => exact .raise _
  | some v => exact hheap.lookup hv

/-- What is settled is a clean value, or was an error value with a clean description. -/
theorem settle {v : Value} (h : v.Clean ∨ ∃ kind payload, v = .error kind payload ∧ payload.Clean) :
    Keeps Clean (Run.settle v) (Run.settle v) := by
  rcases h with h | ⟨kind, payload, rfl, h⟩
  · cases v with
    | error kind payload => exact absurd h not_clean_error
    | _ => exact pure h
  · exact throw h

end Run.Keeps
end MiniLisp
