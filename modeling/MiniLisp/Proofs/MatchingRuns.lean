import MiniLisp.Eval.Call
import MiniLisp.Proofs.MatchingValues
import MiniLisp.Proofs.Outcome

namespace MiniLisp

open Run

variable {α β γ δ : Type}

/-- The worlds hold matching heaps, and differ in nothing else. -/
structure World.Matches (F : Frame) (ρ : Matching) (w w' : World) : Prop where
  heap : w.heap.Matches F ρ w'.heap
  input : w.input = w'.input
  silent : F.silent → w'.input = []
  output : w.output = w'.output
  files : w.files = F.files ∧ w'.files = F.files
  clock : w.clock = F.clock ∧ w'.clock = F.clock

structure Fault.Matches (ρ : Matching) (f f' : Fault) : Prop where
  kind : f.kind = f'.kind
  payload : f.payload.Matches ρ f'.payload

/-- Both are results in this relation, or both are failures that match. -/
inductive Result.Matches (ρ : Matching) (P : α → β → Prop) : Except Fault α → Except Fault β → Prop
  | ok {a b} (h : P a b) : Matches ρ P (.ok a) (.ok b)
  | error {f f'} (h : f.Matches ρ f') : Matches ρ P (.error f) (.error f')

/-- Both runs have ended, in matching worlds with matching results, or neither has. -/
inductive Run.Ends (F : Frame) (ρ : Matching) (P : Matching → α → β → Prop) :
    Option (Except Fault α × World) → Option (Except Fault β × World) → Prop
  | never : Ends F ρ P none none
  | ends {σ r r' w w'} (grown : ρ.Grows σ) (world : w.Matches F σ w')
      (result : Result.Matches σ (P σ) r r') : Ends F ρ P (some (r, w)) (some (r', w'))

/-- From all worlds that match, under a matching at least as large, the runs end alike. -/
def Run.Matches (F : Frame) (ρ : Matching) (P : Matching → α → β → Prop) (a : Run α) (b : Run β) :
    Prop :=
  ∀ σ, ρ.Grows σ → ∀ w w', w.Matches F σ w' → Ends F σ P (a.outcome w) (b.outcome w')

/-- The same on both sides. -/
abbrev Same : Matching → α → α → Prop :=
  fun _ a b => a = b

/-- The evaluators do the same with matching forms in matching scopes. -/
def Evaluator.Matches (F : Frame) (ρ : Matching) (ev ev' : Evaluator) : Prop :=
  ∀ ⦃σ form form' scope scope'⦄, ρ.Grows σ → form.Matches σ form' → scope.Matches σ scope' →
    (ev form scope).Matches F σ Value.Matches (ev' form' scope')

theorem World.Matches.withHeap {F : Frame} {ρ σ : Matching} {w w' : World} (h : w.Matches F ρ w')
    {heap heap' : Heap} (hheap : heap.Matches F σ heap') :
    World.Matches F σ { w with heap := heap } { w' with heap := heap' } :=
  ⟨hheap, h.input, h.silent, h.output, h.files, h.clock⟩

theorem Run.Ends.mono {F : Frame} {ρ σ : Matching} {P : Matching → α → β → Prop}
    {left : Option (Except Fault α × World)} {right : Option (Except Fault β × World)}
    (h : Ends F σ P left right) (hσ : ρ.Grows σ) : Ends F ρ P left right := by
  cases h with
  | never => exact .never
  | ends grown world result => exact .ends (hσ.trans grown) world result

theorem Run.Ends.right {F : Frame} {ρ : Matching} {P : Matching → α → β → Prop}
    {r : Except Fault α} {w : World} {right : Option (Except Fault β × World)}
    (h : Ends F ρ P (some (r, w)) right) :
    ∃ σ r' w', right = some (r', w') ∧ ρ.Grows σ ∧ w.Matches F σ w' ∧ Result.Matches σ (P σ) r r' := by
  cases h with
  | ends grown world result => exact ⟨_, _, _, rfl, grown, world, result⟩

theorem Fault.Matches.refl {ρ : Matching} (cause : Cause) : cause.fault.Matches ρ cause.fault :=
  ⟨rfl, .str _⟩

theorem Fault.Matches.toValue {ρ : Matching} {f f' : Fault} (h : f.Matches ρ f') :
    f.toValue.Matches ρ f'.toValue := by
  rw [Fault.toValue, Fault.toValue, h.kind]
  exact .error _ h.payload

theorem Fault.Matches.toCaught {ρ : Matching} {f f' : Fault} (h : f.Matches ρ f') :
    f.toCaught.Matches ρ f'.toCaught := by
  rw [Fault.toCaught, Fault.toCaught, h.kind]
  exact .caught _ h.payload

namespace Result.Matches

variable {ρ : Matching} {P : α → β → Prop} {Q : γ → δ → Prop} {r : Except Fault α}
  {r' : Except Fault β}

theorem raise (cause : Cause) :
    Matches ρ P (cause.raise : Except Fault α) (cause.raise : Except Fault β) :=
  .error (.refl cause)

theorem bind {f : α → Except Fault γ} {g : β → Except Fault δ} (h : Matches ρ P r r')
    (hfg : ∀ a b, P a b → Matches ρ Q (f a) (g b)) : Matches ρ Q (r >>= f) (r' >>= g) := by
  cases h with
  | ok h => exact hfg _ _ h
  | error h => exact .error h

theorem mapM {f : α → Except Fault γ} {g : β → Except Fault δ} {xs : List α} {ys : List β}
    (h : List.Forall₂ P xs ys) (hfg : ∀ a b, P a b → Matches ρ Q (f a) (g b)) :
    Matches ρ (List.Forall₂ Q) (xs.mapM f) (ys.mapM g) := by
  induction h with
  | nil => exact .ok .nil
  | cons hab _ ih =>
    rw [List.mapM_cons, List.mapM_cons]
    exact bind (hfg _ _ hab) fun x y hxy => bind ih fun xs ys hxys => .ok (.cons hxy hxys)

end Result.Matches

namespace Run.Matches

variable {F : Frame} {ρ σ : Matching} {P : Matching → α → β → Prop} {Q : Matching → γ → δ → Prop}
  {a : Run α} {b : Run β}

theorem diverge : Matches F ρ P (Run.diverge : Run α) (Run.diverge : Run β) :=
  fun _ _ _ _ _ => .never

theorem pure {x : α} {y : β} (h : ∀ σ, ρ.Grows σ → P σ x y) :
    Matches F ρ P (Pure.pure x : Run α) (Pure.pure y : Run β) :=
  fun σ hσ _ _ hw => .ends .refl hw (.ok (h σ hσ))

theorem value {v v' : Value} (h : v.Matches ρ v') :
    Matches F ρ Value.Matches (Pure.pure v : Run Value) (Pure.pure v') :=
  pure fun _ hσ => h.mono hσ

theorem same (x : α) : Matches F ρ Same (Pure.pure x : Run α) (Pure.pure x) :=
  pure fun _ _ => rfl

theorem throw {f f' : Fault} (h : f.Matches ρ f') :
    Matches F ρ P (MonadExcept.throw f : Run α) (MonadExcept.throw f' : Run β) :=
  fun _ hσ _ _ hw => .ends .refl hw (.error ⟨h.kind, h.payload.mono hσ⟩)

theorem raise (cause : Cause) : Matches F ρ P (cause.raise : Run α) (cause.raise : Run β) :=
  throw (.refl cause)

theorem bind {f : α → Run γ} {g : β → Run δ} (h : Matches F ρ P a b)
    (hfg : ∀ σ, ρ.Grows σ → ∀ x y, P σ x y → Matches F σ Q (f x) (g y)) :
    Matches F ρ Q (a >>= f) (b >>= g) := by
  intro σ hσ w w' hw
  have hfirst := h σ hσ w w' hw
  rw [outcome_bind, outcome_bind]
  revert hfirst
  generalize a.outcome w = left, b.outcome w' = right
  rintro (_ | ⟨hgrown, hworld, hresult⟩)
  · exact .never
  · cases hresult with
    | error hfault => exact .ends hgrown hworld (.error hfault)
    | ok hxy =>
      exact (hfg _ (hσ.trans hgrown) _ _ hxy _ .refl _ _ hworld).mono hgrown

theorem attempt (h : Matches F ρ P a b) :
    Matches F ρ (fun σ => Result.Matches σ (P σ)) (Run.attempt a) (Run.attempt b) := by
  intro σ hσ w w' hw
  have hends := h σ hσ w w' hw
  rw [outcome_attempt, outcome_attempt]
  revert hends
  generalize a.outcome w = left, b.outcome w' = right
  rintro (_ | ⟨hgrown, hworld, hresult⟩)
  · exact .never
  · exact .ends hgrown hworld (.ok hresult)

theorem mapM {R : Matching → α → β → Prop} {f : α → Run γ} {g : β → Run δ} {xs : List α} {ys : List β}
    (hR : ∀ {σ τ x y}, σ.Grows τ → R σ x y → R τ x y) (hQ : ∀ {σ τ x y}, σ.Grows τ → Q σ x y → Q τ x y)
    (hxs : List.Forall₂ (R ρ) xs ys)
    (hfg : ∀ σ, ρ.Grows σ → ∀ x y, R σ x y → Matches F σ Q (f x) (g y)) :
    Matches F ρ (fun σ => List.Forall₂ (Q σ)) (xs.mapM f) (ys.mapM g) := by
  induction xs generalizing ys ρ with
  | nil =>
    cases hxs
    exact pure fun _ _ => .nil
  | cons x xs ih =>
    cases hxs with
    | @cons _ y _ ys hxy hrest =>
      rw [List.mapM_cons, List.mapM_cons]
      refine bind (hfg ρ .refl x y hxy) fun σ hσ u v huv => ?_
      refine bind (ih (hrest.imp fun _ _ => hR hσ) fun τ hτ => hfg τ (hσ.trans hτ)) ?_
      exact fun τ hτ us vs huvs => pure fun _ hυ =>
        .cons (hQ (hτ.trans hυ) huv) (huvs.imp fun _ _ => hQ hυ)

/-- The runs for the values of matching rows, one after the other. -/
theorem mapRow {f g : Value → Run Value} {xs ys : List Value} (hxs : Row.Matches ρ xs ys)
    (hfg : ∀ σ, ρ.Grows σ → ∀ x y, x.Matches σ y → Matches F σ Value.Matches (f x) (g y)) :
    Matches F ρ Row.Matches (xs.mapM f) (ys.mapM g) :=
  mapM (fun hτ h => h.mono hτ) (fun hτ h => h.mono hτ) hxs hfg

/-- The runs for the entries with matching values, one after the other. -/
theorem mapEntries {κ : Type} {f g : κ × Value → Run (κ × Value)} {es fs : Entries κ Value}
    (he : Entries.Matches ρ es fs)
    (hfg : ∀ σ, ρ.Grows σ → ∀ key x y, x.Matches σ y →
      Matches F σ Entry.Matches (f (key, x)) (g (key, y))) :
    Matches F ρ Entries.Matches (es.mapM f) (fs.mapM g) := by
  refine mapM (R := Entry.Matches) (fun hτ h => Entry.Matches.mono h hτ)
    (fun hτ h => Entry.Matches.mono h hτ) he ?_
  rintro σ hσ ⟨key, x⟩ ⟨_, y⟩ ⟨rfl, hxy⟩
  exact hfg σ hσ key x y hxy

theorem ofExcept {R : α → β → Prop} {r : Except Fault α} {r' : Except Fault β}
    (h : Result.Matches ρ R r r') (hR : ∀ σ, ρ.Grows σ → ∀ x y, R x y → P σ x y) :
    Matches F ρ P (MonadExcept.ofExcept r : Run α) (MonadExcept.ofExcept r' : Run β) := by
  cases h with
  | ok h => exact pure fun σ hσ => hR σ hσ _ _ h
  | error h => exact throw h

/-- What is computed from values alone. -/
theorem computed {r r' : Except Fault Value} (h : Result.Matches ρ (Value.Matches ρ) r r') :
    Matches F ρ Value.Matches (MonadExcept.ofExcept r : Run Value) (MonadExcept.ofExcept r') :=
  ofExcept h fun _ hσ _ _ hv => hv.mono hσ

/-- Checks and other computations whose results do not depend on the heap. -/
theorem checked {r r' : Except Fault α} (h : Result.Matches ρ Eq r r') :
    Matches F ρ Same (MonadExcept.ofExcept r : Run α) (MonadExcept.ofExcept r') :=
  ofExcept h fun _ _ _ _ heq => heq

theorem query {f : Heap → α} {g : Heap → β}
    (h : ∀ σ, ρ.Grows σ → ∀ heap heap', heap.Matches F σ heap' → P σ (f heap) (g heap')) :
    Matches F ρ P (Run.query f) (Run.query g) :=
  fun σ hσ _ _ hw => .ends .refl hw (.ok (h σ hσ _ _ hw.heap))

theorem allocate {f : Heap → Heap × α} {g : Heap → Heap × β}
    (h : ∀ σ, ρ.Grows σ → ∀ heap heap', heap.Matches F σ heap' →
      ∃ τ, σ.Grows τ ∧ (f heap).1.Matches F τ (g heap').1 ∧ P τ (f heap).2 (g heap').2) :
    Matches F ρ P (Run.allocate f) (Run.allocate g) := by
  intro σ hσ w w' hw
  obtain ⟨τ, hτ, hheap, hp⟩ := h σ hσ w.heap w'.heap hw.heap
  exact .ends hτ (hw.withHeap hheap) (.ok hp)

theorem update {f g : Heap → Heap}
    (h : ∀ σ, ρ.Grows σ → ∀ heap heap', heap.Matches F σ heap' → (f heap).Matches F σ (g heap')) :
    Matches F ρ Same (Run.update f) (Run.update g) :=
  fun σ hσ _ _ hw => .ends .refl (hw.withHeap (h σ hσ _ _ hw.heap)) (.ok rfl)

theorem closure? {id id' : FnId} (hid : ρ.closures.pairs id.index id'.index) :
    Matches F ρ (fun σ => Option.Rel (Closure.Matches σ)) (Run.query fun heap => heap.closure? id)
      (Run.query fun heap => heap.closure? id') :=
  query fun _ hσ _ _ hheap => hheap.closure? (hσ.closures _ _ hid)

theorem printed {v v' : Value} (hv : v.Matches ρ v') (style : Value.Style) :
    Matches F ρ Same (Run.query fun heap => v.print heap style)
      (Run.query fun heap => v'.print heap style) :=
  query fun _ hσ _ _ hheap => hheap.print (hv.mono hσ) style

theorem enter {outer outer' : Option ScopeId} {bindings bindings' : Entries String Value}
    (ho : Option.Rel (ScopeId.Matches ρ) outer outer') (hb : Entries.Matches ρ bindings bindings') :
    Matches F ρ ScopeId.Matches (Run.enter outer bindings) (Run.enter outer' bindings') :=
  allocate fun _ hσ _ _ hheap => hheap.enter (ho.mono fun _ _ h => h.mono hσ) (hb.mono hσ)

theorem bindName {scope scope' : ScopeId} (hs : scope.Matches ρ scope') (name : String)
    {v v' : Value} (hv : v.Matches ρ v') :
    Matches F ρ Same (Run.bind scope name v) (Run.bind scope' name v') :=
  update fun _ hσ _ _ hheap => hheap.bind (hs.mono hσ) name (hv.mono hσ)

theorem newClosure {c c' : Closure} (hc : c.Matches ρ c') :
    Matches F ρ (fun σ id id' => σ.closures.pairs id.index id'.index)
      (Run.allocate fun heap => heap.newClosure c) (Run.allocate fun heap => heap.newClosure c') :=
  allocate fun _ hσ _ _ hheap => hheap.newClosure (hc.mono hσ)

theorem newCell {v v' : Value} (hv : v.Matches ρ v') :
    Matches F ρ (fun σ id id' => σ.cells.pairs id.index id'.index)
      (Run.allocate fun heap => heap.newCell v) (Run.allocate fun heap => heap.newCell v') :=
  allocate fun _ hσ _ _ hheap => hheap.newCell (hv.mono hσ)

theorem setCell {id id' : CellId} (hid : ρ.cells.pairs id.index id'.index) {v v' : Value}
    (hv : v.Matches ρ v') :
    Matches F ρ Same (Run.update fun heap => heap.setCell id v)
      (Run.update fun heap => heap.setCell id' v') :=
  update fun _ hσ _ _ hheap => hheap.setCell (hσ.cells _ _ hid) (hv.mono hσ)

theorem print (text : String) : Matches F ρ Same (Run.print text) (Run.print text) := by
  intro σ hσ w w' hw
  refine .ends .refl ⟨hw.heap, hw.input, hw.silent, ?_, hw.files, hw.clock⟩ (.ok rfl)
  exact congrArg (· ++ text) hw.output

theorem get : Matches F ρ (fun _ w w' => w.files = w'.files ∧ w.clock = w'.clock)
    (MonadState.get : Run World) MonadState.get :=
  fun _ _ _ _ hw => .ends .refl hw
    (.ok ⟨hw.files.1.trans hw.files.2.symm, hw.clock.1.trans hw.clock.2.symm⟩)

theorem readFile (path : String) : Matches F ρ Same (Run.readFile path) (Run.readFile path) := by
  refine bind get fun σ _ w w' hww => ?_
  rw [hww.1]
  split
  · exact same _
  · exact raise _

theorem now : Matches F ρ Same Run.now Run.now :=
  bind get fun _ _ _ _ hww => pure fun _ _ => hww.2

theorem readLine : Matches F ρ Same Run.readLine Run.readLine := by
  intro σ hσ w w' hw
  rw [Run.readLine, outcome_modifyGet, outcome_modifyGet, hw.input]
  split
  · exact .ends .refl hw (.ok rfl)
  · next hrest =>
    -- There is a line to read, so the input is not silent.
    refine .ends .refl ⟨hw.heap, rfl, fun hsilent => ?_, hw.output, hw.files, hw.clock⟩ (.ok rfl)
    rw [hw.silent hsilent] at hrest
    exact absurd rfl hrest

theorem resolve {scope scope' : ScopeId} (hs : scope.Matches ρ scope') (name : String) :
    Matches F ρ Value.Matches (Run.resolve scope name) (Run.resolve scope' name) := by
  refine bind (P := fun σ => Result.Matches σ (Value.Matches σ)) (query fun σ hσ heap heap' hheap => ?_)
    fun _ _ _ _ => computed
  rw [Scopes.resolve, Scopes.resolve]
  rcases (hheap.lookup (hs.mono hσ) name).split with ⟨hv, hv'⟩ | ⟨v, v', hv, hv', hvv⟩
  · rw [hv, hv']
    exact .raise _
  · rw [hv, hv']
    exact .ok hvv

theorem settle {v v' : Value} (hv : v.Matches ρ v') :
    Matches F ρ Value.Matches (Run.settle v) (Run.settle v') := by
  have hvalue : Matches F ρ Value.Matches (Pure.pure v) (Pure.pure v') := value hv
  cases hv with
  | error kind payload => exact throw ⟨rfl, payload⟩
  | _ => exact hvalue

end Run.Matches
end MiniLisp
