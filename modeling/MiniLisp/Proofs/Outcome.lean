import MiniLisp.World

namespace MiniLisp.Run

variable {α β : Type}

/-- How the run ends in the world, `none` if its fuel does not last. -/
def outcome (run : Run α) (w : World) : Option (Except Fault α × World) :=
  run.run.run w

theorem ext {a b : Run α} (h : ∀ w, a.outcome w = b.outcome w) : a = b :=
  funext h

@[simp]
theorem outcome_pure (a : α) (w : World) : (pure a : Run α).outcome w = some (.ok a, w) :=
  rfl

@[simp]
theorem outcome_throw (fault : Fault) (w : World) :
    (throw fault : Run α).outcome w = some (.error fault, w) :=
  rfl

@[simp]
theorem outcome_raise (cause : Cause) (w : World) :
    (cause.raise : Run α).outcome w = some (.error cause.fault, w) :=
  rfl

@[simp]
theorem outcome_diverge (w : World) : (diverge : Run α).outcome w = none :=
  rfl

theorem outcome_bind (run : Run α) (next : α → Run β) (w : World) :
    (run >>= next).outcome w =
      (run.outcome w).bind fun
        | (.ok a, w') => (next a).outcome w'
        | (.error fault, w') => some (.error fault, w') := by
  change Option.bind (run.outcome w) _ = _
  cases run.outcome w with
  | none => rfl
  | some ending =>
    obtain ⟨result, w'⟩ := ending
    cases result <;> rfl

theorem outcome_bind_ok {run : Run α} {w w' : World} {a : α} (next : α → Run β)
    (h : run.outcome w = some (.ok a, w')) :
    (run >>= next).outcome w = (next a).outcome w' := by
  rw [outcome_bind, h]
  rfl

theorem outcome_bind_error {run : Run α} {w w' : World} {fault : Fault} (next : α → Run β)
    (h : run.outcome w = some (.error fault, w')) :
    (run >>= next).outcome w = some (.error fault, w') := by
  rw [outcome_bind, h]
  rfl

theorem discard_eq (run : Run α) : discard run = (run >>= fun _ => pure PUnit.unit) := by
  rw [bind_pure_comp]
  rfl

/-- A sequence of two runs ends where the second one ends, or where the first one fails. -/
theorem outcome_bind_some {run : Run α} {next : α → Run β} {w w'' : World}
    {result : Except Fault β} (h : (run >>= next).outcome w = some (result, w'')) :
    (∃ a w', run.outcome w = some (.ok a, w') ∧ (next a).outcome w' = some (result, w'')) ∨
      ∃ fault, run.outcome w = some (.error fault, w'') ∧ result = .error fault := by
  rw [outcome_bind] at h
  cases hr : run.outcome w with
  | none => simp [hr] at h
  | some ending =>
    obtain ⟨first, w'⟩ := ending
    cases first with
    | ok a => exact .inl ⟨a, w', rfl, by simpa [hr] using h⟩
    | error fault =>
      simp only [hr, Option.bind_some, Option.some.injEq, Prod.mk.injEq] at h
      obtain ⟨rfl, rfl⟩ := h
      exact .inr ⟨fault, rfl, rfl⟩

/-- What a run goes on with matters only where the run has ended well. -/
theorem outcome_bind_congr {run : Run α} {next next' : α → Run β} {w : World}
    (h : ∀ a w', run.outcome w = some (.ok a, w') → (next a).outcome w' = (next' a).outcome w') :
    (run >>= next).outcome w = (run >>= next').outcome w := by
  rw [outcome_bind, outcome_bind]
  cases hr : run.outcome w with
  | none => rfl
  | some ending =>
    obtain ⟨result, w'⟩ := ending
    cases result with
    | ok a => exact h a w' hr
    | error fault => rfl

theorem outcome_attempt (run : Run α) (w : World) :
    (attempt run).outcome w =
      (run.outcome w).map fun (result, w') => (Except.ok result, w') := by
  change Option.bind (run.outcome w) _ = _
  cases run.outcome w <;> rfl

@[simp]
theorem outcome_modifyGet (f : World → α × World) (w : World) :
    (modifyGet f : Run α).outcome w = some (.ok (f w).1, (f w).2) :=
  rfl

@[simp]
theorem outcome_query (f : Heap → α) (w : World) :
    (query f).outcome w = some (.ok (f w.heap), w) :=
  rfl

@[simp]
theorem outcome_enter (outer : Option ScopeId) (bindings : Entries String Value) (w : World) :
    (enter outer bindings).outcome w =
      some (.ok (w.heap.enter outer bindings).2, { w with heap := (w.heap.enter outer bindings).1 }) :=
  rfl

@[simp]
theorem outcome_bindName (scope : ScopeId) (name : String) (v : Value) (w : World) :
    (bind scope name v).outcome w = some (.ok (), { w with heap := w.heap.bind scope name v }) :=
  rfl

theorem ofExcept_ok (a : α) : (ofExcept (.ok a : Except Fault α) : Run α) = pure a :=
  rfl

@[simp]
theorem outcome_ofExcept (result : Except Fault α) (w : World) :
    (ofExcept result : Run α).outcome w = some (result, w) := by
  cases result <;> rfl

theorem of_outcome_ofExcept {result : Except Fault α} {a : α} {w w' : World}
    (h : (ofExcept result : Run α).outcome w = some (.ok a, w')) : result = .ok a ∧ w = w' := by
  rw [outcome_ofExcept] at h
  cases result <;> cases h
  exact ⟨rfl, rfl⟩

/-- The runs for the elements end well one after the other, each in the world left by the last. -/
inductive InOrder (run : α → Run β) : List α → World → List β → World → Prop
  | nil {w} : InOrder run [] w [] w
  | cons {x y xs ys w w' w''} (head : (run x).outcome w = some (.ok y, w'))
      (tail : InOrder run xs w' ys w'') : InOrder run (x :: xs) w (y :: ys) w''

namespace InOrder

variable {γ : Type} {run : α → Run β} {xs : List α} {ys : List β} {w w' w'' : World}

theorem mapM (h : InOrder run xs w ys w') : (xs.mapM run).outcome w = some (.ok ys, w') := by
  induction h with
  | nil => rfl
  | cons head tail ih =>
    rw [List.mapM_cons, outcome_bind_ok _ head, outcome_bind_ok _ ih]
    rfl

/-- The first failure among the runs for the elements is the failure of them all. -/
theorem mapM_error (h : InOrder run xs w ys w') {x : α} {fault : Fault}
    (hx : (run x).outcome w' = some (.error fault, w'')) (rest : List α) :
    ((xs ++ x :: rest).mapM run).outcome w = some (.error fault, w'') := by
  induction h with
  | nil => rw [List.nil_append, List.mapM_cons, outcome_bind_error _ hx]
  | cons head tail ih =>
    rw [List.cons_append, List.mapM_cons, outcome_bind_ok _ head, outcome_bind_error _ (ih hx)]

theorem ne_nil {y : β} (h : InOrder run xs w (y :: ys) w') : xs ≠ [] := by
  rintro rfl
  cases h

/-- Runs that all end either end well in order, or do so up to the first failure. -/
theorem of_mapM {result : Except Fault (List β)}
    (h : (xs.mapM run).outcome w = some (result, w')) :
    (∃ ys, InOrder run xs w ys w' ∧ result = .ok ys) ∨
      ∃ before x after ys w₁ fault, xs = before ++ x :: after ∧ InOrder run before w ys w₁ ∧
        (run x).outcome w₁ = some (.error fault, w') ∧ result = .error fault := by
  induction xs generalizing w w' result with
  | nil =>
    simp only [List.mapM_nil, outcome_pure, Option.some.injEq, Prod.mk.injEq] at h
    obtain ⟨rfl, rfl⟩ := h
    exact .inl ⟨[], .nil, rfl⟩
  | cons x xs ih =>
    rw [List.mapM_cons] at h
    obtain ⟨y, w₁, hx, h⟩ | ⟨fault, hx, rfl⟩ := outcome_bind_some h
    · obtain ⟨ys, w₂, hxs, h⟩ | ⟨fault, hxs, rfl⟩ := outcome_bind_some h
      · obtain ⟨ys', hys, hok⟩ | ⟨before, x', after, ys', w₃, fault, -, -, -, hok⟩ := ih hxs
        · cases hok
          cases h
          exact .inl ⟨y :: ys, .cons hx hys, rfl⟩
        · cases hok
      · obtain ⟨ys', -, hok⟩ | ⟨before, x', after, ys', w₃, fault', rfl, hys, hfail, hok⟩ := ih hxs
        · cases hok
        · cases hok
          exact .inr ⟨x :: before, x', after, y :: ys', w₃, fault, rfl, .cons hx hys, hfail, rfl⟩
    · exact .inr ⟨[], x, xs, [], w, fault, rfl, .nil, hx, rfl⟩

/-- Elements may be mapped first and the results afterwards. -/
theorem comp {δ : Type} {g : γ → α} (f : β → γ → δ) {zs : List γ} (h : InOrder run (zs.map g) w ys w') :
    ∃ vs, InOrder (fun z => do return f (← run (g z)) z) zs w vs w' := by
  induction zs generalizing w ys with
  | nil =>
    cases h
    exact ⟨[], .nil⟩
  | cons z zs ih =>
    cases h with
    | @cons _ y _ _ _ _ _ head tail =>
      obtain ⟨vs, hvs⟩ := ih tail
      refine ⟨f y z :: vs, .cons ?_ hvs⟩
      rw [outcome_bind_ok _ head]
      rfl

end InOrder

end MiniLisp.Run
