import MiniLisp.Proofs.MatchingEvaluation
import MiniLisp.Session

namespace MiniLisp

open Run

variable {F : Frame} {ρ : Matching} {scope scope' : ScopeId} {α β : Type}

theorem eval_matches (hn : ρ.notes) (fuel : Nat) :
    Evaluator.Matches F ρ (eval fuel) (eval fuel) := by
  have hmatch := evalUnder_matches (F := F) (Supervisor.repeats_idle hn) fuel maxEvalDepth
  rwa [evalUnder_idle] at hmatch

namespace Session

theorem evalText_matches (hn : ρ.notes) (fuel : Nat) (source : String)
    (hscope : scope.Matches ρ scope') :
    (evalText fuel source scope).Matches F ρ (fun σ => Option.Rel (Value.Matches σ))
      (evalText fuel source scope') := by
  refine .bind (P := fun σ => Option.Rel (Value.Matches σ)) (.ofExcept (Native.read_matches source)
    fun _ hσ _ _ hv => hv.mono fun _ _ h => h.mono hσ) fun σ hσ form? form?' hform => ?_
  cases hform with
  | none => exact .pure fun _ _ => .none
  | some hform =>
    refine .bind (eval_matches (hσ.notes.mpr hn) fuel .refl hform (hscope.mono hσ))
      fun τ _ v v' hv => ?_
    exact .pure fun _ hυ => .some (hv.mono hυ)

/-- What there is to print: a value, a failure, or nothing where there was no form. -/
def printable : Except Fault (Option Value) → Option Value
  | .ok v? => v?
  | .error fault => some fault.toValue

def answerText : Option Value → Run (Option String)
  | none => return none
  | some v => return some (← Run.query fun heap => v.print heap .readable)

theorem rep_eq (fuel : Nat) (source : String) (scope : ScopeId) :
    rep fuel source scope =
      Run.attempt (evalText fuel source scope) >>= fun result => answerText (printable result) := by
  rw [rep]
  refine congrArg _ (funext fun result => ?_)
  cases result with
  | ok v? => cases v? <;> simp only [pure_bind, printable, answerText]
  | error fault => simp only [pure_bind, printable, answerText]

theorem rep_matches (hn : ρ.notes) (fuel : Nat) (source : String) (hscope : scope.Matches ρ scope') :
    (rep fuel source scope).Matches F ρ Same (rep fuel source scope') := by
  rw [rep_eq, rep_eq]
  refine .bind (.attempt (evalText_matches hn fuel source hscope)) fun σ _ result result' hresult => ?_
  have hshown : Option.Rel (Value.Matches σ) (printable result) (printable result') := by
    cases hresult with
    | ok hv => exact hv
    | error hfault => exact .some hfault.toValue
  revert hshown
  generalize printable result = shown?, printable result' = shown?'
  rintro (hv | _)
  · refine .bind (.printed hv .readable) ?_
    rintro τ _ text _ rfl
    exact .same _
  · exact .same _

theorem load_matches (hn : ρ.notes) (fuel : Nat) (hscope : scope.Matches ρ scope')
    (sources : List String) :
    (load fuel scope sources).Matches F ρ Same (load fuel scope' sources) := by
  induction sources generalizing ρ with
  | nil => exact .same _
  | cons source sources ih =>
    rw [load, load, discard_eq, discard_eq]
    refine .bind (P := Same) ?_ fun σ hσ _ _ _ => ih (hσ.notes.mpr hn) (hscope.mono hσ)
    exact .bind (.attempt (evalText_matches hn fuel source hscope)) fun _ _ _ _ _ => .same _

theorem natives_match (ops : List Native) {bindings : Entries String Value}
    (h : Entries.Matches ρ bindings bindings) :
    Entries.Matches ρ
      (ops.foldl (fun es op => Entries.insert op.name (.native op .nil) es) bindings)
      (ops.foldl (fun es op => Entries.insert op.name (.native op .nil) es) bindings) := by
  induction ops generalizing bindings with
  | nil => exact h
  | cons op ops ih => exact ih (h.insert op.name (.native op fun _ => .nil))

theorem globalBindings_match : Entries.Matches ρ globalBindings globalBindings :=
  ((natives_match Native.all .nil).insert "*host-language*" (.str "rust")).insert "*ARGV*"
    (Value.matches_ofList.mpr .nil)

theorem newGlobal_matches (hn : ρ.notes) (fuel : Nat) :
    (newGlobal fuel).Matches F ρ ScopeId.Matches (newGlobal fuel) := by
  refine .bind (.enter .none globalBindings_match) fun σ hσ scope scope' hscope => ?_
  refine .bind (load_matches (hσ.notes.mpr hn) fuel hscope _) fun τ hτ _ _ _ => ?_
  exact .pure fun _ hυ => hscope.mono (hτ.trans hυ)

end Session

namespace Run

/-- Runs with nothing printed yet, and hands over what it prints. -/
def printing (run : Run α) : Run (α × String) := do
  discard (modifyGet World.takeOutput)
  let x ← run
  return (x, ← modifyGet World.takeOutput)

theorem Matches.takeOutput : Matches F ρ Same (modifyGet World.takeOutput) (modifyGet World.takeOutput) :=
  fun _ _ _ _ hw => .ends .refl ⟨hw.heap, hw.input, hw.silent, rfl, hw.files, hw.clock⟩
    (.ok hw.output)

/-- What has been printed before makes no difference to a run that starts anew. -/
theorem printing_ends {P : Matching → α → β → Prop} (hP : ∀ {σ τ x y}, σ.Grows τ → P σ x y → P τ x y)
    {a : Run α} {b : Run β} (h : a.Matches F ρ P b) {w w' : World}
    (hw : World.Matches F ρ w.takeOutput.2 w'.takeOutput.2) :
    Ends F ρ (fun σ x y => P σ x.1 y.1 ∧ x.2 = y.2) (a.printing.outcome w) (b.printing.outcome w') := by
  have hrest : Matches F ρ (fun σ x y => P σ x.1 y.1 ∧ x.2 = y.2)
      (do return (← a, ← modifyGet World.takeOutput)) (do return (← b, ← modifyGet World.takeOutput)) := by
    refine .bind h fun σ _ x y hxy => .bind .takeOutput fun τ hτ _ _ hprinted => ?_
    exact .pure fun _ hυ => ⟨hP (hτ.trans hυ) hxy, hprinted⟩
  exact hrest ρ .refl _ _ hw

/-- If it ends, it ends well. -/
def Succeeds (run : Run α) : Prop :=
  ∀ w r w', run.outcome w = some (r, w') → ∃ x, r = .ok x

namespace Succeeds

theorem pure (x : α) : Succeeds (Pure.pure x : Run α) := by
  intro w r w' h
  cases h
  exact ⟨x, rfl⟩

theorem modifyGet (f : World → α × World) : Succeeds (MonadState.modifyGet f : Run α) := by
  intro w r w' h
  cases h
  exact ⟨_, rfl⟩

theorem query (f : Heap → α) : Succeeds (Run.query f) := by
  intro w r w' h
  cases h
  exact ⟨_, rfl⟩

theorem attempt (run : Run α) : Succeeds (Run.attempt run) := by
  intro w r w' h
  rw [outcome_attempt] at h
  obtain ⟨⟨result, w₁⟩, -, heq⟩ := Option.map_eq_some_iff.mp h
  cases heq
  exact ⟨result, rfl⟩

theorem bind {run : Run α} {next : α → Run β} (h : Succeeds run) (hn : ∀ x, Succeeds (next x)) :
    Succeeds (run >>= next) := by
  intro w r w' hr
  rcases outcome_bind_some hr with ⟨x, w₁, -, hx⟩ | ⟨fault, hfault, rfl⟩
  · exact hn x w₁ r w' hx
  · obtain ⟨x, hx⟩ := h w _ w' hfault
    cases hx

theorem printing {run : Run α} (h : Succeeds run) : Succeeds run.printing := by
  rw [Run.printing, discard_eq]
  refine .bind (.bind (.modifyGet _) fun _ => .pure _) fun _ => .bind h fun x => ?_
  exact .bind (.modifyGet _) fun _ => .pure _

end Succeeds
end Run

namespace Session

/-- Failures are printed like any other result. -/
theorem rep_succeeds (fuel : Nat) (source : String) (scope : ScopeId) :
    (rep fuel source scope).Succeeds := by
  rw [rep_eq]
  refine .bind (.attempt _) fun result => ?_
  cases printable result with
  | none => exact .pure _
  | some v => exact .bind (.query _) fun _ => .pure _

theorem newGlobal_succeeds (fuel : Nat) : (newGlobal fuel).Succeeds := by
  have hload : ∀ scope sources, (load fuel scope sources).Succeeds := by
    intro scope sources
    induction sources with
    | nil => exact .pure _
    | cons source sources ih =>
      rw [load, discard_eq]
      exact .bind (.bind (.attempt _) fun _ => .pure _) fun _ => ih
  exact .bind (.modifyGet _) fun scope => .bind (hload scope _) fun _ => .pure _

end Session
end MiniLisp
