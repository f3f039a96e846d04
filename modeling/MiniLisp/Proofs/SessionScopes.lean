import MiniLisp.Proofs.CleanSession
import MiniLisp.Proofs.Confinement

namespace MiniLisp

open Run

/-- Evaluates in this scope whatever `eval` is to evaluate. -/
def Supervisor.evaluatingIn (global : ScopeId) : Supervisor :=
  { idle with
    native := fun ev op args _ run =>
      match op, args with
      | .eval, [form] => ev form global
      | _, _ => run }

theorem Supervisor.agrees_evaluatingIn (global : ScopeId) (before : Heap) :
    Agrees (.hanging global before) .idle (.evaluatingIn global) where
  floor := fun _ _ _ _ => .raise _
  step := fun _ _ _ _ h => h
  native := by
    intro ev ev' hev count call call' hcall op args scope hscope
    have hperform : (op.perform ev call args scope).Obeys (.hanging global before) count Anything
        (op.perform ev' call' args scope) :=
      Native.perform_obeys hev hcall (fun _ => Discipline.hanging_admitsRoots global before) hscope
    simp only [evaluatingIn]
    split
    · next form =>
      intro w hw hcount
      have hroot := hw.hangsOff.root (hscope.mono hcount).2
      have heval : (Native.eval.perform ev call [form] scope).outcome w =
          (ev form global).outcome w := by
        rw [← hroot]
        rfl
      have hknown : w.heap.Knows global := hw.hangsOff.known
      rw [idle, plain, heval]
      exact hev form ⟨id, hknown⟩ w hw (Nat.le_refl _)
    · exact hperform

namespace Session

variable {D : Discipline} {count fuel : Nat} {global scope : ScopeId} {w : World}

theorem evalText_obeys (hroots : D.AdmitsRoots) (hscope : D.Admits count scope) (fuel : Nat)
    (source : String) :
    (evalText fuel source scope).Obeys D count Anything (evalText fuel source scope) := by
  refine .bind (.ofExcept _) fun m form? hm _ => ?_
  cases form? with
  | none => exact .value _
  | some form =>
    refine .bind (P := Anything) ?_ fun _ _ _ _ => .value _
    exact evalWithin_obeys hroots fuel maxEvalDepth form (hscope.mono hm)

theorem load_obeys (hroots : D.AdmitsRoots) (hscope : D.Admits count scope) (fuel : Nat)
    (sources : List String) :
    (load fuel scope sources).Obeys D count Anything (load fuel scope sources) := by
  induction sources generalizing count with
  | nil => exact .value _
  | cons source sources ih =>
    rw [load, discard_eq]
    refine .bind (P := Anything) ?_ fun _ _ hm _ => ih (hscope.mono hm)
    exact .bind (.attempt (evalText_obeys hroots hscope fuel source)) fun _ _ _ _ => .value _

/-- The worlds that come about when texts are evaluated one after another in a new global scope. -/
inductive Arises : ScopeId → World → Prop
  | start {fuel files input clock global w}
      (h : (newGlobal fuel).outcome (World.start files input clock) = some (.ok global, w)) :
      Arises global w
  | evaluate {fuel source global w result w'} (before : Arises global w)
      (h : (evalText fuel source global).outcome w = some (result, w')) : Arises global w'

theorem newGlobal_hangsOff {files : Files} {input : String} {clock : Int64}
    (h : (newGlobal fuel).outcome (World.start files input clock) = some (.ok global, w)) :
    w.heap.HangsOff global := by
  let w₀ : World := { World.start files input clock with
    heap := (Heap.empty.enter none globalBindings).1 }
  have henter : (Run.enter none globalBindings).outcome (World.start files input clock) =
      some (.ok (Heap.empty.enter none globalBindings).2, w₀) := rfl
  have hw₀ : w₀.heap.HangsOff (Heap.empty.enter none globalBindings).2 :=
    Heap.hangsOff_enter_empty globalBindings
  -- The prelude is loaded where the global scope is all there is; how it ends does not matter.
  rw [newGlobal, outcome_bind_ok _ henter] at h
  have hroots := Discipline.opening_admitsRoots (Heap.empty.enter none globalBindings).2 w₀.heap
  have hload := load_obeys hroots
    ⟨fun hspared => hspared.2 List.mem_cons_self, hw₀.known⟩ fuel Prelude.all
  have hmade := Obeys.bind hload fun _ _ _ _ =>
    Obeys.value (Heap.empty.enter none globalBindings).2
  rcases outcome_bind_some h with ⟨_, w₁, -, hscope⟩ | ⟨fault, -, hfault⟩
  · cases hscope
    exact (hmade.spares hw₀ _ _ h).hangsOff
  · cases hfault

theorem Arises.hangsOff (h : Arises global w) : w.heap.HangsOff global := by
  induction h with
  | start h => exact newGlobal_hangsOff h
  | @evaluate fuel source global w result w' before h ih =>
    have hroots := Discipline.opening_admitsRoots global w.heap
    have htext := evalText_obeys hroots
      ⟨fun hspared => hspared.2 List.mem_cons_self, ih.known⟩ fuel source
    exact (htext.spares ih result w' h).hangsOff

/-- Every scope hangs off the global scope: between the evaluations of texts, and wherever an
evaluation takes a step or runs a native. From every scope a finite path leads there, along which all
that can be asked of the scope is answered; and `eval` might as well be told to evaluate in the global
scope, whatever scope it is called from. -/
theorem scopes_hang_off_global (h : Arises global w) :
    w.heap.HangsOff global ∧
    (∀ scope, w.heap.Knows scope → ∀ fuel levels form,
      PassesOnly (HangsOffAt global) fuel levels form scope w) ∧
    ∀ w', w'.heap.HangsOff global → ∀ scope, w'.heap.Knows scope →
      (∃ path, w'.heap.scopes.Path scope path global ∧ w'.heap.scopes.Answers scope path global) ∧
      ∀ fuel levels form,
        (evalUnder (.evaluatingIn global) fuel levels form scope).outcome w' =
          (evalWithin fuel levels form scope).outcome w' := by
  refine ⟨h.hangsOff, fun scope hk fuel levels form => ?_, fun w' hw' scope hk => ⟨?_, ?_⟩⟩
  · exact passesOnly_hangsOffAt h.hangsOff hk fuel levels form
  · obtain ⟨path, hpath⟩ := hw'.paths scope hk
    exact ⟨path, hpath, hpath.answers⟩
  · intro fuel levels form
    have hagrees := Supervisor.agrees_evaluatingIn global w'.heap
    rw [← evalUnder_idle]
    exact (evalUnder_obeys hagrees fuel levels form ⟨id, hk⟩ w' (.refl hw') (Nat.le_refl _)).1

theorem scopes_hang_off_global_inner :
    ∃ global w inner, ∃ w₁ : World, Arises global w ∧
      w.heap.enter (some global) [] = (w₁.heap, inner) ∧
      (∃ path, w₁.heap.scopes.Path inner path global) ∧ w₁.heap.scopes.root inner = global := by
  obtain ⟨global, w, hmade, -⟩ := newGlobal_makes 0 Files.empty "" 0
  obtain ⟨hw, -, hworlds⟩ := scopes_hang_off_global (.start hmade)
  let w₁ : World := { w with heap := (w.heap.enter (some global) []).1 }
  have hinner : w₁.heap.Knows (w.heap.enter (some global) []).2 :=
    Heap.knows_iff.mpr ⟨_, Heap.get?_enter_new hw.known []⟩
  obtain ⟨⟨path, hpath, hanswers⟩, -⟩ := hworlds w₁ (hw.enter hw.known []) _ hinner
  exact ⟨global, w, _, w₁, .start hmade, rfl, ⟨path, hpath⟩, hanswers.root⟩

/-- Evaluation writes only where the scopes allow it: in a world of a session, and in any other that
an evaluation passes there. -/
theorem writes_in_scope (h : Arises global w) :
    w.heap.HangsOff global ∧
    ∀ w', w'.heap.HangsOff global → ∀ scope, w'.heap.Knows scope →
      w'.heap.scopes.root scope = global ∧ WritesInScope global scope w' ∧
      ∀ fuel levels form, PassesOnly (HangsOffAt global) fuel levels form scope w' := by
  refine ⟨h.hangsOff, fun w' hw' scope hk => ⟨hw'.root hk, writesInScope hw' hk, ?_⟩⟩
  exact passesOnly_hangsOffAt hw' hk

end Session

/-- Binds `x` to 7. -/
def definition : Value :=
  .ofList [.sym "def!", .sym "x", .int 7]

theorem evalUnder_definition {s : Supervisor} {scope : ScopeId} {w : World} (fuel levels : Nat)
    (hs : ∀ form scope run, s.step form scope run = run)
    (h : w.heap.scopes.lookup scope "def!" = none) :
    (evalUnder s (fuel + 1) (levels + 2) definition scope).outcome w =
      some (.ok (.int 7), { w with heap := w.heap.bind scope "x" (.int 7) }) := by
  have hsame : w.heap.expander? definition scope = none :=
    Heap.expander?_of_lookup _ _ fun id note hl => by
      rw [h] at hl
      cases hl
  have hvalue : (evalUnder s (fuel + 1) (levels + 1) (.int 7) scope).outcome w =
      some (.ok (.int 7), w) := by
    simp only [evalUnder, evalStepsUnder, hs]
    refine (outcome_bind_ok _ (a := .done (.int 7)) ?_).trans rfl
    exact (outcome_bind_ok _ (expand_same rfl)).trans rfl
  have hrun : (SpecialForm.define.runDefine (evalUnder s (fuel + 1) (levels + 1)) scope
      [.sym "x", .int 7]).outcome w =
      some (.ok (.done (.int 7)), { w with heap := w.heap.bind scope "x" (.int 7) }) := by
    rw [SpecialForm.runDefine_symbol, outcome_bind_ok _ (outcome_bind_ok _ hvalue)]
    rfl
  rw [evalUnder]
  simp only [evalStepsUnder, hs]
  exact (outcome_bind_ok _ ((outcome_bind_ok _ (expand_same hsame)).trans hrun)).trans rfl

namespace Session

/-- A definition in a scope inside the global one, which `eval` has no part in, leaves the global one
alone. -/
theorem writes_in_scope_definition :
    ∃ global w inner w₁ w₂, Arises global w ∧ w.heap.enter (some global) [] = (w₁.heap, inner) ∧
      (evalWithin 1 2 definition inner).outcome w₁ = some (.ok (.int 7), w₂) ∧
      w₂.heap.scopes.bound? "x" inner = some (.int 7) ∧
      w₂.heap.scopes.get? global = w₁.heap.scopes.get? global := by
  obtain ⟨global, w, hmade, hglobal⟩ := newGlobal_makes 0 Files.empty "" 0
  obtain ⟨hw, hwrites⟩ := writes_in_scope (.start hmade)
  obtain ⟨s, hs, houter, -⟩ := hglobal.frame
  let inner := (w.heap.enter (some global) []).2
  let w₁ : World := { w with heap := (w.heap.enter (some global) []).1 }
  let w₂ : World := { w₁ with heap := w₁.heap.bind inner "x" (.int 7) }
  have hinner : w₁.heap.scopes.get? inner = some ⟨[], some global⟩ :=
    Heap.get?_enter_new hw.known []
  have hfound : w₁.heap.scopes.get? global = some s :=
    (Heap.get?_enter_known hw.known (some global) []).trans hs
  have hw₁ : w₁.heap.HangsOff global := hw.enter hw.known []
  have hdef : w₁.heap.scopes.lookup inner "def!" = none := by
    rw [Scopes.lookup_of_get? hinner]
    refine (Scopes.lookup_outermost hfound houter "def!").trans ?_
    rw [← Scopes.lookup_outermost hs houter]
    exact hglobal.lookup_definition (by decide)
  have hends : (evalWithin 1 2 definition inner).outcome w₁ = some (.ok (.int 7), w₂) := by
    rw [← evalUnder_idle]
    exact evalUnder_definition 0 0 (fun _ _ _ => rfl) hdef
  have hnever : NeverRuns .eval 1 2 definition inner w₁ := fun other =>
    (evalUnder_definition (s := .replacing .eval other) 0 0 (fun _ _ _ => rfl) hdef).trans hends.symm
  have hknown : w₁.heap.Knows inner := Heap.knows_iff.mpr ⟨_, hinner⟩
  have hne : global ≠ inner := fun heq => by
    have hlt : global.index < w.heap.scopeCount := hw.known
    rw [heq] at hlt
    exact Nat.lt_irrefl _ hlt
  obtain ⟨-, hspares, -⟩ := hwrites w₁ hw₁ inner hknown
  have hsame := (hspares.withoutEval 1 2 definition hnever _ w₂ hends).same global
  refine ⟨global, w, inner, w₁, w₂, .start hmade, rfl, hends, ?_, hsame ⟨hw₁.known, ?_⟩⟩
  · rw [Scopes.bound?, Scopes.bindings, Heap.get?_bind, if_pos rfl, hinner]
    rfl
  · exact fun hmem => hne (List.mem_singleton.mp hmem)

end Session
end MiniLisp
