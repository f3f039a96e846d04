import MiniLisp.Proofs.DisciplinedEvaluation
import MiniLisp.Proofs.Recursive

namespace MiniLisp

open Run

variable {α : Type}

/-- The scopes of the heap but for these. -/
def Heap.AllBut (heap : Heap) (others : List ScopeId) (scope : ScopeId) : Prop :=
  heap.Knows scope ∧ scope ∉ others

/-- What may become of a heap in which some scopes are spared: all scopes still hang off the global
one, no binding is gone from any of them, and those that are spared have the bindings that they
had. -/
structure Heap.Spares (spared : ScopeId → Prop) (global : ScopeId) (before after : Heap) : Prop where
  hangsOff : after.HangsOff global
  grown : before.Extends after
  same : ∀ scope, spared scope → after.scopes.get? scope = before.scopes.get? scope

/-- Wherever the run ends from the world, some scopes have been spared. -/
def Run.Spares (run : Run α) (spared : ScopeId → Prop) (global : ScopeId) (w : World) : Prop :=
  ∀ result w', run.outcome w = some (result, w') → Heap.Spares spared global w.heap w'.heap

namespace Heap.Spares

variable {spared : ScopeId → Prop} {global scope : ScopeId} {before after : Heap}

theorem refl (h : before.HangsOff global) : Spares spared global before before :=
  ⟨h, .refl before, fun _ _ => rfl⟩

theorem enter (h : Spares spared global before after) (hspared : ∀ other, spared other → before.Knows other)
    (hk : after.Knows scope) (bindings : Entries String Value) :
    Spares spared global before (after.enter (some scope) bindings).1 where
  hangsOff := h.hangsOff.enter hk bindings
  grown := h.grown.trans (.enter after (some scope) bindings)
  same := by
    intro other hother
    rw [get?_enter_known (h.grown.knows (hspared other hother)), h.same other hother]

theorem bind (h : Spares spared global before after) (hscope : ¬ spared scope) (name : String)
    (v : Value) : Spares spared global before (after.bind scope name v) where
  hangsOff := h.hangsOff.bind scope name v
  grown := h.grown.trans (.bind after scope name v)
  same := by
    intro other hother
    have hne : other ≠ scope := fun heq => hscope (heq ▸ hother)
    rw [get?_bind, if_neg hne, h.same other hother]

end Heap.Spares

namespace Discipline

variable {spared : ScopeId → Prop} {global : ScopeId} {before : Heap}

/-- To spare certain scopes that are there already. -/
def sparing (global : ScopeId) (before : Heap) (spared : ScopeId → Prop)
    (hspared : ∀ scope, spared scope → before.Knows scope) : Discipline where
  holds := Heap.Spares spared global before
  usable scope := ¬ spared scope
  functions h hc := h.hangsOff.functions _ _ hc
  enter := by
    intro heap scope bindings h hk
    -- The new scope comes after all that were there before, and only those may be spared.
    refine ⟨h.enter hspared hk bindings, fun hnew => ?_⟩
    have hlt := h.grown.knows (hspared _ hnew)
    rw [Heap.Knows, Heap.index_enter] at hlt
    exact Nat.lt_irrefl _ hlt
  bind name v h hscope := h.bind hscope name v
  newCell v h := ⟨h.hangsOff.newCell v, h.grown, h.same⟩
  setCell id v h := ⟨h.hangsOff.setCell id v, h.grown, h.same⟩
  newClosure h hc := ⟨h.hangsOff.newClosure hc, h.grown, h.same⟩

theorem sparing_admitsRoots {hspared : ∀ scope, spared scope → before.Knows scope}
    (hglobal : ¬ spared global) : (sparing global before spared hspared).AdmitsRoots := by
  intro heap scope h _ hk
  rw [h.hangsOff.root hk]
  exact hglobal

/-- To spare none, and only keep all scopes hanging off the global one. -/
def hanging (global : ScopeId) (before : Heap) : Discipline :=
  .sparing global before (fun _ => False) fun _ h => h.elim

theorem hanging_admitsRoots (global : ScopeId) (before : Heap) :
    (hanging global before).AdmitsRoots :=
  sparing_admitsRoots id

/-- To spare all but the global one. What keeps to it binds names in the global scope and in scopes
that it opens itself. -/
def opening (global : ScopeId) (before : Heap) : Discipline :=
  .sparing global before (before.AllBut [global]) fun _ h => h.1

theorem opening_admitsRoots (global : ScopeId) (before : Heap) :
    (opening global before).AdmitsRoots :=
  sparing_admitsRoots fun h => h.2 List.mem_cons_self

end Discipline

section

variable {global scope : ScopeId} {w : World} {fuel levels : Nat}

theorem Step.finish_obeys {D : Discipline} {ev ev' : Evaluator} (hev : ev.Obeys D ev') {count : Nat}
    {step : Step} (hstep : step.Admitted D count) :
    (step.finish ev).Obeys D count Anything (step.finish ev') := by
  cases step with
  | done v => exact .settle v
  | tail form scope => exact hev form hstep

theorem Run.Obeys.spares {spared : ScopeId → Prop}
    {hspared : ∀ scope, spared scope → w.heap.Knows scope} {P : Nat → α → Prop} {a b : Run α}
    (hw : w.heap.HangsOff global)
    (h : Obeys (.sparing global w.heap spared hspared) w.heap.scopeCount P a b) :
    a.Spares spared global w :=
  fun result w' hr => ((h w (.refl hw) (Nat.le_refl _)).2 result w' hr).1

/-- All scopes hang off the global one, and the scope at hand is one of them. -/
def HangsOffAt (global scope : ScopeId) (w : World) : Prop :=
  w.heap.HangsOff global ∧ w.heap.Knows scope

/-- Evaluation passes only worlds whose scopes hang off the global one, and takes place in scopes
that are there. -/
theorem passesOnly_hangsOffAt (hw : w.heap.HangsOff global) (hscope : w.heap.Knows scope)
    (fuel levels : Nat) (form : Value) :
    PassesOnly (HangsOffAt global) fuel levels form scope w := by
  intro cut other
  have hroots := Discipline.hanging_admitsRoots global w.heap
  have hagrees : Supervisor.Agrees (.hanging global w.heap) (.cutting cut)
      (.minding (HangsOffAt global) other (.cutting cut)) :=
    (Supervisor.agrees_cutting hroots cut).minding other fun w' scope' h hadmits =>
      ⟨Heap.Spares.hangsOff h, hadmits.2⟩
  exact (evalUnder_obeys hagrees fuel levels form ⟨id, hscope⟩ w (.refl hw) (Nat.le_refl _)).1

theorem evalWithin_spares (hw : w.heap.HangsOff global) (hscope : w.heap.Knows scope)
    (form : Value) :
    (evalWithin fuel levels form scope).Spares (w.heap.AllBut [scope, global]) global w := by
  let D : Discipline := .sparing global w.heap (w.heap.AllBut [scope, global]) fun _ h => h.1
  have hroots : D.AdmitsRoots :=
    Discipline.sparing_admitsRoots fun h => h.2 (List.mem_cons_of_mem _ List.mem_cons_self)
  have hev := evalWithin_obeys hroots fuel levels
  exact (hev form ⟨fun h => h.2 List.mem_cons_self, hscope⟩).spares hw

theorem evalWithin_spares_global (hw : w.heap.HangsOff global) (hscope : w.heap.Knows scope)
    {form : Value} (h : NeverRuns .eval fuel levels form scope w) :
    (evalWithin fuel levels form scope).Spares (w.heap.AllBut [scope]) global w := by
  intro result w' hr
  rw [← h fun _ _ => Run.diverge] at hr
  let D : Discipline := .sparing global w.heap (w.heap.AllBut [scope]) fun _ h => h.1
  have hagrees : Supervisor.Agrees D _ _ :=
    Supervisor.agrees_replacing_eval (fun _ _ => Run.diverge) fun _ _ => .diverge
  have hev := evalUnder_obeys hagrees fuel levels
  exact (hev form ⟨fun h => h.2 List.mem_cons_self, hscope⟩).spares hw result w' hr

theorem Closure.call_spares (hw : w.heap.HangsOff global) {id : FnId} {c : Closure}
    (hc : w.heap.closure? id = some c) (args : List Value) :
    (c.call (evalWithin fuel levels) args).Spares (w.heap.AllBut [global]) global w := by
  have hev := evalWithin_obeys (Discipline.opening_admitsRoots global w.heap) fuel levels
  exact (c.call_obeys hev (hw.functions id c hc)).spares hw

theorem expand_spares (hw : w.heap.HangsOff global) (form : Value) :
    (expand (evalWithin fuel levels) fuel form scope).Spares (w.heap.AllBut [global]) global w := by
  have hev := evalWithin_obeys (Discipline.opening_admitsRoots global w.heap) fuel levels
  exact (expand_obeys hev fuel form).spares hw

/-- The scope of the bindings and the body is new. -/
theorem letIn_spares (hw : w.heap.HangsOff global) (hscope : w.heap.Knows scope)
    (args : List Value) (steps : Nat) :
    (SpecialForm.runLetIn (evalWithin fuel levels) scope args >>=
      Step.finish (evalSteps (evalWithin fuel levels) fuel steps)).Spares
        (w.heap.AllBut [global]) global w := by
  have hroots := Discipline.opening_admitsRoots global w.heap
  have hev := evalWithin_obeys hroots fuel levels
  have htail := evalSteps_obeys hroots hev fuel steps
  have hbindings : (SpecialForm.runLetIn (evalWithin fuel levels) scope args).Obeys
      (.opening global w.heap) w.heap.scopeCount _ _ := SpecialForm.runLetIn_obeys hev hscope
  have hwhole := hbindings.bind fun _ _ _ hstep => Step.finish_obeys htail hstep
  exact hwhole.spares hw

/-- The scope of the handler is new. -/
theorem handler_spares (hw : w.heap.HangsOff global) (hscope : w.heap.Knows scope)
    (bindings : Entries String Value) (handler : Value) (steps : Nat) :
    (Run.enter (some scope) bindings >>=
      evalSteps (evalWithin fuel levels) fuel steps handler).Spares
        (w.heap.AllBut [global]) global w := by
  have hroots := Discipline.opening_admitsRoots global w.heap
  have htail := evalSteps_obeys hroots (evalWithin_obeys hroots fuel levels) fuel steps
  have hwhole := Obeys.bind (.enter hscope bindings) fun _ _ _ hinner => htail handler hinner
  exact hwhole.spares hw

/-- A failed form with a clause for its failure goes on with the handler, in a new scope. -/
theorem handle_finish_error {ev tail : Evaluator} {body clause handler : Value} {name : String}
    {fault : Fault} {w₁ : World} (hclause : SpecialForm.catchClause? clause = some (name, handler))
    (hbody : (ev body scope).outcome w = some (.error fault, w₁)) :
    (SpecialForm.runHandle ev scope [body, clause] >>= Step.finish tail).outcome w =
      (Run.enter (some scope) [(name, fault.toCaught)] >>= tail handler).outcome w₁ := by
  have hattempt : (Run.attempt (ev body scope)).outcome w = some (.ok (.error fault), w₁) := by
    rw [outcome_attempt, hbody]
    rfl
  simp only [SpecialForm.runHandle, hclause, bind_assoc]
  rw [outcome_bind_ok _ hattempt]
  simp only [bind_assoc, pure_bind, Step.finish]

/-- What evaluations that begin in the scope leave as it is. -/
structure WritesInScope (global scope : ScopeId) (w : World) : Prop where
  /-- An evaluation binds names in its own scope, in the outermost one and in new ones. -/
  evaluation : ∀ fuel levels form,
    (evalWithin fuel levels form scope).Spares (w.heap.AllBut [scope, global]) global w
  /-- It binds none in the outermost one, either, unless that is its own or `eval` runs. -/
  withoutEval : ∀ fuel levels form, NeverRuns .eval fuel levels form scope w →
    (evalWithin fuel levels form scope).Spares (w.heap.AllBut [scope]) global w
  expansion : ∀ fuel levels form,
    (expand (evalWithin fuel levels) fuel form scope).Spares (w.heap.AllBut [global]) global w
  call : ∀ fuel levels id c args, w.heap.closure? id = some c →
    (c.call (evalWithin fuel levels) args).Spares (w.heap.AllBut [global]) global w
  /-- The scope of the bindings is that of the body, and it is new. -/
  letIn : ∀ fuel levels steps bindings body,
    (SpecialForm.runLetIn (evalWithin fuel levels) scope [bindings, body] >>=
      Step.finish (evalSteps (evalWithin fuel levels) fuel steps)).Spares
        (w.heap.AllBut [global]) global w
  /-- From where the body has failed, the handler spares what is there by then. -/
  handler : ∀ fuel levels steps body clause name handler fault w₁ result w₂,
    SpecialForm.catchClause? clause = some (name, handler) →
    (evalWithin fuel levels body scope).outcome w = some (.error fault, w₁) →
    (SpecialForm.runHandle (evalWithin fuel levels) scope [body, clause] >>=
      Step.finish (evalSteps (evalWithin fuel levels) fuel steps)).outcome w =
        some (result, w₂) →
    Heap.Spares (w₁.heap.AllBut [global]) global w₁.heap w₂.heap

theorem writesInScope (hw : w.heap.HangsOff global) (hscope : w.heap.Knows scope) :
    WritesInScope global scope w where
  evaluation fuel levels := evalWithin_spares hw hscope
  withoutEval fuel levels form := evalWithin_spares_global hw hscope
  expansion fuel levels := expand_spares hw
  call fuel levels id c args hc := c.call_spares hw hc args
  letIn fuel levels steps bindings body := letIn_spares hw hscope [bindings, body] steps
  handler := by
    intro fuel levels steps body clause name handler fault w₁ result w₂ hclause hbody hend
    have hspares := evalWithin_spares hw hscope body _ w₁ hbody
    rw [handle_finish_error hclause hbody] at hend
    exact handler_spares hspares.hangsOff (hspares.grown.knows hscope) _ handler steps _ _ hend

end
end MiniLisp
