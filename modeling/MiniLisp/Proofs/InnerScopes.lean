import MiniLisp.Proofs.DisciplinedEvaluation
import MiniLisp.Proofs.Gensym
import MiniLisp.Proofs.LexicalScope

namespace MiniLisp

open Value Run

/-- The scope lies inside another one. -/
def Heap.Inner (heap : Heap) (scope : ScopeId) : Prop :=
  ∃ s, heap.scopes.get? scope = some s ∧ s.outer.isSome

/-- Functions were made in scopes of the heap. -/
def Heap.KnowsFunctions (heap : Heap) : Prop :=
  ∀ id c, heap.closure? id = some c → heap.Knows c.scope

/-- What may become of a heap in which the inner scopes are left alone. -/
structure Heap.LeavesInner (before after : Heap) : Prop where
  functions : after.KnowsFunctions
  grown : before.Extends after
  same : ∀ scope, before.Inner scope → after.scopes.get? scope = before.scopes.get? scope

namespace Heap

variable {heap before after : Heap} {scope : ScopeId}

theorem Inner.knows (h : heap.Inner scope) : heap.Knows scope := by
  obtain ⟨s, hs, -⟩ := h
  exact knows_iff.mpr ⟨s, hs⟩

/-- The outermost scope around a scope lies inside no other. -/
theorem not_inner_root (hk : heap.Knows scope) : ¬ heap.Inner (heap.scopes.root scope) := by
  fun_induction Scopes.root heap.scopes scope with
  | case1 scope hs =>
    rintro ⟨s, hsome, -⟩
    rw [hs] at hsome
    cases hsome
  | case2 scope s hs ho =>
    rintro ⟨s', hsome, hinner⟩
    rw [hs] at hsome
    cases hsome
    rw [ho] at hinner
    cases hinner
  | case3 scope s hs o ho hlt ih => exact ih (Nat.lt_trans hlt hk)

namespace LeavesInner

theorem refl (h : heap.KnowsFunctions) : heap.LeavesInner heap :=
  ⟨h, .refl heap, fun _ _ => rfl⟩

theorem enter (h : before.LeavesInner after) (outer : Option ScopeId)
    (bindings : Entries String Value) : before.LeavesInner (after.enter outer bindings).1 where
  functions id c hc := (Extends.enter after outer bindings).knows (h.functions id c hc)
  grown := h.grown.trans (.enter after outer bindings)
  same other hother := by
    rw [get?_enter_known (h.grown.knows hother.knows), h.same other hother]

theorem bind (h : before.LeavesInner after) (hscope : ¬ before.Inner scope) (name : String)
    (v : Value) : before.LeavesInner (after.bind scope name v) where
  functions id c hc := (Extends.bind after scope name v).knows (h.functions id c hc)
  grown := h.grown.trans (.bind after scope name v)
  same other hother := by
    have hne : other ≠ scope := fun heq => hscope (heq ▸ hother)
    rw [get?_bind, if_neg hne, h.same other hother]

theorem newClosure (h : before.LeavesInner after) {c : Closure} (hc : after.Knows c.scope) :
    before.LeavesInner (after.newClosure c).1 where
  functions id c' hc' := by
    simp only [Heap.newClosure, closure?, Array.getElem?_push] at hc'
    split at hc'
    · cases hc'
      exact hc
    · exact h.functions id c' hc'
  grown := h.grown
  same := h.same

end LeavesInner
end Heap

/-- To leave the inner scopes that are there already. -/
def Discipline.leavingInner (before : Heap) : Discipline where
  holds := before.LeavesInner
  usable scope := ¬ before.Inner scope
  functions h hc := h.functions _ _ hc
  enter := by
    intro heap scope bindings h _
    refine ⟨h.enter _ bindings, fun hnew => ?_⟩
    have hlt := h.grown.knows hnew.knows
    rw [Heap.Knows, Heap.index_enter] at hlt
    exact Nat.lt_irrefl _ hlt
  bind name v h hscope := h.bind hscope name v
  newCell _ h := ⟨h.functions, h.grown, h.same⟩
  setCell _ _ h := ⟨h.functions, h.grown, h.same⟩
  newClosure h hc := h.newClosure hc

theorem Discipline.leavingInner_admitsRoots (before : Heap) :
    (Discipline.leavingInner before).AdmitsRoots := by
  rintro heap scope h - hk ⟨s, hs, hinner⟩
  exact Heap.not_inner_root hk ⟨s, (h.same _ ⟨s, hs, hinner⟩).trans hs, hinner⟩

/-- An evaluation leaves the inner scopes of before as they are, unless it takes place in one of them. -/
theorem Evaluates.leavesInner {before : Heap} {w w' : World} {scope : ScopeId} {form : Value}
    {levels : Nat} {result : Except Fault Value}
    (h : Evaluates levels form scope w (some (result, w'))) (hw : before.LeavesInner w.heap)
    (hk : w.heap.Knows scope) (hscope : ¬ before.Inner scope) : before.LeavesInner w'.heap := by
  obtain ⟨least, hends⟩ := h
  have hev := evalWithin_obeys (Discipline.leavingInner_admitsRoots before) least levels
  exact ((hev form ⟨hscope, hk⟩ w hw (Nat.le_refl _)).2 result w' (hends least (Nat.le_refl _))).1

theorem World.Apart.not_inner {counter : CellId} {w w' : World} {scope : ScopeId}
    (h : w.Apart counter w') (hk : w.heap.Knows scope) (hscope : ¬ w.heap.Inner scope) :
    ¬ w'.heap.Inner scope := by
  rintro ⟨s, hs, hinner⟩
  exact hscope ⟨s, (h.scopes scope hk).symm.trans hs, hinner⟩

/-- From the scope up to the global one only generated names are bound. -/
inductive Heap.Marked (heap : Heap) (global : ScopeId) : ScopeId → Prop
  | here (known : heap.Knows global) : Marked heap global global
  | inside {scope s outer} (found : heap.scopes.get? scope = some s) (link : s.outer = some outer)
      (names : ∀ name, (Entries.find? name s.bindings).isSome → Generated name)
      (around : Marked heap global outer) : Marked heap global scope

namespace Heap.Marked

variable {heap heap' : Heap} {w : World} {global scope : ScopeId} {name : String}

theorem knows (h : heap.Marked global scope) : heap.Knows scope := by
  cases h with
  | here known => exact known
  | inside found => exact knows_iff.mpr ⟨_, found⟩

/-- Names that are not generated mean what they mean in the global scope. -/
theorem lookup (h : heap.Marked global scope) (hname : ¬ Generated name) :
    heap.scopes.lookup scope name = heap.scopes.lookup global name := by
  induction h with
  | here => rfl
  | inside found link names around ih =>
    have hfree : Entries.find? name _ = none :=
      Option.not_isSome_iff_eq_none.mp fun hbound => hname (names name hbound)
    rw [Scopes.lookup_of_get? found, hfree, link, Option.none_or, Option.bind_some, ih]

theorem root (h : heap.Marked global scope) :
    heap.scopes.root scope = heap.scopes.root global := by
  induction h with
  | here => rfl
  | inside found link names around ih =>
    rw [Scopes.root_of_get? found, link, Option.map_some, Option.getD_some, ih]

/-- It stays like this as long as the inner scopes are left alone. -/
theorem kept (h : heap.Marked global scope) (hg : heap'.Knows global)
    (hsame : ∀ other, heap.Inner other → heap'.scopes.get? other = heap.scopes.get? other) :
    heap'.Marked global scope := by
  induction h with
  | here => exact .here hg
  | inside found link names around ih =>
    exact .inside ((hsame _ ⟨_, found, by rw [link]; rfl⟩).trans found) link names ih

theorem knows_global (h : heap.Marked global scope) : heap.Knows global := by
  induction h with
  | here known => exact known
  | inside _ _ _ _ ih => exact ih

theorem apart {counter : CellId} {w' : World} (h : w.heap.Marked global scope)
    (ha : w.Apart counter w') : w'.heap.Marked global scope :=
  h.kept (ha.knows h.knows_global) fun other hinner => ha.scopes other hinner.knows

/-- A new scope in which nothing is bound yet is like the one around it. -/
theorem entered (h : w.heap.Marked global scope) :
    (w.entered (some scope) []).heap.Marked global (w.newScope (some scope) []) := by
  refine .inside (get?_enter_new h.knows []) rfl (fun name hbound => by cases hbound) ?_
  exact h.kept ((Extends.enter w.heap _ _).knows h.knows_global) fun other hinner =>
    get?_enter_known hinner.knows (some scope) []

theorem binding (h : w.heap.Marked global scope) (hname : Generated name) (inner : ScopeId)
    (v : Value) : (w.binding inner name v).heap.Marked global scope := by
  have hgrown := Extends.bind w.heap inner name v
  induction h with
  | here known => exact .here (hgrown.knows known)
  | @inside scope s outer found link names around ih =>
    have hfound : (w.binding inner name v).heap.scopes.get? scope = _ :=
      get?_bind w.heap inner scope name v
    rw [found] at hfound
    split at hfound
    · refine .inside hfound link (fun other hbound => ?_) ih
      by_cases heq : name = other
      · exact heq ▸ hname
      · rw [Entries.find?_insert_ne heq] at hbound
        exact names other hbound
    · exact .inside hfound link names ih

end Heap.Marked

/-- The call of this name without arguments. -/
def callOf (name : String) : Value :=
  ofList [.sym name]

section Calls

variable {w : World} {global scope : ScopeId} {name : String}

/-- What a name stands for is found out without any change. -/
theorem evalWithin_name (fuel levels : Nat)
    (h : w.heap.scopes.lookup scope name = w.heap.scopes.lookup global name) :
    (evalWithin fuel levels (.sym name) scope).outcome w =
      (evalWithin fuel levels (.sym name) global).outcome w ∧
    ∀ v w', (evalWithin fuel levels (.sym name) global).outcome w = some (.ok v, w') → w' = w := by
  match levels, fuel with
  | 0, _ => exact ⟨rfl, fun _ _ hends => by cases hends⟩
  | levels + 1, 0 => exact ⟨rfl, fun _ _ hends => by cases hends⟩
  | levels + 1, fuel + 1 =>
    rw [evalWithin, evalWithin]
    cases hname : w.heap.scopes.lookup global name with
    | none =>
      rw [evalSteps_unbound (h.trans hname), evalSteps_unbound hname]
      exact ⟨rfl, fun _ _ hends => by cases hends⟩
    | some v =>
      rw [evalSteps_symbol (h.trans hname), evalSteps_symbol hname]
      refine ⟨rfl, fun v' w' hends => ?_⟩
      cases v with
      | error => cases hends
      | _ =>
        cases hends
        rfl

/-- A call without arguments ends from such a scope as it does from the global one. -/
theorem call_marked (fuel levels : Nat) (h : w.heap.Marked global scope) (hname : ¬ Generated name)
    (hhead : SpecialForm.ofName? name = none)
    (hplain : ∀ id note, w.heap.scopes.lookup global name ≠ some (.fn id true note)) :
    (evalWithin fuel levels (callOf name) scope).outcome w =
      (evalWithin fuel levels (callOf name) global).outcome w := by
  match levels, fuel with
  | 0, _ => rfl
  | levels + 1, 0 => rfl
  | levels + 1, fuel + 1 =>
    have hlookup := h.lookup hname
    have hsame : SpecialForm.heading? [.sym name] = none := hhead
    have hstep :
        (evalStep (evalWithin (fuel + 1) levels) (fuel + 1) (callOf name) scope).outcome w =
          (evalStep (evalWithin (fuel + 1) levels) (fuel + 1) (callOf name) global).outcome w := by
      rw [callOf, ofList, evalStep_same (Heap.expander?_of_lookup [] _ (hlookup ▸ hplain)),
        evalStep_same (Heap.expander?_of_lookup [] _ hplain), evalExpanded_call _ (by simp) hsame,
        evalExpanded_call _ (by simp) hsame]
      obtain ⟨hsymbol, hstays⟩ := evalWithin_name (fuel + 1) levels hlookup
      simp only [evalCall, List.mapM_cons, List.mapM_nil, bind_assoc, pure_bind]
      rw [outcome_bind, outcome_bind, hsymbol]
      cases hends : (evalWithin (fuel + 1) levels (.sym name) global).outcome w with
      | none => rfl
      | some ending =>
        obtain ⟨result, w'⟩ := ending
        cases result with
        | error fault => rfl
        | ok v =>
          obtain rfl := hstays v w' hends
          cases v with
          | native op note =>
            have hev := evalWithin_grows (fuel + 1) levels
            exact Alike.bind (Native.call_grows hev (fuel + 1) op [])
              (Native.call_alike hev (fuel + 1) op []) (fun v => .refl _) w' (.of_root h.root)
          | _ => rfl
    rw [evalWithin, evalWithin, evalSteps_succ, evalSteps_succ, outcome_bind, outcome_bind, hstep]

/-- A call that is no call of an expander may be made in the global scope instead. -/
theorem Evaluates.marked {levels : Nat} {o : Ending Value}
    (h : Evaluates levels (callOf name) global w o) (hscope : w.heap.Marked global scope)
    (hname : ¬ Generated name) (hhead : SpecialForm.ofName? name = none)
    (hplain : ∀ id note, w.heap.scopes.lookup global name ≠ some (.fn id true note)) :
    Evaluates levels (callOf name) scope w o :=
  h.congr 0 fun fuel _ => call_marked fuel levels hscope hname hhead hplain

end Calls

end MiniLisp
