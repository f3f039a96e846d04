import MiniLisp.Proofs.CleanSession

namespace MiniLisp

open Value Run

/-- What the definition of a function leaves behind. -/
def World.withFunction (w : World) (scope : ScopeId) (name : String) (c : Closure) : World :=
  let made := w.heap.newClosure c
  { w with heap := made.1.bind scope name (.fn made.2 false .nil) }

section Worlds

variable {w : World} {scope : ScopeId} {name : String} {c : Closure} {names : List String}

theorem Heap.Global.expander?_definition {heap : Heap} (h : heap.Global scope)
    (hn : name ∈ definitionNames) (args : List Value) :
    heap.expander? (ofList (.sym name :: args)) scope = none := by
  refine Heap.expander?_of_lookup args .nil fun id note hl => ?_
  rw [h.lookup_definition hn] at hl
  cases hl

theorem Heap.Global.withFunction (h : w.heap.Global scope) (hn : name ∉ reservedNames)
    (hc : c.body.Clean) : (w.withFunction scope name c).heap.Global scope :=
  (h.newClosure hc).bind hn (.fn .nil)

theorem Heap.Retains.withFunction (h : w.heap.Global scope) (hc : c.body.Clean) (hn : name ∉ names) :
    w.heap.Retains scope names (w.withFunction scope name c).heap :=
  (Heap.Retains.newClosure c).trans (.bind (h.newClosure hc) hn _)

/-- The name stands for the new function. -/
theorem Heap.Global.lookup_withFunction (h : w.heap.Global scope) :
    ∃ id, (w.withFunction scope name c).heap.scopes.lookup scope name = some (.fn id false .nil) ∧
      (w.withFunction scope name c).heap.closure? id = some c := by
  obtain ⟨s, hs, ho, -⟩ := h.frame
  refine ⟨(w.heap.newClosure c).2, ?_, Array.getElem?_push_size⟩
  have hs' : (w.withFunction scope name c).heap.scopes.get? scope = some { s with
      bindings := Entries.insert name (.fn (w.heap.newClosure c).2 false .nil) s.bindings } := by
    rw [World.withFunction, Heap.get?_bind, if_pos rfl]
    exact congrArg _ hs
  rw [Scopes.lookup_outermost hs' ho, Entries.find?_insert_self]

end Worlds

namespace Session

variable {fuel : Nat} {scope : ScopeId} {w w' : World} {source name : String} {params body : Value}
  {names : List String}

theorem eval_function (hw : w.heap.Global scope) (hparams : SpecialForm.params? params = some names)
    (levels : Nat) :
    (evalWithin (fuel + 1) (levels + 1) (ofList [.sym "fn*", params, body]) scope).outcome w =
      some (.ok (.fn (w.heap.newClosure ⟨names, body, scope⟩).2 false .nil),
        { w with heap := (w.heap.newClosure ⟨names, body, scope⟩).1 }) := by
  have hsame : w.heap.expander? (ofList [.sym "fn*", params, body]) scope = none :=
    hw.expander?_definition (by decide) _
  have hstep : (evalStep (evalWithin (fuel + 1) levels) (fuel + 1)
      (ofList [.sym "fn*", params, body]) scope).outcome w = _ :=
    (evalStep_same hsame).trans (runFunction_made hparams body scope w)
  exact (evalSteps_done hstep).trans rfl

/-- The text of the definition of a function makes that function. -/
theorem evalText_function (hw : w.heap.Global scope)
    (hread : Value.read source =
      .ok (some (ofList [.sym "def!", .sym name, ofList [.sym "fn*", params, body]])))
    (hparams : SpecialForm.params? params = some names) :
    ∃ v, (evalText (fuel + 1) source scope).outcome w =
      some (.ok (some v), w.withFunction scope name ⟨names, body, scope⟩) := by
  let form := ofList [.sym "def!", .sym name, ofList [.sym "fn*", params, body]]
  let v : Value := .fn (w.heap.newClosure ⟨names, body, scope⟩).2 false .nil
  have hsame : w.heap.expander? form scope = none := hw.expander?_definition (by decide) _
  have hrun : (SpecialForm.define.runDefine (evalWithin (fuel + 1) 199) scope
      [.sym name, ofList [.sym "fn*", params, body]]).outcome w =
        some (.ok (.done v), w.withFunction scope name ⟨names, body, scope⟩) := by
    rw [SpecialForm.runDefine_symbol, bind_assoc, outcome_bind_ok _ (eval_function hw hparams 198)]
    rfl
  have hstep : (evalStep (evalWithin (fuel + 1) 199) (fuel + 1) form scope).outcome w =
      some (.ok (.done v), w.withFunction scope name ⟨names, body, scope⟩) :=
    (evalStep_same hsame).trans hrun
  have hdefinition : (MiniLisp.eval (fuel + 1) form scope).outcome w =
      some (.ok v, w.withFunction scope name ⟨names, body, scope⟩) :=
    (evalSteps_done hstep).trans rfl
  refine ⟨v, ?_⟩
  simp only [evalText, hread, ofExcept_ok, pure_bind]
  exact outcome_bind_ok _ hdefinition

/-- Texts are loaded one after the other. -/
theorem load_cons {result : Option Value} (sources : List String)
    (h : (evalText fuel source scope).outcome w = some (.ok result, w')) :
    (load fuel scope (source :: sources)).outcome w = (load fuel scope sources).outcome w' := by
  have hattempt : (Run.attempt (evalText fuel source scope)).outcome w =
      some (.ok (.ok result), w') := by
    rw [outcome_attempt, h]
    rfl
  rw [load, discard_eq, bind_assoc, outcome_bind_ok _ hattempt]
  rfl

end Session
end MiniLisp
