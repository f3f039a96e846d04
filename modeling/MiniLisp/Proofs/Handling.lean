import MiniLisp.Proofs.FailFast

namespace MiniLisp

open Run

/-- One task comes to another through any number of tasks and levels, none of which handles
failures. -/
inductive Reaches (fuel : Nat) : Nat → Task → World → Nat → Task → World → Prop
  | here {levels t w} : Reaches fuel levels t w levels t w
  | await {levels levels' t t' t'' w w' w''}
      (h : Awaits (evalWithin fuel levels) fuel t w t' w')
      (rest : Reaches fuel levels t' w' levels' t'' w'') : Reaches fuel levels t w levels' t'' w''
  /-- A form inside is evaluated in steps of its own, with one level less. -/
  | deeper {levels levels' form scope t w w'}
      (rest : Reaches fuel levels (.steps fuel form scope) w levels' t w') :
      Reaches fuel (levels + 1) (.eval form scope) w levels' t w'

variable {fuel levels levels' : Nat} {w w' w'' : World} {fault : Fault}

/-- A failure of a task that is reached is the failure of the one that has come to it. -/
theorem Reaches.error {t t' : Task} (h : Reaches fuel levels t w levels' t' w')
    (ht : (t'.run (evalWithin fuel levels') fuel).outcome w' = some (.error fault, w'')) :
    (t.run (evalWithin fuel levels) fuel).outcome w = some (.error fault, w'') := by
  induction h with
  | here => exact ht
  | await h rest ih => exact h.error (ih ht)
  | deeper rest ih => exact ih ht

theorem catchClause?_clause (name : String) (handler note : Value) :
    SpecialForm.catchClause? (.list [.sym "catch*", .sym name, handler] note) =
      some (name, handler) := by
  simp only [SpecialForm.catchClause?, if_true]

theorem SpecialForm.runHandle_error {ev : Evaluator} {scope : ScopeId} {body : Value}
    (name : String) (handler note : Value) (h : (ev body scope).outcome w = some (.error fault, w')) :
    (runHandle ev scope [body, .list [.sym "catch*", .sym name, handler] note]).outcome w =
      some (.ok (.tail handler (w'.heap.enter (some scope) [(name, fault.toCaught)]).2),
        { w' with heap := (w'.heap.enter (some scope) [(name, fault.toCaught)]).1 }) := by
  have hattempt : (Run.attempt (ev body scope)).outcome w = some (.ok (.error fault), w') := by
    rw [outcome_attempt, h]
    rfl
  simp only [runHandle, catchClause?_clause]
  rw [outcome_bind_ok _ hattempt, outcome_bind_ok _ (outcome_enter _ _ _)]
  rfl

end MiniLisp
