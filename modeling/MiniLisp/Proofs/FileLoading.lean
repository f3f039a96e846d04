import MiniLisp.Proofs.CleanSession
import MiniLisp.Proofs.DepthLimit
import MiniLisp.Proofs.FailFast
import MiniLisp.Proofs.Layers
import MiniLisp.Proofs.TakenForms

namespace MiniLisp

open Value Run

/-- Evaluating the forms from left to right ends like this: with `nil` when all of them have ended
well, and otherwise with the first failure. -/
inductive Performs (ev : Evaluator) (scope : ScopeId) :
    List Value → World → Except Fault Value → World → Prop where
  | nil {w : World} : Performs ev scope [] w (.ok .nil) w
  | next {form : Value} {forms : List Value} {w w' w'' : World} {v : Value}
      {result : Except Fault Value} (first : (ev form scope).outcome w = some (.ok v, w'))
      (rest : Performs ev scope forms w' result w'') :
      Performs ev scope (form :: forms) w result w''
  | stop {form : Value} {forms : List Value} {w w' : World} {fault : Fault}
      (first : (ev form scope).outcome w = some (.error fault, w')) :
      Performs ev scope (form :: forms) w (.error fault) w'

theorem Performs.mono {ev ev' : Evaluator} {scope : ScopeId} {forms : List Value}
    {w w' : World} {result : Except Fault Value} (h : Performs ev scope forms w result w')
    (hev : ev.Below ev') : Performs ev' scope forms w result w' := by
  induction h with
  | nil => exact .nil
  | next first rest ih => exact .next (hev _ _ _ _ first) ih
  | stop first => exact .stop (hev _ _ _ _ first)

/-- Makes the text that is read out of the text of the file. -/
def wrappingCall : Value :=
  ofList [.sym "str", .str "(do ", ofList [.sym "slurp", .sym "f"], .str "\nnil)"]

/-- The body of the function that loads files. -/
def loaderBody : Value :=
  ofList [.sym "eval", ofList [.sym "read-string", wrappingCall]]

/-- The call that loads the file at the path. -/
def loadingCall (path : String) : Value :=
  ofList [.sym "load-file", .str path]

/-- This is an outermost scope in which files are loaded as the prelude says. -/
structure Heap.LoadsFiles (heap : Heap) (global : ScopeId) : Prop where
  outermost : ∃ s, heap.scopes.get? global = some s ∧ s.outer = none
  loader : ∃ id note, heap.scopes.lookup global "load-file" = some (.fn id false note) ∧
    heap.closure? id = some ⟨["f"], loaderBody, global⟩
  natives : ∀ op ∈ [Native.eval, .readString, .str, .slurp],
    ∃ note, heap.scopes.lookup global op.name = some (.native op note)
  sequence : ∀ id note, heap.scopes.lookup global "do" ≠ some (.fn id true note)

/-- The world in which the body of the function that loads files is evaluated, and the scope there. -/
def World.calling (w : World) (global : ScopeId) (path : String) : World :=
  { w with heap := (w.heap.enter (some global) [("f", .str path)]).1 }

def World.callScope (w : World) (global : ScopeId) (path : String) : ScopeId :=
  (w.heap.enter (some global) [("f", .str path)]).2

section Calling

variable {w : World} {global : ScopeId} (path : String)

theorem Heap.LoadsFiles.knows {heap : Heap} (h : heap.LoadsFiles global) : heap.Knows global := by
  obtain ⟨s, hs, -⟩ := h.outermost
  exact Heap.knows_iff.mpr ⟨s, hs⟩

theorem lookup_calling_global (h : w.heap.LoadsFiles global) (name : String) :
    (w.calling global path).heap.scopes.lookup global name =
      w.heap.scopes.lookup global name := by
  obtain ⟨s, hs, ho⟩ := h.outermost
  have hs' : (w.calling global path).heap.scopes.get? global = some s :=
    (Heap.get?_enter_known h.knows _ _).trans hs
  rw [Scopes.lookup_outermost hs' ho, Scopes.lookup_outermost hs ho]

theorem get?_callScope (h : w.heap.LoadsFiles global) :
    (w.calling global path).heap.scopes.get? (w.callScope global path) =
      some ⟨[("f", .str path)], some global⟩ :=
  Heap.get?_enter_new h.knows _

theorem lookup_callScope_path (h : w.heap.LoadsFiles global) :
    (w.calling global path).heap.scopes.lookup (w.callScope global path) "f" =
      some (.str path) := by
  rw [Scopes.lookup_of_get? (get?_callScope path h)]
  rfl

theorem lookup_callScope (h : w.heap.LoadsFiles global) {name : String} (hn : name ≠ "f") :
    (w.calling global path).heap.scopes.lookup (w.callScope global path) name =
      w.heap.scopes.lookup global name := by
  have hnone : Entries.find? name [("f", Value.str path)] = none := by
    simp [Entries.find?, hn.symm]
  rw [Scopes.lookup_of_get? (get?_callScope path h), hnone, Option.none_or, Option.bind_some,
    lookup_calling_global path h]

theorem lookup_callScope_native (h : w.heap.LoadsFiles global) (op : Native)
    (hop : op ∈ [Native.eval, .readString, .str, .slurp]) :
    ∃ note, (w.calling global path).heap.scopes.lookup (w.callScope global path) op.name =
      some (.native op note) := by
  obtain ⟨note, hnote⟩ := h.natives op hop
  refine ⟨note, (lookup_callScope path h ?_).trans hnote⟩
  revert hop
  cases op <;> decide

theorem root_callScope (h : w.heap.LoadsFiles global) :
    (w.calling global path).heap.scopes.root (w.callScope global path) = global := by
  obtain ⟨s, hs, ho⟩ := h.outermost
  have hs' : (w.calling global path).heap.scopes.get? global = some s :=
    (Heap.get?_enter_known h.knows _ _).trans hs
  rw [Scopes.root_of_get? (get?_callScope path h), Option.map_some, Option.getD_some,
    Scopes.root_of_get? hs', ho]
  rfl

end Calling

section Steps

variable {ev : Evaluator} {fuel steps : Nat} {scope : ScopeId} {w w' : World}

/-- What an evaluation ends with is no error value, so there is nothing left to settle. -/
theorem evalSteps_settle (form : Value) :
    (evalSteps ev fuel steps form scope >>= Run.settle) = evalSteps ev fuel steps form scope := by
  induction steps generalizing form scope with
  | zero => rfl
  | succ steps ih =>
    rw [evalSteps, bind_assoc]
    congr 1
    funext step
    cases step with
    | done v => cases v <;> rfl
    | tail form scope => exact ih form

theorem slurp_outcome {path c : String} (h : w.files.read path = .ok c) :
    (Native.call ev (fuel + 1) .slurp [.str path] scope).outcome w = some (.ok (.str c), w) := by
  have hread : (Run.readFile path).outcome w = some (.ok c, w) := by
    have hget : (get : Run World).outcome w = some (.ok w, w) := rfl
    rw [Run.readFile, outcome_bind_ok _ hget, h]
    rfl
  exact outcome_bind_ok _ hread

theorem str_outcome (a b c : String) :
    (Native.call ev (fuel + 1) .str [.str a, .str b, .str c] scope).outcome w =
      some (.ok (.str (a ++ b ++ c)), w) := by
  have htext : Value.printAll w.heap .display "" [.str a, .str b, .str c] = a ++ b ++ c := by
    have hstr : ∀ s, text w.heap .display maxFormDepth (.str s) = s.toList := fun _ => rfl
    simp [Value.printAll, joinTexts, hstr, String.append_assoc]
  exact congrArg (fun shown => some (Except.ok (Value.str shown), w)) htext

theorem readString_outcome (source : String) :
    (Native.call ev (fuel + 1) .readString [.str source] scope).outcome w =
      some ((Value.read source).map (·.getD .nil), w) := by
  have hread : Native.runReadString [.str source] = (Value.read source).map (·.getD .nil) := by
    change (Value.read source >>= fun v? => pure (v?.getD .nil)) = _
    cases Value.read source <;> rfl
  rw [Native.compute_outcome rfl rfl, hread]

theorem evalNative_outcome (form : Value) :
    (Native.call ev (fuel + 1) .eval [form] scope).outcome w =
      (ev form (w.heap.scopes.root scope)).outcome w :=
  rfl

/-- The forms of a sequence before the last one are evaluated for what they do. -/
theorem runSequence_cons (form : Value) {more : List Value} (h : more ≠ []) :
    SpecialForm.runSequence ev scope (form :: more) =
      (ev form scope >>= fun _ => SpecialForm.runSequence ev scope more) := by
  cases more with
  | nil => exact absurd rfl h
  | cons next more =>
    rw [SpecialForm.runSequence, discard_eq, bind_assoc]
    · simp only [pure_bind]
    · exact List.cons_ne_nil next more

end Steps

section Supervised

variable {s : Supervisor} {E : Nat → Evaluator} {fuel levels : Nat} {global : ScopeId} {w : World}
  {path c : String}

/-- The call goes on with the body of the function that loads files. -/
theorem loadingCall_outcome (hE : LayeredUnder s (fuel + 1) E) (hs : s.TakesSteps)
    (h : w.heap.LoadsFiles global) (path : String) :
    (E (levels + 2) (loadingCall path) global).outcome w =
      (evalStepsUnder s (E (levels + 1)) (fuel + 1) fuel loaderBody (w.callScope global path)).outcome
        (w.calling global path) := by
  obtain ⟨id, note, hname, hclosure⟩ := h.loader
  have hparts : InOrder (E (levels + 1) · global) [.sym "load-file", .str path] w
      [.fn id false note, .str path] w :=
    .cons (hE.symbol hs hname rfl) (.cons (hE.string hs path) .nil)
  rw [hE]
  exact evalStepsUnder_function hs rfl hname hclosure hparts

/-- In the body of that function the text of the file is read between the other words. -/
theorem reading_outcome (hE : LayeredUnder s (fuel + 1) E) (hs : s.Spares .eval)
    (h : w.heap.LoadsFiles global) (hfile : w.files.read path = .ok c) :
    (E (levels + 4) (ofList [.sym "read-string", wrappingCall])
      (w.callScope global path)).outcome (w.calling global path) =
      (ofExcept ((Value.read ("(do " ++ c ++ "\nnil)")).map (·.getD .nil)) >>= Run.settle).outcome
        (w.calling global path) := by
  obtain ⟨_, hslurp⟩ := lookup_callScope_native path h .slurp (by decide)
  obtain ⟨_, hstr⟩ := lookup_callScope_native path h .str (by decide)
  obtain ⟨_, hreader⟩ := lookup_callScope_native path h .readString (by decide)
  have hfile' : (w.calling global path).files.read path = .ok c := hfile
  have hpath : (E (levels + 1) (.sym "f") (w.callScope global path)).outcome
      (w.calling global path) = _ := hE.symbol hs.step (lookup_callScope_path path h) rfl
  have hslurped : (E (levels + 2) (ofList [.sym "slurp", .sym "f"])
      (w.callScope global path)).outcome (w.calling global path) =
        some (.ok (.str c), w.calling global path) := by
    refine (hE.native hs (by decide) (by simp [Native.behaviour]) rfl hslurp
      (.cons hpath .nil)).trans ?_
    exact outcome_bind_ok _ (slurp_outcome hfile')
  have hwhole : (E (levels + 3) wrappingCall (w.callScope global path)).outcome
      (w.calling global path) =
        some (.ok (.str ("(do " ++ c ++ "\nnil)")), w.calling global path) := by
    refine (hE.native hs (by decide) (by simp [Native.behaviour]) rfl hstr
      (.cons (hE.string hs.step _) (.cons hslurped (.cons (hE.string hs.step _) .nil)))).trans ?_
    exact outcome_bind_ok _ (str_outcome _ _ _)
  refine (hE.native hs (by decide) (by simp [Native.behaviour]) rfl hreader
    (.cons hwhole .nil)).trans ?_
  rw [outcome_bind, readString_outcome, outcome_bind, outcome_ofExcept]

/-- Where the text around a file cannot be read, loading the file fails with the error of the reader,
whatever happens where `eval` would run. -/
theorem loading_rejected (hE : LayeredUnder s (fuel + 2) E) (hs : s.Spares .eval)
    (h : w.heap.LoadsFiles global) (hfile : w.files.read path = .ok c) {fault : Fault}
    (hread : Value.read ("(do " ++ c ++ "\nnil)") = .error fault) :
    (E (levels + 5) (loadingCall path) global).outcome w =
      some (.error fault, w.calling global path) := by
  obtain ⟨_, heval⟩ := lookup_callScope_native path h .eval (by decide)
  have hreading : (E (levels + 4) (ofList [.sym "read-string", wrappingCall])
      (w.callScope global path)).outcome (w.calling global path) =
        some (.error fault, w.calling global path) := by
    rw [reading_outcome hE hs h hfile, hread]
    rfl
  rw [loadingCall_outcome hE hs.step h]
  exact evalStepsUnder_part_error hs.step [_] rfl rfl heval (by simp)
    (.cons (hE.symbol hs.step heval rfl) .nil) hreading

end Supervised

section Loading

variable {E : Nat → Evaluator} {fuel levels : Nat} {global : ScopeId} {w w' : World} {path c : String}
  {forms : List Value}

/-- Loading a file goes on with what has been read, in the global scope. -/
theorem loading_outcome (hE : Layered (fuel + 2) E) (h : w.heap.LoadsFiles global)
    (hfile : w.files.read path = .ok c)
    (hread : Value.read ("(do " ++ c ++ "\nnil)") = .ok (some (ofList (sym "do" :: forms)))) :
    (E (levels + 5) (loadingCall path) global).outcome w =
      (E (levels + 4) (ofList (sym "do" :: forms)) global).outcome (w.calling global path) := by
  obtain ⟨note, hname⟩ := lookup_callScope_native path h .eval (by decide)
  have hreading : (E (levels + 4) (ofList [.sym "read-string", wrappingCall])
      (w.callScope global path)).outcome (w.calling global path) =
        some (.ok (ofList (sym "do" :: forms)), w.calling global path) := by
    rw [reading_outcome hE.under (Supervisor.spares_idle .eval) h hfile, hread]
    rfl
  rw [loadingCall_outcome hE.under Supervisor.takesSteps_idle h, evalStepsUnder_idle, loaderBody]
  refine (evalSteps_native rfl hname (.cons (hE.symbol hname rfl) (.cons hreading .nil))).trans ?_
  rw [outcome_bind, evalNative_outcome, root_callScope path h, ← outcome_bind, hE, evalSteps_settle]

end Loading
end MiniLisp
