import MiniLisp.Proofs.Endings
import MiniLisp.Proofs.Handling
import MiniLisp.Proofs.SessionScopes

namespace MiniLisp

open Value Run

/-- How many errors stand directly inside one another, from this value on. -/
def Value.wraps : Value → Nat
  | error _ payload => payload.wraps + 1
  | caught _ payload => payload.wraps + 1
  | _ => 0

/-- Where the standard names are as in a new global scope, they mean what they say. -/
theorem Heap.Standard.means {heap : Heap} {scope : ScopeId} (h : heap.Standard scope)
    (natives : List Native) (forms : List SpecialForm) : heap.Means scope natives forms where
  known := Heap.knows_of_lookup (h.native .add)
  native op _ := ⟨.nil, h.native op⟩
  form form _ := h.no_expander form

section Forms

variable {levels : Nat} {scope : ScopeId} {w w' : World} {name : String} {v : Value}

theorem Evaluates.definition {expr : Value}
    (hdef : ∀ id note, w.heap.scopes.lookup scope "def!" ≠ some (.fn id true note))
    (hexpr : Gives levels expr scope w v w') :
    Gives (levels + 1) (ofList [.sym "def!", .sym name, expr]) scope w v (w'.binding scope name v) :=
  of_done (Heap.expander?_of_lookup _ _ hdef) (hexpr.bind _ ⟨0, fun _ _ => rfl⟩) hexpr.settled

/-- A handler goes on where the failure has left off. -/
theorem Evaluates.handled {body handler : Value} {fault : Fault} {o : Ending Value}
    (htry : ∀ id note, w.heap.scopes.lookup scope "try*" ≠ some (.fn id true note))
    (hbody : Evaluates levels body scope w (some (.error fault, w')))
    (hhandler : Evaluates (levels + 1) handler (w'.newScope (some scope) [(name, fault.toCaught)])
      (w'.entered (some scope) [(name, fault.toCaught)]) o) :
    Evaluates (levels + 1)
      (ofList [.sym "try*", body, ofList [.sym "catch*", .sym name, handler]]) scope w o := by
  obtain ⟨least, hbody⟩ := hbody
  refine of_tail (Heap.expander?_of_lookup _ _ htry) ⟨least, fun fuel hfuel => ?_⟩ hhandler
  exact SpecialForm.runHandle_error name handler .nil (hbody fuel hfuel)

end Forms

namespace Session

/-- Throws again what `e` stands for, and lets `e` stand for what is caught. -/
def rethrow : String :=
  "(def! e (try* (throw e) (catch* e e)))"

set_option maxRecDepth 8000 in
theorem read_rethrow : Value.read rethrow = .ok (some (ofList [.sym "def!", .sym "e",
    ofList [.sym "try*", ofList [.sym "throw", .sym "e"],
      ofList [.sym "catch*", .sym "e", .sym "e"]]])) := by
  refine read_of_tokens rfl ?_
  with_unfolding_all rfl

theorem read_start : Value.read "(def! e 5)" =
    .ok (some (ofList [.sym "def!", .sym "e", .int 5])) := by
  refine read_of_tokens rfl ?_
  with_unfolding_all rfl

theorem read_name : Value.read "e" = .ok (some (.sym "e")) := by
  refine read_of_tokens rfl ?_
  with_unfolding_all rfl

/-- The scope is ready for throwing `e`, which stands for this value. -/
structure Ready (global : ScopeId) (w : World) (v : Value) : Prop where
  means : w.heap.Means global [.throw] [.define, .handle]
  bound : w.heap.scopes.lookup global "e" = some v
  settled : Run.settle v = pure v

variable {global : ScopeId} {w : World} {v : Value}

theorem evalText_outcome {source : String} {form : Value} {fuel : Nat} {w' : World}
    (hread : Value.read source = .ok (some form))
    (h : (eval fuel form global).outcome w = some (.ok v, w')) :
    (evalText fuel source global).outcome w = some (.ok (some v), w') := by
  simp only [evalText, hread, ofExcept_ok, pure_bind]
  exact outcome_bind_ok _ h

theorem evalText_of_gives {source : String} {form : Value} {w' : World}
    (hread : Value.read source = .ok (some form)) (h : Gives maxEvalDepth form global w v w') :
    ∃ fuel, (evalText fuel source global).outcome w = some (.ok (some v), w') := by
  obtain ⟨fuel, h⟩ := h
  exact ⟨fuel, evalText_outcome hread (h fuel (Nat.le_refl fuel))⟩

theorem ready_binding (h : w.heap.Means global [.throw] [.define, .handle])
    (hv : Run.settle v = pure v) : Ready global (w.binding global "e" v) v :=
  ⟨h.binding (by decide +kernel) global v, World.lookup_binding_self h.known "e" v, hv⟩

/-- What `e` stands for is thrown and caught, and then it stands in an error. -/
theorem Ready.rethrown (h : Ready global w v) : ∃ fuel w',
    (evalText fuel rethrow global).outcome w = some (.ok (some (.caught .user v)), w') ∧
      Ready global w' (.caught .user v) := by
  let bindings : Entries String Value := [("e", .caught .user v)]
  have hk := h.means.known
  obtain ⟨note, hname⟩ := h.means.native .throw (by decide)
  have hthrow : Evaluates 198 (ofList [.sym "throw", .sym "e"]) global w
      (some (.error ⟨.user, v⟩, w)) :=
    .compute_error .throw rfl rfl hname (.cons (.symbol h.bound h.settled) .nil) rfl rfl
  have hinner : (w.entered (some global) bindings).heap.scopes.lookup
      (w.newScope (some global) bindings) "e" = some (.caught .user v) :=
    (World.lookup_newScope hk bindings "e").trans rfl
  have hcaught : Gives 199 (ofList [.sym "try*", ofList [.sym "throw", .sym "e"],
      ofList [.sym "catch*", .sym "e", .sym "e"]]) global w (.caught .user v)
      (w.entered (some global) bindings) :=
    .handled (h.means.form .handle (by decide)) hthrow (.symbol hinner rfl)
  have hgives : Gives maxEvalDepth (ofList [.sym "def!", .sym "e", _]) global w (.caught .user v) _ :=
    .definition (h.means.form .define (by decide)) hcaught
  obtain ⟨fuel, htext⟩ := evalText_of_gives read_rethrow hgives
  have hmeans : (w.entered (some global) bindings).heap.Means global [.throw] [.define, .handle] :=
    h.means.transfer ((Heap.Extends.enter w.heap _ _).knows hk)
      fun name _ => World.lookup_entered hk _ _ name
  exact ⟨fuel, _, htext, ready_binding hmeans rfl⟩

/-- A new global scope is made ready by the definition of `e`. -/
theorem exists_ready : ∃ global w, Arises global w ∧ Ready global w (.int 5) := by
  obtain ⟨global, w, hmade, -⟩ := newGlobal_makes 0 Files.empty "" 0
  have hmeans := (newGlobal_standard hmade).means [.throw] [.define, .handle]
  have hgives : Gives maxEvalDepth (ofList [.sym "def!", .sym "e", .int 5]) global w (.int 5)
      (w.binding global "e" (.int 5)) :=
    .definition (hmeans.form .define (by decide)) (show Gives (198 + 1) _ _ _ _ _ from .int 5)
  obtain ⟨fuel, htext⟩ := evalText_of_gives read_start hgives
  exact ⟨global, _, .evaluate (.start hmade) htext, ready_binding hmeans rfl⟩

/-- After enough texts there is a value with so many errors inside one another. -/
theorem exists_wrapped (n : Nat) :
    ∃ global w v, Arises global w ∧ Ready global w v ∧ v.wraps = n := by
  induction n with
  | zero =>
    obtain ⟨global, w, hw, hready⟩ := exists_ready
    exact ⟨global, w, .int 5, hw, hready, rfl⟩
  | succ n ih =>
    obtain ⟨global, w, v, hw, hready, rfl⟩ := ih
    obtain ⟨fuel, w', htext, hready'⟩ := hready.rethrown
    exact ⟨global, w', .caught .user v, .evaluate hw htext, hready', rfl⟩

end Session
end MiniLisp
