import MiniLisp.Proofs.Endings
import MiniLisp.Proofs.Handling

namespace MiniLisp

open Value Run

namespace Session

variable {scope : ScopeId}

/-- The worlds that come about when texts are evaluated one after another in a new global scope, with
every step beginning in an allowed world. -/
inductive Reachable (allowed : World → Prop) : ScopeId → World → Prop
  | start {fuel files input clock scope w}
      (h : (newGlobal fuel).outcome (World.start files input clock) = some (.ok scope, w)) :
      Reachable allowed scope w
  | evaluate {fuel source scope w result w'} (before : Reachable allowed scope w)
      (h : (evalTextAllowed allowed fuel source scope).outcome w = some (result, w')) :
      Reachable allowed scope w'

theorem Reachable.clean {w : World} (h : Reachable (·.heap.NoJoinExpander) scope w) :
    w.heap.Clean := by
  induction h with
  | start h => exact (newGlobal_global h).clean
  | @evaluate fuel source scope w result w' before h ih =>
    have hkeeps := evalTextAllowed_keeps (fun _ _ => Run.diverge) fuel source scope w ih
    exact (hkeeps.2 result w' h).1

/-- A failure never becomes data. As long as no scope binds `cons` or `concat` to an expander, no
error value stands in a binding, a cell or the body of a function: not between the evaluations of
texts, and not where a step within one of them begins either, for what would take over there makes no
difference. The value of a text has no error value in it, nor has the description of its failure. -/
theorem errors_never_data {w : World} (h : Reachable (·.heap.NoJoinExpander) scope w) :
    w.heap.Clean ∧
    ∀ fuel source,
      (∀ other, (evalTextWatched (·.heap.NoJoinExpander) (·.heap.Clean) other fuel source
          scope).outcome w =
        (evalTextAllowed (·.heap.NoJoinExpander) fuel source scope).outcome w) ∧
      ∀ result w',
        (evalTextAllowed (·.heap.NoJoinExpander) fuel source scope).outcome w = some (result, w') →
        (evalText fuel source scope).outcome w = some (result, w') ∧ w'.heap.Clean ∧
        (∀ v, result = .ok (some v) → v.Clean) ∧
        ∀ fault, result = .error fault → fault.payload.Clean := by
  refine ⟨h.clean, fun fuel source => ⟨fun other => ?_, fun result w' hw => ?_⟩⟩
  · exact (evalTextAllowed_keeps other fuel source scope w h.clean).1
  · have hkeeps := evalTextAllowed_keeps (fun _ _ => Run.diverge) fuel source scope w h.clean
    obtain ⟨hw', hresult⟩ := hkeeps.2 result w' hw
    refine ⟨evalTextAllowed_below source scope w _ hw, hw', ?_, ?_⟩
    · rintro v rfl
      exact hresult v rfl
    · rintro fault rfl
      exact hresult

/-- Fills in a template in which nothing is unquoted. -/
def misused : Value :=
  ofList [.sym "quasiquote", ofList [ofList [.sym "unquote"]]]

/-- What is wrong with that. -/
def misuse : Fault :=
  (Cause.arity "unquote" (.exactly 1) 0).fault

/-- Keeps what is caught. -/
def keeping : Value :=
  ofList [.sym "def!", .sym "kept",
    ofList [.sym "try*", misused, ofList [.sym "catch*", .sym "e", .sym "e"]]]

/-- Evaluates as long as no expander goes by the names that templates call. -/
noncomputable abbrev evalJoining : Nat → Nat → Evaluator :=
  evalWatched (·.heap.NoJoinExpander) (fun _ => True) fun _ _ => Run.diverge

section Joining

variable {fuel levels : Nat} {w w' : World} {form v : Value}

theorem evalJoining_done (hj : w.heap.NoJoinExpander)
    (h : (evalStep (evalJoining (fuel + 1) levels) (fuel + 1) form scope).outcome w =
      some (.ok (.done v), w')) :
    (evalJoining (fuel + 1) (levels + 1) form scope).outcome w = (settle v).outcome w' :=
  (evalStepsUnder_watching _ fuel hj trivial).trans (outcome_bind_ok _ h)

theorem evalJoining_symbol {name : String} (hj : w.heap.NoJoinExpander)
    (h : w.heap.scopes.lookup scope name = some v) :
    (evalJoining (fuel + 1) (levels + 1) (.sym name) scope).outcome w = (settle v).outcome w :=
  evalJoining_done hj (evalStep_symbol h)

/-- The template becomes a form with an error value in it, and evaluating that form fails. -/
theorem evalJoining_misused (hj : w.heap.NoJoinExpander) (hs : w.heap.Standard scope) :
    (evalJoining (fuel + 2) (levels + 2) misused scope).outcome w = some (.error misuse, w) := by
  have hfilled : (evalStep (evalJoining (fuel + 2) (levels + 1)) (fuel + 2) misused scope).outcome w =
      some (.ok (.tail (ofList [.sym "cons", misuse.toValue, (ofList []).quoted]) scope), w) :=
    (evalStep_same (Heap.expander?_of_lookup _ _ (hs.no_expander .quasiquote))).trans rfl
  have hcons : (evalJoining (fuel + 2) (levels + 1) (.sym "cons") scope).outcome w =
      some (.ok (.native .cons .nil), w) := evalJoining_symbol hj (hs.native .cons)
  have herror : (evalJoining (fuel + 2) (levels + 1) misuse.toValue scope).outcome w =
      some (.error misuse, w) := evalJoining_done (v := misuse.toValue) hj rfl
  have hcall : (evalStep (evalJoining (fuel + 2) (levels + 1)) (fuel + 2)
      (ofList [.sym "cons", misuse.toValue, (ofList []).quoted]) scope).outcome w =
        some (.error misuse, w) := by
    rw [ofList, evalStep_same (hj.expander? (.inl rfl) _ _),
      evalExpanded_call _ (List.cons_ne_nil _ _) rfl]
    exact evalCall_error (.cons hcons .nil) herror
  refine (evalStepsUnder_watching _ (fuel + 1) hj trivial).trans ((outcome_bind_ok _ hfilled).trans ?_)
  exact (evalStepsUnder_watching _ fuel hj trivial).trans (outcome_bind_error _ hcall)

/-- The failure is caught, and what has been caught is kept. -/
theorem evalJoining_keeping (hj : w.heap.NoJoinExpander) (hs : w.heap.Standard scope) :
    ∃ w', (evalJoining (fuel + 2) (levels + 4) keeping scope).outcome w =
        some (.ok misuse.toCaught, w') ∧
      w'.heap.scopes.lookup scope "kept" = some misuse.toCaught := by
  let bindings : Entries String Value := [("e", misuse.toCaught)]
  have hinner : (w.entered (some scope) bindings).heap.NoJoinExpander :=
    hj.enter (some scope) (by simp [bindings, Fault.toCaught])
  have hbound : (w.entered (some scope) bindings).heap.scopes.lookup
      (w.newScope (some scope) bindings) "e" = some misuse.toCaught :=
    Scopes.lookup_enter w.heap.scopes (some scope) rfl
  have hcaught : (evalJoining (fuel + 2) (levels + 3) (ofList [.sym "try*", misused,
      ofList [.sym "catch*", .sym "e", .sym "e"]]) scope).outcome w =
        some (.ok misuse.toCaught, w.entered (some scope) bindings) := by
    have hstep : (evalStep (evalJoining (fuel + 2) (levels + 2)) (fuel + 2)
        (ofList [.sym "try*", misused, ofList [.sym "catch*", .sym "e", .sym "e"]]) scope).outcome w =
          some (.ok (.tail (.sym "e") (w.newScope (some scope) bindings)),
            w.entered (some scope) bindings) :=
      (evalStep_same (Heap.expander?_of_lookup _ _ (hs.no_expander .handle))).trans
        (SpecialForm.runHandle_error "e" _ .nil (evalJoining_misused hj hs))
    refine (evalStepsUnder_watching _ (fuel + 1) hj trivial).trans ((outcome_bind_ok _ hstep).trans ?_)
    refine (evalStepsUnder_watching _ fuel hinner trivial).trans ?_
    exact (outcome_bind_ok _ (evalStep_symbol hbound)).trans rfl
  have hknown : (w.entered (some scope) bindings).heap.Knows scope :=
    (Heap.Extends.enter w.heap _ _).knows (Heap.knows_of_lookup (hs.native .cons))
  refine ⟨(w.entered (some scope) bindings).binding scope "kept" misuse.toCaught, ?_,
    World.lookup_binding_self hknown _ _⟩
  refine (evalJoining_done (v := misuse.toCaught) hj ?_).trans rfl
  refine (evalStep_same (Heap.expander?_of_lookup _ _ (hs.no_expander .define))).trans ?_
  exact outcome_bind_ok _ hcaught

end Joining

set_option maxRecDepth 8000 in
theorem read_misused : Value.read "(quasiquote ((unquote)))" = .ok (some misused) := by
  refine read_of_tokens rfl ?_
  with_unfolding_all rfl

set_option maxRecDepth 8000 in
theorem read_keeping :
    Value.read "(def! kept (try* (quasiquote ((unquote))) (catch* e e)))" = .ok (some keeping) := by
  refine read_of_tokens rfl ?_
  with_unfolding_all rfl

theorem evalTextAllowed_read {source : String} {form : Value} {fuel : Nat} {w : World}
    (h : Value.read source = .ok (some form)) :
    (evalTextAllowed (·.heap.NoJoinExpander) fuel source scope).outcome w =
      (some <$> evalJoining fuel maxEvalDepth form scope).outcome w := by
  simp only [evalTextAllowed, evalTextWatched, h, ofExcept_ok, pure_bind]
  rfl

/-- A text fails, and after it another one keeps what is caught: neither failure becomes data. -/
theorem errors_never_data_kept :
    ∃ scope w w',
      (evalText 2 "(quasiquote ((unquote)))" scope).outcome w = some (.error misuse, w) ∧
      Reachable (·.heap.NoJoinExpander) scope w ∧
      (evalText 2 "(def! kept (try* (quasiquote ((unquote))) (catch* e e)))" scope).outcome w =
        some (.ok (some misuse.toCaught), w') ∧
      w'.heap.scopes.lookup scope "kept" = some misuse.toCaught ∧ w'.heap.Clean := by
  obtain ⟨scope, w, hmade, hglobal⟩ := newGlobal_makes 0 Files.empty "" 0
  have hstandard := newGlobal_standard hmade
  have hfails : (evalTextAllowed (·.heap.NoJoinExpander) 2 "(quasiquote ((unquote)))" scope).outcome w =
      some (.error misuse, w) := by
    rw [evalTextAllowed_read read_misused, map_eq_pure_bind]
    exact outcome_bind_error _ (evalJoining_misused hglobal.joins hstandard)
  obtain ⟨w', hkeeps, hkept⟩ :
      ∃ w', (evalJoining 2 maxEvalDepth keeping scope).outcome w = some (.ok misuse.toCaught, w') ∧
        w'.heap.scopes.lookup scope "kept" = some misuse.toCaught :=
    evalJoining_keeping hglobal.joins hstandard
  have hcaught : (evalTextAllowed (·.heap.NoJoinExpander) 2
      "(def! kept (try* (quasiquote ((unquote))) (catch* e e)))" scope).outcome w =
        some (.ok (some misuse.toCaught), w') := by
    rw [evalTextAllowed_read read_keeping, map_eq_pure_bind]
    exact outcome_bind_ok _ hkeeps
  have hreach : Reachable (·.heap.NoJoinExpander) scope w := .evaluate (.start hmade) hfails
  obtain ⟨-, hends⟩ := errors_never_data hreach
  obtain ⟨hsame, -⟩ := (hends 2 _).2 _ w hfails
  obtain ⟨hsame', hclean, -⟩ := (hends 2 _).2 _ w' hcaught
  exact ⟨scope, w, w', hsame, hreach, hsame', hkept, hclean⟩

end Session
end MiniLisp
