import MiniLisp.Proofs.MatchingEvaluation

namespace MiniLisp

open Run

variable {α β γ : Type}

/-- The scope without the metadata of what is bound in it. -/
def Scope.bare (s : Scope) : Scope :=
  { s with bindings := s.bindings.map fun e => (e.1, e.2.bare) }

/-- The function without the metadata in its body. -/
def Closure.bare (c : Closure) : Closure :=
  { c with body := c.body.bare }

/-- The heaps differ in metadata only. -/
structure Heap.Similar (heap heap' : Heap) : Prop where
  scopes : heap.scopes.all.map Scope.bare = heap'.scopes.all.map Scope.bare
  cells : heap.cells.map Value.bare = heap'.cells.map Value.bare
  closures : heap.closures.map Closure.bare = heap'.closures.map Closure.bare

/-- The worlds differ in the metadata in their heaps only. -/
structure World.Similar (w w' : World) : Prop where
  heap : w.heap.Similar w'.heap
  input : w.input = w'.input
  output : w.output = w'.output
  files : w.files = w'.files
  clock : w.clock = w'.clock

/-- Both are values or both failures of the same kind, and they differ in metadata only. -/
inductive Result.Similar : Except Fault Value → Except Fault Value → Prop
  | ok {v v'} (h : v.bare = v'.bare) : Similar (.ok v) (.ok v')
  | error {f f'} (hk : f.kind = f'.kind) (h : f.payload.bare = f'.payload.bare) :
      Similar (.error f) (.error f')

/-- The result as it is printed. -/
def Result.print (heap : Heap) (style : Value.Style) : Except Fault Value → String
  | .ok v => v.print heap style
  | .error fault => fault.toValue.print heap style

namespace Pairing

/-- Each place stands for itself. -/
def identity : Pairing where
  pairs i j := i = j
  unique := by
    rintro i _ k _ rfl rfl
    exact Iff.rfl

theorem eq_of_identity {p : Pairing} (h : ∀ i j, identity.pairs i j → p.pairs i j) {i j : Nat}
    (hij : p.pairs i j) : i = j :=
  (p.unique hij (h j j rfl)).mpr rfl

variable {R : α → β → Prop} {f : α → γ} {g : β → γ} {xs : Array α} {ys : Array β}

theorem identity_links (h : xs.map f = ys.map g) (hR : ∀ x y, f x = g y → R x y) :
    identity.Links True (fun _ => none) R xs ys where
  found := by
    rintro i _ rfl
    have hsize : xs.size = ys.size := by simpa using congrArg Array.size h
    by_cases hi : i < xs.size
    · have hj : i < ys.size := hsize ▸ hi
      refine .inl ⟨xs[i], ys[i], Array.getElem?_eq_getElem hi, Array.getElem?_eq_getElem hj, hR _ _ ?_⟩
      have hget : (xs.map f)[i]? = (ys.map g)[i]? := by rw [h]
      simpa [hi, hj] using hget
    · exact .inr ⟨trivial, i - xs.size, by omega, by omega⟩
  keeps := by
    intro j y hy
    cases hy

theorem map_eq_of_links {p : Pairing} {ahead : Prop} {kept : Nat → Option β}
    (hp : ∀ i j, identity.pairs i j → p.pairs i j) (h : p.Links ahead kept R xs ys)
    (hR : ∀ x y, R x y → f x = g y) : xs.map f = ys.map g := by
  refine Array.ext_getElem? fun i => ?_
  rw [Array.getElem?_map, Array.getElem?_map]
  rcases (h.get (hp i i rfl)).split with ⟨hx, hy⟩ | ⟨x, y, hx, hy, hxy⟩
  · rw [hx, hy]
    rfl
  · rw [hx, hy, Option.map_some, Option.map_some, hR x y hxy]

end Pairing

namespace Matching

/-- Each place stands for itself, and metadata does not count. -/
def unannotated : Matching :=
  ⟨.identity, .identity, .identity, False⟩

end Matching

theorem zip_of_map_eq {f : α → γ} {g : β → γ} {xs : List α} {ys : List β} (h : xs.map f = ys.map g) :
    xs.length = ys.length ∧ ∀ x y, (x, y) ∈ xs.zip ys → f x = g y := by
  rw [← List.forall₂_eq_eq_eq, List.forall₂_map_left_iff, List.forall₂_map_right_iff,
    List.forall₂_iff_zip] at h
  exact ⟨h.1, fun _ _ => h.2⟩

theorem map_eq_of_zip {f : α → γ} {g : β → γ} {xs : List α} {ys : List β}
    (hlength : xs.length = ys.length) (h : ∀ x y, (x, y) ∈ xs.zip ys → f x = g y) :
    xs.map f = ys.map g := by
  rw [← List.forall₂_eq_eq_eq, List.forall₂_map_left_iff, List.forall₂_map_right_iff,
    List.forall₂_iff_zip]
  exact ⟨hlength, h _ _⟩

namespace Value

variable {ρ : Matching} {v v' : Value}

/-- Values that differ in metadata only match. -/
theorem matches_of_bare (h : v.bare = v'.bare) : Matches .unannotated v v' := by
  induction v using bare.induct generalizing v' with
  | case7 xs note ih =>
    cases v' <;> simp only [bare, reduceCtorEq] at h
    case list ys note' =>
      simp only [Value.list.injEq, and_true] at h
      obtain ⟨hlength, hitems⟩ := zip_of_map_eq h
      exact .list hlength (fun x y hxy => ih x (List.of_mem_zip hxy).1 (hitems x y hxy)) False.elim
  | case8 xs note ih =>
    cases v' <;> simp only [bare, reduceCtorEq] at h
    case vec ys note' =>
      simp only [Value.vec.injEq, and_true] at h
      obtain ⟨hlength, hitems⟩ := zip_of_map_eq h
      exact .vec hlength (fun x y hxy => ih x (List.of_mem_zip hxy).1 (hitems x y hxy)) False.elim
  | case9 es note ih =>
    cases v' <;> simp only [bare, reduceCtorEq] at h
    case map fs note' =>
      simp only [Value.map.injEq, and_true] at h
      obtain ⟨hlength, hentries⟩ := zip_of_map_eq h
      refine .map hlength (fun e f hef => (Prod.mk.inj (hentries e f hef)).1) (fun e f hef => ?_)
        False.elim
      exact ih e (List.of_mem_zip hef).1 (Prod.mk.inj (hentries e f hef)).2
  | case13 kind payload ih =>
    cases v' <;> simp only [bare, reduceCtorEq] at h
    case error kind' payload' =>
      simp only [Value.error.injEq] at h
      obtain ⟨rfl, h⟩ := h
      exact .error kind (ih h)
  | case14 kind payload ih =>
    cases v' <;> simp only [bare, reduceCtorEq] at h
    case caught kind' payload' =>
      simp only [Value.caught.injEq] at h
      obtain ⟨rfl, h⟩ := h
      exact .caught kind (ih h)
  | case10 op note =>
    cases v' <;> simp only [bare, reduceCtorEq] at h
    case native op' note' =>
      cases h
      exact .native op False.elim
  | case11 id expander note =>
    cases v' <;> simp only [bare, reduceCtorEq] at h
    case fn id' expander' note' =>
      cases h
      exact .fn expander rfl False.elim
  | case12 cell note =>
    cases v' <;> simp only [bare, reduceCtorEq] at h
    case atom cell' note' =>
      cases h
      exact .atom rfl False.elim
  | _ =>
    cases v' <;> simp only [bare, reduceCtorEq] at h
    all_goals first
      | exact .nil
      | (cases h; constructor)

/-- Values that match where each place stands for itself differ in metadata only. -/
theorem Matches.bare_eq (h : Matches ρ v v') (hρ : Matching.unannotated.Grows ρ) :
    v.bare = v'.bare := by
  induction h with
  | list length _ _ elements _ => simp only [bare, map_eq_of_zip length elements]
  | vec length _ _ elements _ => simp only [bare, map_eq_of_zip length elements]
  | map length keys _ _ values _ =>
    simp only [bare, Value.map.injEq, and_true]
    exact map_eq_of_zip length fun e f hef => Prod.ext (keys e f hef) (values e f hef)
  | fn expander place =>
    have hid := FnId.eq_iff_index.mpr (Pairing.eq_of_identity hρ.closures place)
    simp only [bare, hid]
  | atom place =>
    have hcell := CellId.eq_iff_index.mpr (Pairing.eq_of_identity hρ.cells place)
    simp only [bare, hcell]
  | error kind _ ih => simp only [bare, ih]
  | caught kind _ ih => simp only [bare, ih]
  | _ => simp only [bare]

end Value

section Contents

variable {ρ : Matching}

theorem entries_match_of_bare {es fs : Entries String Value}
    (h : (es.map fun e => (e.1, e.2.bare)) = fs.map fun e => (e.1, e.2.bare)) :
    Entries.Matches .unannotated es fs := by
  obtain ⟨hlength, hentries⟩ := zip_of_map_eq h
  refine List.forall₂_iff_zip.mpr ⟨hlength, fun {e f} hef => ?_⟩
  obtain ⟨hkey, hvalue⟩ := Prod.mk.inj (hentries e f hef)
  exact ⟨hkey, Value.matches_of_bare hvalue⟩

theorem Entries.Matches.bare_eq {es fs : Entries String Value} (h : Entries.Matches ρ es fs)
    (hρ : Matching.unannotated.Grows ρ) :
    (es.map fun e => (e.1, e.2.bare)) = fs.map fun e => (e.1, e.2.bare) := by
  obtain ⟨hlength, hentries⟩ := List.forall₂_iff_zip.mp h
  exact map_eq_of_zip hlength fun e f hef =>
    Prod.ext (hentries hef).1 ((hentries hef).2.bare_eq hρ)

theorem Scope.matches_of_bare (s s' : Scope) (h : s.bare = s'.bare) :
    s.Matches .unannotated s' := by
  obtain ⟨bindings, outer⟩ := s
  obtain ⟨bindings', outer'⟩ := s'
  obtain ⟨hbindings, rfl⟩ := Scope.mk.inj h
  refine ⟨entries_match_of_bare hbindings, ?_⟩
  cases outer with
  | none => exact .none
  | some o => exact .some rfl

theorem ScopeId.Matches.eq {s s' : ScopeId} (h : s.Matches ρ s')
    (hρ : Matching.unannotated.Grows ρ) : s = s' := by
  cases s
  cases s'
  exact congrArg ScopeId.mk (Pairing.eq_of_identity hρ.scopes h)

theorem Scope.Matches.bare_eq {s s' : Scope} (h : s.Matches ρ s')
    (hρ : Matching.unannotated.Grows ρ) : s.bare = s'.bare := by
  have houter : s.outer = s'.outer := by
    rcases h.outer.split with ⟨ho, ho'⟩ | ⟨o, o', ho, ho', hoo⟩
    · rw [ho, ho']
    · rw [ho, ho', hoo.eq hρ]
  rw [Scope.bare, Scope.bare, h.bindings.bare_eq hρ, houter]

theorem Closure.matches_of_bare (c c' : Closure) (h : c.bare = c'.bare) :
    c.Matches .unannotated c' := by
  obtain ⟨params, body, scope⟩ := c
  obtain ⟨params', body', scope'⟩ := c'
  obtain ⟨rfl, hbody, rfl⟩ := Closure.mk.inj h
  exact ⟨rfl, Value.matches_of_bare hbody, rfl⟩

theorem Closure.Matches.bare_eq {c c' : Closure} (h : c.Matches ρ c')
    (hρ : Matching.unannotated.Grows ρ) : c.bare = c'.bare := by
  rw [Closure.bare, Closure.bare, h.params, h.body.bare_eq hρ, h.scope.eq hρ]

/-- Nothing is kept apart, and places stand for themselves before anything is there. -/
def World.frame (w : World) : Frame :=
  ⟨True, fun _ => none, fun _ => none, fun _ => none, False, w.files, w.clock⟩

theorem World.Similar.matches {w w' : World} (h : w.Similar w') :
    w.Matches w.frame .unannotated w' where
  heap := ⟨Pairing.identity_links h.heap.scopes Scope.matches_of_bare,
    Pairing.identity_links h.heap.cells fun _ _ => Value.matches_of_bare,
    Pairing.identity_links h.heap.closures Closure.matches_of_bare⟩
  input := h.input
  silent := False.elim
  output := h.output
  files := ⟨rfl, h.files.symm⟩
  clock := ⟨rfl, h.clock.symm⟩

theorem World.Matches.similar {F : Frame} {w w' : World} (h : w.Matches F ρ w')
    (hρ : Matching.unannotated.Grows ρ) : w.Similar w' where
  heap := ⟨Pairing.map_eq_of_links hρ.scopes h.heap.scopes fun _ _ hss => hss.bare_eq hρ,
    Pairing.map_eq_of_links hρ.cells h.heap.cells fun _ _ hvv => hvv.bare_eq hρ,
    Pairing.map_eq_of_links hρ.closures h.heap.closures fun _ _ hcc => hcc.bare_eq hρ⟩
  input := h.input
  output := h.output
  files := h.files.1.trans h.files.2.symm
  clock := h.clock.1.trans h.clock.2.symm

theorem Result.Matches.similar {r r' : Except Fault Value}
    (h : Result.Matches ρ (Value.Matches ρ) r r') (hρ : Matching.unannotated.Grows ρ) :
    Result.Similar r r' := by
  cases h with
  | ok h => exact .ok (h.bare_eq hρ)
  | error h => exact .error h.kind (h.payload.bare_eq hρ)

theorem Result.Matches.print_eq {F : Frame} {heap heap' : Heap} {r r' : Except Fault Value}
    (h : Result.Matches ρ (Value.Matches ρ) r r') (hheap : heap.Matches F ρ heap')
    (style : Value.Style) : Result.print heap style r = Result.print heap' style r' := by
  cases h with
  | ok h => exact hheap.print h style
  | error h => exact hheap.print h.toValue style

end Contents

/-- What an evaluation comes to where the native never ends, it comes to anyway. -/
theorem Supervisor.below_replacing (op : Native) :
    (replacing op fun _ _ => Run.diverge).Below idle where
  floor _ _ := .refl _
  step _ _ _ _ h := h
  native := by
    intro ev ev' _ op' args scope a b h
    simp only [replacing]
    split
    · exact .diverge _
    · exact h

/-- An evaluation that ends without having run the native that hands out metadata ends in the same way,
up to metadata, when the form and the heap carry other metadata: what is printed on the way is the
same, and so is the result when it is printed. -/
theorem metadata_is_orthogonal {fuel levels : Nat} {form form' : Value} {scope : ScopeId}
    {w w' w₁ : World} {result : Except Fault Value} (hform : form.bare = form'.bare)
    (hw : w.Similar w') (hnever : NeverRuns .metadata fuel levels form scope w)
    (hend : (evalWithin fuel levels form scope).outcome w = some (result, w₁)) :
    ∃ result' w₁', (evalWithin fuel levels form' scope).outcome w' = some (result', w₁') ∧
      Result.Similar result result' ∧ w₁.Similar w₁' ∧
      ∀ style, Result.print w₁.heap style result = Result.print w₁'.heap style result' := by
  -- Both evaluations are compared where asking for metadata never ends.
  have hguarded := (hnever fun _ _ => Run.diverge).trans hend
  have hscope : scope.Matches .unannotated scope := rfl
  have hends := evalUnder_matches Supervisor.repeats_replacing_metadata fuel levels .refl
    (Value.matches_of_bare hform) hscope _ .refl w w' hw.matches
  rw [hguarded] at hends
  obtain ⟨σ, result', w₁', hend', hσ, hworld, hresult⟩ := hends.right
  refine ⟨result', w₁', ?_, hresult.similar hσ, hworld.similar hσ, hresult.print_eq hworld.heap⟩
  have hbelow := evalUnder_below (Supervisor.below_replacing .metadata) (Nat.le_refl fuel) levels
  rw [evalUnder_idle] at hbelow
  exact hbelow form' scope w' _ hend'

/-- A call of `deref` on the first atom, where all that can carry metadata carries this. -/
def firstCellForm (note : Value) : Value :=
  .list [.native .deref note, .atom ⟨0⟩ note] note

/-- A world with one atom, which holds a native that carries this metadata. -/
def oneCellWorld (note : Value) : World :=
  { World.start Files.empty "" 0 with heap := (Heap.empty.newCell (.native .count note)).1 }

theorem evalUnder_firstCellForm {s : Supervisor} (hs : ∀ form scope run, s.step form scope run = run)
    (hn : ∀ ev args scope run, s.native ev .deref args scope run = run) (note note' : Value) :
    (evalUnder s 1 2 (firstCellForm note) ⟨0⟩).outcome (oneCellWorld note') =
      some (.ok (.native .count note'), oneCellWorld note') := by
  have hhead : (evalUnder s 1 1 (.native .deref note) ⟨0⟩).outcome (oneCellWorld note') =
      some (.ok (.native .deref note), oneCellWorld note') := by
    simp only [evalUnder, evalStepsUnder, hs]
    refine (outcome_bind_ok _ (a := .done (.native .deref note)) ?_).trans rfl
    exact (outcome_bind_ok _ (expand_same rfl)).trans rfl
  have harg : (evalUnder s 1 1 (.atom ⟨0⟩ note) ⟨0⟩).outcome (oneCellWorld note') =
      some (.ok (.atom ⟨0⟩ note), oneCellWorld note') := by
    simp only [evalUnder, evalStepsUnder, hs]
    refine (outcome_bind_ok _ (a := .done (.atom ⟨0⟩ note)) ?_).trans rfl
    exact (outcome_bind_ok _ (expand_same rfl)).trans rfl
  have hparts : InOrder (evalUnder s 1 1 · ⟨0⟩) [.native .deref note, .atom ⟨0⟩ note]
      (oneCellWorld note') [.native .deref note, .atom ⟨0⟩ note] (oneCellWorld note') :=
    .cons hhead (.cons harg .nil)
  have hcall : (Native.callUnder s (evalUnder s 1 1) 1 .deref [.atom ⟨0⟩ note] ⟨0⟩).outcome
      (oneCellWorld note') = some (.ok (.native .count note'), oneCellWorld note') := by
    simp only [Native.callUnder, hn]
    rfl
  rw [evalUnder]
  simp only [evalStepsUnder, hs]
  refine (outcome_bind_ok _ (a := .done (.native .count note')) ?_).trans rfl
  refine (outcome_bind_ok _ (expand_same rfl)).trans ?_
  exact (outcome_bind_ok _ hparts.mapM).trans ((outcome_bind_ok _ hcall).trans rfl)

theorem metadata_is_orthogonal_deref :
    NeverRuns .metadata 1 2 (firstCellForm (.str "a")) ⟨0⟩ (oneCellWorld (.str "b")) ∧
    ∃ result' w₁', (evalWithin 1 2 (firstCellForm .nil) ⟨0⟩).outcome (oneCellWorld .nil) =
        some (result', w₁') ∧
      Result.Similar (.ok (.native .count (.str "b"))) result' ∧
      (oneCellWorld (.str "b")).Similar w₁' ∧
      ∀ style, Result.print (oneCellWorld (.str "b")).heap style (.ok (.native .count (.str "b"))) =
        Result.print w₁'.heap style result' := by
  have hform : (firstCellForm (.str "a")).bare = (firstCellForm .nil).bare := by
    simp [firstCellForm, Value.bare]
  have hw : (oneCellWorld (.str "b")).Similar (oneCellWorld .nil) :=
    ⟨⟨rfl, by simp [oneCellWorld, Heap.newCell, Heap.empty, World.start, Value.bare], rfl⟩,
      rfl, rfl, rfl, rfl⟩
  have hend := evalUnder_firstCellForm (s := .idle) (fun _ _ _ => rfl) (fun _ _ _ _ => rfl)
    (.str "a") (.str "b")
  rw [evalUnder_idle] at hend
  have hnever : NeverRuns .metadata 1 2 (firstCellForm (.str "a")) ⟨0⟩ (oneCellWorld (.str "b")) :=
    fun other => (evalUnder_firstCellForm (s := .replacing .metadata other) (fun _ _ _ => rfl)
      (fun _ _ _ _ => rfl) (.str "a") (.str "b")).trans hend.symm
  exact ⟨hnever, metadata_is_orthogonal hform hw hnever hend⟩

end MiniLisp
