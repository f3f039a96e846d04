import MiniLisp.Proofs.GlobalScope
import MiniLisp.Proofs.Trampoline

namespace MiniLisp

open Value Run

/-- Whether what has been read defines a function or an expander, by a name that is not among these
and that the prelude's other definitions do without. -/
def definesFunction (kept : List String) : Except Fault (Option Value) → Bool
  | .ok (some (.list [.sym head, .sym name, .list [.sym "fn*", params, _] .nil] .nil)) =>
    (head == "def!" || head == "defmacro!") && (SpecialForm.params? params).isSome &&
      decide (name ∉ reservedNames) && decide (name ∉ kept)
  | _ => false

/-- The names of the natives and of the special forms. The prelude defines none of them. -/
def standardNames : List String :=
  Native.all.map Native.name ++ SpecialForm.all.map SpecialForm.name

namespace Session

variable {fuel : Nat} {scope : ScopeId} {source : String} {kept : List String}

theorem evalText_makes {form : Value} (hr : Value.read source = .ok (some form))
    (h : (MiniLisp.eval fuel form scope).Makes scope kept Clean) :
    (evalText fuel source scope).Makes scope kept (fun _ => True) := by
  simp only [evalText, hr, ofExcept_ok, pure_bind]
  exact .bind h fun _ _ => .pure trivial

theorem evalText_makes_function {cs : List Char} (hs : String.ofList cs = source)
    (h : definesFunction kept (ofTokens (Token.scan cs)) = true) :
    (evalText (fuel + 1) source scope).Makes scope kept (fun _ => True) := by
  rw [← read_of_tokens hs rfl] at h
  cases hr : Value.read source with
  | error fault =>
    rw [hr] at h
    cases h
  | ok form? =>
    rw [hr] at h
    unfold definesFunction at h
    split at h
    · next head name params body heq =>
      cases heq
      have hclean := clean_of_read hr
      simp only [clean_list, List.forall_mem_cons] at hclean
      simp only [Bool.and_eq_true, Bool.or_eq_true, beq_iff_eq, decide_eq_true_eq,
        Option.isSome_iff_exists] at h
      obtain ⟨⟨⟨hhead, names, hnames⟩, hname⟩, hkept⟩ := h
      refine evalText_makes hr (definition_makes hhead hname hkept ?_)
      exact function_makes hnames hclean.1.2.2.1.1.2.2.1
    · cases h

set_option maxRecDepth 8000 in
theorem evalText_makes_counter (hk : "*gensym-counter*" ∉ kept) :
    (evalText (fuel + 1) Prelude.gensymCounter scope).Makes scope kept (fun _ => True) := by
  have hread : Value.read Prelude.gensymCounter = .ok (some (ofList [.sym "def!",
      .sym "*gensym-counter*", ofList [.sym "atom", .int 0]])) := by
    refine read_of_tokens rfl ?_
    with_unfolding_all rfl
  refine evalText_makes hread (definition_makes (.inl rfl) (by decide) hk ?_)
  exact atom_makes 0 197

set_option maxRecDepth 8000 in
/-- What the prelude defines first, and what it defines after the loading of files, leaves that and
the standard names alone. -/
theorem prelude_makes_otherwise : ∀ source ∈ Prelude.all.eraseIdx 1,
    (evalText (fuel + 1) source scope).Makes scope ("load-file" :: standardNames)
      (fun _ => True) := by
  simp only [Prelude.all, List.eraseIdx, List.forall_mem_cons, List.not_mem_nil, false_implies,
    implies_true, and_true]
  refine ⟨?_, evalText_makes_counter (by decide +kernel), ?_, ?_, ?_, ?_, ?_, ?_, ?_⟩
  all_goals
    refine evalText_makes_function rfl ?_
    decide +kernel

set_option maxRecDepth 8000 in
theorem loadFile_makes :
    (evalText (fuel + 1) Prelude.loadFile scope).Makes scope standardNames (fun _ => True) := by
  refine evalText_makes_function rfl ?_
  decide +kernel

theorem prelude_makes :
    ∀ source ∈ Prelude.all,
      (evalText (fuel + 1) source scope).Makes scope standardNames (fun _ => True) := by
  intro source hsource
  have hsplit : source ∈ Prelude.negation :: Prelude.loadFile :: Prelude.all.drop 2 := hsource
  rcases List.mem_cons.mp hsplit with rfl | hsplit
  · exact (prelude_makes_otherwise _ (List.mem_cons_self ..)).mono fun _ => List.mem_cons_of_mem _
  · rcases List.mem_cons.mp hsplit with rfl | hlater
    · exact loadFile_makes
    · exact (prelude_makes_otherwise source (List.mem_cons_of_mem _ hlater)).mono fun _ =>
        List.mem_cons_of_mem _

theorem load_makes {sources : List String}
    (h : ∀ source ∈ sources, (evalText fuel source scope).Makes scope kept (fun _ => True)) :
    (load fuel scope sources).Makes scope kept (fun _ => True) := by
  induction sources with
  | nil => exact .pure trivial
  | cons source sources ih =>
    obtain ⟨hsource, hsources⟩ := List.forall_mem_cons.mp h
    rw [load, discard_eq]
    refine .bind (P := fun _ => True) ?_ fun _ _ => ih hsources
    exact .bind hsource.attempt fun _ _ => .pure trivial

/-- What natives, the empty list and the host's name have in common, all global bindings have before
the prelude. -/
theorem globalBindings_values {P : Value → Prop} (hn : ∀ op, P (.native op .nil))
    (hl : P (ofList [])) (hs : P (.str "rust")) : ∀ e ∈ globalBindings, P e.2 := by
  have hnatives : ∀ (ops : List Native) (entries : Entries String Value), (∀ e ∈ entries, P e.2) →
      ∀ e ∈ ops.foldl (fun es op => Entries.insert op.name (.native op .nil) es) entries, P e.2 := by
    intro ops
    induction ops with
    | nil => exact fun entries h => h
    | cons op ops ih => exact fun entries h => ih _ (Entries.insert_values h (hn op))
  refine Entries.insert_values (Entries.insert_values ?_ hs) hl
  exact hnatives Native.all [] (List.forall_mem_nil _)

set_option maxRecDepth 8000 in
theorem global_enter :
    (Heap.empty.enter none globalBindings).1.Global (Heap.empty.enter none globalBindings).2 where
  clean := Heap.Clean.empty.enter none (globalBindings_values (fun _ => .native .nil) (by simp) (.str _))
  joins := by
    intro i s name hs hname id note hfind
    have hplain : ∀ e ∈ globalBindings, e.2 ≠ .fn id true note :=
      globalBindings_values (P := (· ≠ .fn id true note)) (by simp) (by simp [ofList]) (by simp)
    have hi : i = 0 := by
      obtain ⟨hlt, -⟩ := Array.getElem?_eq_some_iff.mp hs
      exact Nat.lt_one_iff.mp hlt
    subst hi
    cases hs
    exact hplain _ (Entries.mem_of_find? hfind) rfl
  frame := by
    refine ⟨⟨globalBindings, none⟩, rfl, rfl, rfl, ?_⟩
    have hnone : (definitionNames.all fun name =>
        (Entries.find? name globalBindings).isNone) = true := by decide +kernel
    exact fun name hname => Option.isNone_iff_eq_none.mp (List.all_eq_true.mp hnone name hname)

/-- With any fuel at all a new global scope can be made, and it is clean. -/
theorem newGlobal_makes (fuel : Nat) (files : Files) (input : String) (clock : Int64) :
    ∃ scope w, (newGlobal (fuel + 1)).outcome (World.start files input clock) =
      some (.ok scope, w) ∧ w.heap.Global scope := by
  let w : World := { World.start files input clock with
    heap := (Heap.empty.enter none globalBindings).1 }
  have henter : (Run.enter none globalBindings).outcome (World.start files input clock) =
      some (.ok (Heap.empty.enter none globalBindings).2, w) := rfl
  obtain ⟨_, w', hload, -, hglobal, -⟩ := load_makes prelude_makes w global_enter
  refine ⟨_, w', ?_, hglobal⟩
  rw [newGlobal, outcome_bind_ok _ henter, outcome_bind_ok _ hload]
  rfl

theorem evalText_below {fuel' : Nat} (h : fuel ≤ fuel') (source : String) (scope : ScopeId) :
    (evalText fuel source scope).Below (evalText fuel' source scope) := by
  refine .bind (.refl _) fun form? => ?_
  cases form? with
  | none => exact .refl _
  | some form => exact .bind (evalWithin_below h maxEvalDepth form scope) fun _ => .refl _

theorem load_below {fuel' : Nat} (h : fuel ≤ fuel') (scope : ScopeId) (sources : List String) :
    (load fuel scope sources).Below (load fuel' scope sources) := by
  induction sources with
  | nil => exact .refl _
  | cons source sources ih =>
    rw [load, load, discard_eq, discard_eq]
    refine .bind (.bind (.attempt (evalText_below h source scope)) fun _ => .refl _) fun _ => ih

theorem newGlobal_below {fuel' : Nat} (h : fuel ≤ fuel') :
    (newGlobal fuel).Below (newGlobal fuel') :=
  .bind (.refl _) fun scope => .bind (load_below h scope _) fun _ => .refl _

/-- A new global scope is what loading the prelude makes of the natives. -/
theorem newGlobal_of_load {files : Files} {input : String} {clock : Int64} {w w' : World}
    (h : (newGlobal fuel).outcome (World.start files input clock) = some (.ok scope, w))
    (hload : (load (fuel + 1) (Heap.empty.enter none globalBindings).2 Prelude.all).outcome
      { World.start files input clock with heap := (Heap.empty.enter none globalBindings).1 } =
        some (.ok (), w')) :
    scope = (Heap.empty.enter none globalBindings).2 ∧ w = w' := by
  have henter : (Run.enter none globalBindings).outcome (World.start files input clock) =
      some (.ok (Heap.empty.enter none globalBindings).2,
        { World.start files input clock with heap := (Heap.empty.enter none globalBindings).1 }) := rfl
  have hends : (newGlobal (fuel + 1)).outcome (World.start files input clock) =
      some (.ok (Heap.empty.enter none globalBindings).2, w') := by
    rw [newGlobal, outcome_bind_ok _ henter, outcome_bind_ok _ hload]
    rfl
  rw [newGlobal_below (Nat.le_succ fuel) _ _ h, Option.some.injEq, Prod.mk.injEq,
    Except.ok.injEq] at hends
  exact hends

theorem newGlobal_global {files : Files} {input : String} {clock : Int64} {w : World}
    (h : (newGlobal fuel).outcome (World.start files input clock) = some (.ok scope, w)) :
    w.heap.Global scope := by
  obtain ⟨scope', w', hmade, hglobal⟩ := newGlobal_makes fuel files input clock
  have hsame := newGlobal_below (Nat.le_succ fuel) _ _ h
  rw [hmade] at hsame
  cases hsame
  exact hglobal

end Session
end MiniLisp
