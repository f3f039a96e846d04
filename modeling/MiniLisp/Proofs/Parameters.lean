import MiniLisp.Proofs.Clean
import MiniLisp.Proofs.Stepping
import MiniLisp.Proofs.ScopeChain

namespace MiniLisp

/-- There is no mark for the rest, or a single one in front of the last name. -/
def WellMarked (names : List String) : Prop :=
  restMark ∉ names ∨
    ∃ fixed rest, names = fixed ++ [restMark, rest] ∧ restMark ∉ fixed ∧ rest ≠ restMark

/-- The form is a list or vector of symbols that can be parameters. -/
def Value.IsParams (v : Value) (names : List String) : Prop :=
  (∃ note, v = .list (names.map .sym) note ∨ v = .vec (names.map .sym) note) ∧ WellMarked names

namespace SpecialForm

/-- Counting marks and looking for the first one comes to the same as splitting there. -/
theorem validParams_iff {names : List String} : ValidParams names ↔ WellMarked names := by
  constructor
  · rintro (hnone | ⟨hone, hplace⟩)
    · exact .inl (List.count_eq_zero.mp hnone)
    · have hmem : restMark ∈ names := List.count_pos_iff.mp (hone ▸ Nat.one_pos)
      obtain ⟨fixed, behind, rfl, hfixed⟩ := List.eq_append_cons_of_mem hmem
      have hbehind : behind.length = 1 := by
        simp only [List.idxOf_append, hfixed, if_false, List.idxOf_cons_self, List.length_append,
          List.length_cons] at hplace
        omega
      obtain ⟨rest, rfl⟩ := List.length_eq_one_iff.mp hbehind
      refine .inr ⟨fixed, rest, rfl, hfixed, ?_⟩
      rintro rfl
      simp [List.count_append] at hone
  · rintro (hnone | ⟨fixed, rest, rfl, hfixed, hrest⟩)
    · exact .inl (List.count_eq_zero.mpr hnone)
    · refine .inr ⟨?_, ?_⟩
      · simp [List.count_append, List.count_eq_zero.mpr hfixed, hrest]
      · simp [List.idxOf_append, hfixed]

theorem mapM_symbolName? {items : List Value} {names : List String} :
    items.mapM symbolName? = some names ↔ items = names.map .sym := by
  induction items generalizing names with
  | nil => cases names <;> simp
  | cons item items ih =>
    have hcons : (item :: items).mapM symbolName? = some names ↔
        ∃ name, item = .sym name ∧ ∃ more, items = more.map .sym ∧ name :: more = names := by
      cases item <;> simp [List.mapM_cons, symbolName?, Option.bind_eq_some_iff, ih]
    rw [hcons]
    cases names with
    | nil => simp
    | cons name names => simp

theorem params?_iff {v : Value} {names : List String} :
    params? v = some names ↔ v.IsParams names := by
  have helements : ∀ items, v.elements? = some items ↔
      ∃ note, v = .list items note ∨ v = .vec items note := by
    intro items
    cases v <;> simp [Value.elements?]
  simp only [params?, Option.bind_eq_bind, Option.bind_eq_some_iff, Option.ite_none_right_eq_some,
    Option.some.injEq, helements, mapM_symbolName?, validParams_iff]
  constructor
  · rintro ⟨_, hv, _, rfl, hmarked, rfl⟩
    exact ⟨hv, hmarked⟩
  · rintro ⟨hv, hmarked⟩
    exact ⟨names.map .sym, hv, names, rfl, hmarked, rfl⟩

/-- A function is made if the parameters are right, and nothing but the failure happens if not. -/
structure MakesFunction {α : Type} (ending : Value → α) (params body : Value) (scope : ScopeId)
    (w : World) (run : Run α) : Prop where
  accepted : ∀ names, params.IsParams names →
    run.outcome w =
      some (.ok (ending (.fn (w.heap.newClosure ⟨names, body, scope⟩).2 false .nil)),
        { w with heap := (w.heap.newClosure ⟨names, body, scope⟩).1 })
  refused : (∀ names, ¬ params.IsParams names) →
    run.outcome w = some (.error ⟨.params, .str "Illegal binds list"⟩, w)

theorem run_function (ev : Evaluator) (fuel : Nat) (params body : Value) (scope : ScopeId)
    (w : World) :
    MakesFunction .done params body scope w (function.run ev fuel scope [params, body]) where
  accepted := by
    intro names hparams
    exact runFunction_made (params?_iff.mpr hparams) body scope w
  refused := by
    intro hno
    have hparams : params? params = none := by
      apply Option.eq_none_iff_forall_ne_some.mpr
      intro names h
      exact hno names (params?_iff.mp h)
    simp only [run, runFunction, hparams]
    rfl

theorem eval_function {scope : ScopeId} {w : World}
    (hfn : ∀ id note, w.heap.scopes.lookup scope "fn*" ≠ some (.fn id true note))
    (fuel levels : Nat) (params body note : Value) :
    MakesFunction id params body scope w
      (evalWithin (fuel + 1) (levels + 1) (.list [.sym "fn*", params, body] note) scope) := by
  let ev := evalWithin (fuel + 1) levels
  have hrun := run_function ev (fuel + 1) params body scope w
  have hstep : (evalStep ev (fuel + 1) (.list [.sym "fn*", params, body] note) scope).outcome w =
      (function.run ev (fuel + 1) scope [params, body]).outcome w :=
    evalStep_same (Heap.expander?_of_lookup _ _ hfn)
  constructor
  · intro names hparams
    exact (evalSteps_done (hstep.trans (hrun.accepted names hparams))).trans rfl
  · intro hno
    exact evalSteps_error (hstep.trans (hrun.refused hno))

end SpecialForm

section Binding

variable {names fixed : List String} {name rest : String} {bindings : Entries String Value}
  {args : List Value}

/-- The name for the rest is bound last of all. -/
theorem bindParams_rest (hfixed : restMark ∉ fixed) :
    bindParams bindings (fixed ++ [restMark, rest]) args =
      Entries.insert rest (.ofList (args.drop fixed.length)) (bindParams bindings fixed args) := by
  induction fixed generalizing bindings args with
  | nil => simp [bindParams]
  | cons p fixed ih =>
    have hp := Ne.symm (List.ne_of_not_mem_cons hfixed)
    rw [List.cons_append, bindParams_cons hp, ih (List.not_mem_of_not_mem_cons hfixed),
      bindParams_cons hp, List.length_cons, List.drop_tail]

theorem find?_bindParams_of_not_mem (hnames : restMark ∉ names) (h : name ∉ names) :
    Entries.find? name (bindParams bindings names args) = Entries.find? name bindings := by
  induction names generalizing bindings args with
  | nil => rfl
  | cons p names ih =>
    rw [bindParams_cons (Ne.symm (List.ne_of_not_mem_cons hnames)),
      ih (List.not_mem_of_not_mem_cons hnames) (List.not_mem_of_not_mem_cons h),
      Entries.find?_insert_ne (Ne.symm (List.ne_of_not_mem_cons h))]

/-- Of equal names the last one counts. -/
theorem find?_bindParams_last (hnames : restMark ∉ names) {i : Nat} (hi : names[i]? = some name)
    (hlast : name ∉ names.drop (i + 1)) :
    Entries.find? name (bindParams bindings names args) = some (args[i]?.getD .nil) := by
  induction names generalizing bindings args i with
  | nil => cases hi
  | cons p names ih =>
    have hnames' := List.not_mem_of_not_mem_cons hnames
    rw [bindParams_cons (Ne.symm (List.ne_of_not_mem_cons hnames))]
    cases i with
    | zero =>
      cases hi
      rw [find?_bindParams_of_not_mem hnames' hlast, Entries.find?_insert_self]
      cases args <;> rfl
    | succ i => rw [ih hnames' hi hlast, List.getElem?_tail]

theorem isSome_find?_bindParams (hnames : restMark ∉ names) :
    (Entries.find? name (bindParams bindings names args)).isSome ↔
      name ∈ names ∨ (Entries.find? name bindings).isSome := by
  induction names generalizing bindings args with
  | nil => simp [bindParams]
  | cons p names ih =>
    rw [bindParams_cons (Ne.symm (List.ne_of_not_mem_cons hnames)),
      ih (List.not_mem_of_not_mem_cons hnames)]
    by_cases hp : p = name
    · simp [hp, Entries.find?_insert_self]
    · simp [Entries.find?_insert_ne hp, Ne.symm hp]

end Binding

/-- What the parameters of a call have to stand for: a fixed one for the argument at its place, the
one for the rest for all arguments from the place of the mark on. -/
structure BindsParams (names : List String) (args : List Value) (bound? : String → Option Value) :
    Prop where
  fixed : ∀ i name, names[i]? = some name → restMark ∉ names.take (i + 1) →
    name ∉ names.drop (i + 1) → bound? name = some (args[i]?.getD .nil)
  rest : ∀ i name, names[i]? = some restMark → names[i + 1]? = some name →
    bound? name = some (.ofList (args.drop i))
  own : ∀ name, (bound? name).isSome ↔ name ∈ names ∧ name ≠ restMark

theorem bindsParams_fixed {names : List String} (hnames : restMark ∉ names) (args : List Value) :
    BindsParams names args (Entries.find? · (bindParams [] names args)) where
  fixed := by
    intro i name hi _ hlast
    exact find?_bindParams_last hnames hi hlast
  rest := by
    intro i name hi _
    exact absurd (List.mem_of_getElem? hi) hnames
  own := by
    intro name
    rw [isSome_find?_bindParams hnames]
    constructor
    · rintro (hmem | hfound)
      · exact ⟨hmem, fun heq => hnames (heq ▸ hmem)⟩
      · cases hfound
    · intro h
      exact .inl h.1

section Marked

variable {fixed : List String} {name rest : String} {i : Nat}

theorem lt_of_fixed (hbefore : restMark ∉ (fixed ++ [restMark, rest]).take (i + 1)) :
    i < fixed.length := by
  apply Nat.lt_of_not_le
  intro hge
  have hmark : ((fixed ++ [restMark, rest]).take (i + 1))[fixed.length]? = some restMark := by
    rw [List.getElem?_take_of_lt (Nat.lt_succ_of_le hge)]
    simp
  exact hbefore (List.mem_of_getElem? hmark)

theorem eq_length_of_mark (hfixed : restMark ∉ fixed) (hrest : rest ≠ restMark)
    (hi : (fixed ++ [restMark, rest])[i]? = some restMark) : i = fixed.length := by
  rcases Nat.lt_or_ge i fixed.length with hlt | hge
  · rw [List.getElem?_append_left hlt] at hi
    exact absurd (List.mem_of_getElem? hi) hfixed
  · obtain ⟨k, rfl⟩ := Nat.exists_eq_add_of_le hge
    rw [List.getElem?_append_right (Nat.le_add_right _ _), Nat.add_sub_cancel_left] at hi
    match k, hi with
    | 0, _ => rfl
    | 1, hi => exact absurd (Option.some.inj hi) hrest

theorem bindsParams_marked (hfixed : restMark ∉ fixed) (hrest : rest ≠ restMark)
    (args : List Value) :
    BindsParams (fixed ++ [restMark, rest]) args
      (Entries.find? · (bindParams [] (fixed ++ [restMark, rest]) args)) := by
  rw [bindParams_rest hfixed]
  constructor
  · intro i name hi hbefore hlast
    have hlt := lt_of_fixed hbefore
    rw [List.drop_append_of_le_length hlt, List.mem_append, not_or] at hlast
    rw [List.getElem?_append_left hlt] at hi
    have hne : rest ≠ name := by
      rintro rfl
      exact hlast.2 (by simp)
    rw [Entries.find?_insert_ne hne]
    exact find?_bindParams_last hfixed hi hlast.1
  · intro i name hi hnext
    cases eq_length_of_mark hfixed hrest hi
    rw [List.getElem?_append_right (Nat.le_add_right _ 1), Nat.add_sub_cancel_left] at hnext
    cases hnext
    exact Entries.find?_insert_self _ _ _
  · intro name
    by_cases hname : rest = name
    · subst hname
      simp [Entries.find?_insert_self, hrest]
    · rw [Entries.find?_insert_ne hname, isSome_find?_bindParams hfixed]
      constructor
      · rintro (hmem | hfound)
        · exact ⟨List.mem_append_left _ hmem, fun heq => hfixed (heq ▸ hmem)⟩
        · cases hfound
      · rintro ⟨hmem, hmark⟩
        exact .inl (by simpa [hmark, Ne.symm hname] using hmem)

end Marked

theorem bindsParams {names : List String} (h : WellMarked names) (args : List Value) :
    BindsParams names args (Entries.find? · (bindParams [] names args)) := by
  rcases h with hnone | ⟨fixed, rest, rfl, hfixed, hrest⟩
  · exact bindsParams_fixed hnone args
  · exact bindsParams_marked hfixed hrest args

namespace Heap

/-- The scope of a call has the names of the parameters, and all other names stand for what they stand
for in the scope around it. Nothing else is changed. -/
structure EntersCall (heap : Heap) (outer : ScopeId) (names : List String) (args : List Value)
    (scope : ScopeId) (heap' : Heap) : Prop where
  fresh : ¬ heap.Knows scope
  params : BindsParams names args (heap'.scopes.bound? · scope)
  inner : ∀ name ∈ names, name ≠ restMark →
    heap'.scopes.lookup scope name = heap'.scopes.bound? name scope ∧
      heap'.scopes.find? scope name = some scope
  others : ∀ name, ¬ (name ∈ names ∧ name ≠ restMark) →
    heap'.scopes.lookup scope name = heap.scopes.lookup outer name ∧
      heap'.scopes.find? scope name = heap.scopes.find? outer name
  kept : ∀ known, heap.Knows known → heap'.scopes.get? known = heap.scopes.get? known ∧
    ∀ name, heap'.scopes.lookup known name = heap.scopes.lookup known name ∧
      heap'.scopes.find? known name = heap.scopes.find? known name
  cells : heap'.cells = heap.cells
  closures : heap'.closures = heap.closures

theorem entersCall {heap : Heap} {outer : ScopeId} {names : List String} (h : WellMarked names)
    (hk : heap.Knows outer) (args : List Value) :
    heap.EntersCall outer names args (heap.enter (some outer) (bindParams [] names args)).2
      (heap.enter (some outer) (bindParams [] names args)).1 := by
  have hparams := bindsParams h args
  have hget := get?_enter_new hk (bindParams [] names args)
  have hbound : ∀ name, (heap.enter (some outer) (bindParams [] names args)).1.scopes.bound? name
      (heap.enter (some outer) (bindParams [] names args)).2 =
        Entries.find? name (bindParams [] names args) := by
    intro name
    rw [Scopes.bound?, Scopes.bindings_of_get? hget]
  refine ⟨?_, funext hbound ▸ hparams, ?_, ?_, ?_, rfl, rfl⟩
  · exact not_knows_entered heap _ _
  · intro name hmem hmark
    have hfound := (hparams.own name).mpr ⟨hmem, hmark⟩
    rw [hbound, Scopes.lookup_of_get? hget, Scopes.find?_of_get? hget, if_pos hfound,
      Option.or_of_isSome hfound]
    exact ⟨rfl, rfl⟩
  · intro name hother
    have hfound : ¬ (Entries.find? name (bindParams [] names args)).isSome :=
      fun h => hother ((hparams.own name).mp h)
    rw [Scopes.lookup_of_get? hget, Scopes.find?_of_get? hget, if_neg hfound,
      Option.not_isSome_iff_eq_none.mp hfound, Option.none_or, Option.bind_some, Option.bind_some,
      lookup_enter_known hk, find?_enter_known hk]
    exact ⟨rfl, rfl⟩
  · intro known hknown
    refine ⟨get?_enter_known hknown _ _, fun name => ⟨?_, ?_⟩⟩
    · exact lookup_enter_known hknown _ _ name
    · exact find?_enter_known hknown _ _ name

end Heap

/-- Making a function succeeds for exactly those parameters that are a list or vector of names, without
a mark for the rest or with a single one in front of the last name. A call of such a function, with any
arguments at all, binds the names by position in a scope of its own. -/
theorem parameters_checked_and_bound (params body : Value) (outer : ScopeId) (w : World) :
    (∀ ev fuel, SpecialForm.MakesFunction .done params body outer w
      (SpecialForm.function.run ev fuel outer [params, body])) ∧
    ((∀ id note, w.heap.scopes.lookup outer "fn*" ≠ some (.fn id true note)) →
      ∀ fuel levels note, SpecialForm.MakesFunction id params body outer w
        (evalWithin (fuel + 1) (levels + 1) (.list [.sym "fn*", params, body] note) outer)) ∧
    ∀ names, params.IsParams names → w.heap.Knows outer → ∀ args, ∃ scope heap,
      (Closure.enter ⟨names, body, outer⟩ args).outcome w =
        some (.ok scope, { w with heap := heap }) ∧
      w.heap.EntersCall outer names args scope heap := by
  refine ⟨fun ev fuel => SpecialForm.run_function ev fuel params body outer w, ?_, ?_⟩
  · intro hfn fuel levels note
    exact SpecialForm.eval_function hfn fuel levels params body note
  · intro names hparams hk args
    exact ⟨_, _, Run.outcome_enter _ _ w, Heap.entersCall hparams.2 hk args⟩

/-- One name twice, the second time for the rest, and a mark with two names behind it. -/
theorem parameters_checked_and_bound_twice :
    let names := ["a", "&", "a"]
    let refused : Value := .vec [.sym "&", .sym "a", .sym "b"] .nil
    let w : World := ⟨(Heap.empty.enter none []).1, [], "", ⟨[]⟩, 0⟩
    (.vec (names.map .sym) .nil : Value).IsParams names ∧ w.heap.Knows ⟨0⟩ ∧
      (∀ id note, w.heap.scopes.lookup ⟨0⟩ "fn*" ≠ some (.fn id true note)) ∧
      (∀ names, ¬ refused.IsParams names) ∧
      (evalWithin 1 1 (.list [.sym "fn*", refused, .nil] .nil) ⟨0⟩).outcome w =
        some (.error ⟨.params, .str "Illegal binds list"⟩, w) ∧
      ∃ scope heap, (Closure.enter ⟨names, .nil, ⟨0⟩⟩ [.int 1, .int 2, .int 3]).outcome w =
          some (.ok scope, { w with heap := heap }) ∧
        heap.scopes.bound? "a" scope = some (.ofList [.int 2, .int 3]) := by
  intro names refused w
  have hparams : (.vec (names.map .sym) .nil : Value).IsParams names :=
    SpecialForm.params?_iff.mp rfl
  have hk : w.heap.Knows ⟨0⟩ := Nat.one_pos
  have hfn : ∀ id note, w.heap.scopes.lookup ⟨0⟩ "fn*" ≠ some (.fn id true note) := by
    intro id note h
    rw [show w.heap.scopes.lookup ⟨0⟩ "fn*" = none from
      Scopes.lookup_enter_unbound Scopes.empty rfl] at h
    cases h
  have hrefused : ∀ names, ¬ refused.IsParams names := by
    intro names h
    have hnone : SpecialForm.params? refused = none := rfl
    rw [SpecialForm.params?_iff.mpr h] at hnone
    cases hnone
  obtain ⟨-, heval, -⟩ := parameters_checked_and_bound refused .nil ⟨0⟩ w
  obtain ⟨-, -, hcall⟩ := parameters_checked_and_bound (.vec (names.map .sym) .nil) .nil ⟨0⟩ w
  obtain ⟨scope, heap, henter, hscope⟩ := hcall names hparams hk [.int 1, .int 2, .int 3]
  exact ⟨hparams, hk, hfn, hrefused, (heval hfn 0 0 .nil).refused hrefused, scope, heap, henter,
    hscope.params.rest 1 "a" rfl rfl⟩

end MiniLisp
