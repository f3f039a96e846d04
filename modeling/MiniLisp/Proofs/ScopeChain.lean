import MiniLisp.Heap
import MiniLisp.Proofs.Entries

namespace MiniLisp

namespace Scopes

/-- The scopes met on the way outwards, from the first one to the outermost one. -/
inductive Path (scopes : Scopes) : ScopeId → List ScopeId → ScopeId → Prop
  | outermost {id s} (found : scopes.get? id = some s) (link : s.outer = none) :
      Path scopes id [id] id
  | inside {id s outer path last} (found : scopes.get? id = some s) (link : s.outer = some outer)
      (rest : Path scopes outer path last) : Path scopes id (id :: path) last

variable {scopes : Scopes} {id : ScopeId} {s : Scope}

/-- The bindings that the scope itself has. -/
def bindings (scopes : Scopes) (id : ScopeId) : Entries String Value :=
  match scopes.get? id with
  | some s => s.bindings
  | none => []

/-- What the scope itself binds the name to. -/
def bound? (scopes : Scopes) (name : String) (id : ScopeId) : Option Value :=
  Entries.find? name (scopes.bindings id)

theorem bindings_of_get? (h : scopes.get? id = some s) : scopes.bindings id = s.bindings := by
  rw [bindings, h]

theorem lookup_of_get? (h : scopes.get? id = some s) (name : String) :
    scopes.lookup id name =
      (Entries.find? name s.bindings).or (s.outer.bind fun outer => scopes.lookup outer name) := by
  rw [lookup]
  split
  · next hnone =>
    rw [h] at hnone
    cases hnone
  · next s' hsome =>
    rw [h] at hsome
    cases hsome
    split
    · next v hv => rw [hv, Option.some_or]
    · next hv =>
      rw [hv, Option.none_or]
      split
      · next ho => rw [ho, Option.bind_none]
      · next o ho => simp only [ho, Option.bind_some]

theorem find?_of_get? (h : scopes.get? id = some s) (name : String) :
    scopes.find? id name =
      if (Entries.find? name s.bindings).isSome then some id
      else s.outer.bind fun outer => scopes.find? outer name := by
  rw [find?]
  split
  · next hnone =>
    rw [h] at hnone
    cases hnone
  · next s' hsome =>
    rw [h] at hsome
    cases hsome
    split
    · rfl
    · split
      · next ho => rw [ho, Option.bind_none]
      · next o ho => simp only [ho, Option.bind_some]

theorem root_of_get? (h : scopes.get? id = some s) :
    scopes.root id = (s.outer.map scopes.root).getD id := by
  rw [root]
  split
  · next hnone =>
    rw [h] at hnone
    cases hnone
  · next s' hsome =>
    rw [h] at hsome
    cases hsome
    split
    · next ho => rw [ho, Option.map_none, Option.getD_none]
    · next o ho => simp only [ho, Option.map_some, Option.getD_some]

theorem visible_of_get? (h : scopes.get? id = some s) :
    scopes.visible id =
      (s.outer.map fun outer => Entries.overlay (scopes.visible outer) s.bindings).getD
        s.bindings := by
  rw [visible]
  split
  · next hnone =>
    rw [h] at hnone
    cases hnone
  · next s' hsome =>
    rw [h] at hsome
    cases hsome
    split
    · next ho => rw [ho, Option.map_none, Option.getD_none]
    · next o ho => simp only [ho, Option.map_some, Option.getD_some]

namespace Path

variable {path : List ScopeId} {last : ScopeId}

theorem root (h : scopes.Path id path last) : scopes.root id = last := by
  induction h with
  | outermost found link => rw [root_of_get? found, link, Option.map_none, Option.getD_none]
  | inside found link rest ih => rw [root_of_get? found, link, Option.map_some, Option.getD_some, ih]

theorem lookup (h : scopes.Path id path last) (name : String) :
    scopes.lookup id name = path.findSome? (scopes.bound? name) := by
  induction h with
  | outermost found link =>
    rw [lookup_of_get? found, link, List.findSome?_cons, bound?, bindings_of_get? found]
    cases Entries.find? name _ <;> rfl
  | inside found link rest ih =>
    rw [lookup_of_get? found, link, Option.bind_some, ih, List.findSome?_cons, bound?,
      bindings_of_get? found]
    cases Entries.find? name _ <;> rfl

theorem find? (h : scopes.Path id path last) (name : String) :
    scopes.find? id name = path.find? fun i => (scopes.bound? name i).isSome := by
  induction h with
  | outermost found link =>
    rw [find?_of_get? found, link, List.find?_cons, bound?, bindings_of_get? found]
    cases Entries.find? name _ <;> rfl
  | inside found link rest ih =>
    rw [find?_of_get? found, link, Option.bind_some, ih, List.find?_cons, bound?,
      bindings_of_get? found]
    cases Entries.find? name _ <;> rfl

theorem ne_nil (h : scopes.Path id path last) : path ≠ [] := by
  cases h <;> exact List.cons_ne_nil _ _

theorem visible (h : scopes.Path id path last) :
    scopes.visible id =
      path.dropLast.foldr (fun i outer => Entries.overlay outer (scopes.bindings i))
        (scopes.bindings last) := by
  induction h with
  | outermost found link =>
    rw [visible_of_get? found, link, bindings_of_get? found]
    rfl
  | inside found link rest ih =>
    rw [visible_of_get? found, link, Option.map_some, Option.getD_some, ih,
      List.dropLast_cons_of_ne_nil rest.ne_nil, List.foldr_cons, bindings_of_get? found]

end Path

/-- All that can be asked of a scope is answered along this path. -/
structure Answers (scopes : Scopes) (id : ScopeId) (path : List ScopeId) (last : ScopeId) : Prop where
  root : scopes.root id = last
  find? : ∀ name, scopes.find? id name = path.find? fun i => (scopes.bound? name i).isSome
  lookup : ∀ name, scopes.lookup id name = path.findSome? (scopes.bound? name)
  resolve : ∀ name, scopes.resolve id name =
    match path.findSome? (scopes.bound? name) with
    | some v => .ok v
    | none => (Cause.unbound name).raise
  visible : scopes.visible id =
    path.dropLast.foldr (fun i outer => Entries.overlay outer (scopes.bindings i))
      (scopes.bindings last)

theorem Path.answers {path : List ScopeId} {last : ScopeId} (h : scopes.Path id path last) :
    scopes.Answers id path last where
  root := h.root
  find? := h.find?
  lookup := h.lookup
  resolve name := by
    rw [← h.lookup name]
    rfl
  visible := h.visible

end Scopes

namespace Heap

variable {heap heap' heap'' : Heap} {scope outer global : ScopeId} {s : Scope}

def scopeCount (heap : Heap) : Nat :=
  heap.scopes.all.size

/-- The scope has been entered at some time. -/
def Knows (heap : Heap) (scope : ScopeId) : Prop :=
  scope.index < heap.scopeCount

theorem knows_iff : heap.Knows scope ↔ ∃ s, heap.scopes.get? scope = some s := by
  rw [Knows, scopeCount, Scopes.get?]
  constructor
  · intro h
    exact ⟨_, Array.getElem?_eq_getElem h⟩
  · rintro ⟨s, h⟩
    exact (Array.getElem?_eq_some_iff.mp h).1

theorem root_le (scopes : Scopes) (id : ScopeId) : (scopes.root id).index ≤ id.index := by
  fun_induction Scopes.root scopes id with
  | case1 => exact Nat.le_refl _
  | case2 => exact Nat.le_refl _
  | case3 id s hs o ho hlt ih => omega

theorem knows_root (h : heap.Knows scope) : heap.Knows (heap.scopes.root scope) :=
  Nat.lt_of_le_of_lt (root_le heap.scopes scope) h

@[simp]
theorem scopeCount_enter (heap : Heap) (outer : Option ScopeId) (bindings : Entries String Value) :
    (heap.enter outer bindings).1.scopeCount = heap.scopeCount + 1 := by
  simp [enter, scopeCount, Scopes.enter]

@[simp]
theorem scopeCount_bind (heap : Heap) (scope : ScopeId) (name : String) (v : Value) :
    (heap.bind scope name v).scopeCount = heap.scopeCount := by
  simp [bind, scopeCount, Scopes.set]

/-- The new scope is the first one after all others. -/
@[simp]
theorem index_enter (heap : Heap) (outer : Option ScopeId) (bindings : Entries String Value) :
    (heap.enter outer bindings).2.index = heap.scopeCount :=
  rfl

theorem knows_entered (heap : Heap) (outer : Option ScopeId) (bindings : Entries String Value) :
    (heap.enter outer bindings).1.Knows (heap.enter outer bindings).2 := by
  rw [Knows, scopeCount_enter, index_enter]
  exact Nat.lt_succ_self _

/-- A new scope is not one of those that were there. -/
theorem not_knows_entered (heap : Heap) (outer : Option ScopeId) (bindings : Entries String Value) :
    ¬ heap.Knows (heap.enter outer bindings).2 := by
  rw [Knows, index_enter]
  exact Nat.lt_irrefl _

theorem get?_enter_known (h : heap.Knows scope) (outer : Option ScopeId)
    (bindings : Entries String Value) :
    (heap.enter outer bindings).1.scopes.get? scope = heap.scopes.get? scope := by
  simp only [enter, Scopes.enter, Scopes.get?]
  exact Array.getElem?_push_lt h ▸ (Array.getElem?_eq_getElem h).symm

/-- A new scope changes nothing for the scopes that were there. -/
theorem lookup_enter_known (h : heap.Knows scope) (outer : Option ScopeId)
    (bindings : Entries String Value) (name : String) :
    (heap.enter outer bindings).1.scopes.lookup scope name = heap.scopes.lookup scope name := by
  fun_induction Scopes.lookup heap.scopes scope name with
  | case1 scope hs =>
    obtain ⟨s, hsome⟩ := knows_iff.mp h
    rw [hs] at hsome
    cases hsome
  | case2 scope s hs v hv =>
    rw [Scopes.lookup_of_get? ((get?_enter_known h _ _).trans hs), hv, Option.some_or]
  | case3 scope s hs hv ho =>
    rw [Scopes.lookup_of_get? ((get?_enter_known h _ _).trans hs), hv, ho]
    rfl
  | case4 scope s hs hv o ho hlt ih =>
    have hknown : heap.Knows o := Nat.lt_trans hlt h
    rw [Scopes.lookup_of_get? ((get?_enter_known h _ _).trans hs), hv, ho, Option.none_or,
      Option.bind_some, ih hknown]

theorem find?_enter_known (h : heap.Knows scope) (outer : Option ScopeId)
    (bindings : Entries String Value) (name : String) :
    (heap.enter outer bindings).1.scopes.find? scope name = heap.scopes.find? scope name := by
  fun_induction Scopes.find? heap.scopes scope name with
  | case1 scope hs =>
    obtain ⟨s, hsome⟩ := knows_iff.mp h
    rw [hs] at hsome
    cases hsome
  | case2 scope s hs hv =>
    rw [Scopes.find?_of_get? ((get?_enter_known h _ _).trans hs), if_pos hv]
  | case3 scope s hs hv ho =>
    rw [Scopes.find?_of_get? ((get?_enter_known h _ _).trans hs), if_neg hv, ho]
    rfl
  | case4 scope s hs hv o ho hlt ih =>
    have hknown : heap.Knows o := Nat.lt_trans hlt h
    rw [Scopes.find?_of_get? ((get?_enter_known h _ _).trans hs), if_neg hv, ho, Option.bind_some,
      ih hknown]

theorem get?_enter_new (h : heap.Knows outer) (bindings : Entries String Value) :
    (heap.enter (some outer) bindings).1.scopes.get? (heap.enter (some outer) bindings).2 =
      some ⟨bindings, some outer⟩ := by
  have hknown : outer.index < heap.scopes.all.size := h
  simp [enter, Scopes.enter, Scopes.get?, hknown]

theorem get?_bind (heap : Heap) (scope other : ScopeId) (name : String) (v : Value) :
    (heap.bind scope name v).scopes.get? other =
      if other = scope then
        (heap.scopes.get? other).map fun s => { s with bindings := Entries.insert name v s.bindings }
      else heap.scopes.get? other := by
  simp only [bind, Scopes.set, Scopes.get?, Array.getElem?_modify]
  by_cases h : other = scope
  · rw [if_pos h, if_pos (by rw [h])]
  · have hindex : ¬ scope.index = other.index := by
      intro heq
      cases scope
      cases other
      exact h (congrArg ScopeId.mk heq.symm)
    rw [if_neg h, if_neg hindex]

/-- A name that is bound in a scope just entered might as well have been there from the start. -/
theorem bind_enter (heap : Heap) (outer : Option ScopeId) (name : String) (v : Value) :
    (heap.enter outer []).1.bind (heap.enter outer []).2 name v =
      (heap.enter outer [(name, v)]).1 := by
  simp only [enter, bind, Scopes.enter, Scopes.set, mk.injEq, Scopes.mk.injEq, and_true]
  apply Array.ext_getElem?
  intro i
  rw [Array.getElem?_modify, Array.getElem?_push, Array.getElem?_push]
  by_cases hi : i = heap.scopes.all.size
  · rw [if_pos hi.symm, if_pos hi, if_pos hi]
    rfl
  · rw [if_neg fun h => hi h.symm, if_neg hi, if_neg hi]

/-- Every scope of the first heap is one of the second heap, inside the same scope as before, and
still binds all the names that it bound. -/
def Extends (heap heap' : Heap) : Prop :=
  ∀ scope s, heap.scopes.get? scope = some s →
    ∃ s', heap'.scopes.get? scope = some s' ∧ s'.outer = s.outer ∧
      ∀ name, (Entries.find? name s.bindings).isSome → (Entries.find? name s'.bindings).isSome

namespace Extends

@[refl]
theorem refl (heap : Heap) : heap.Extends heap :=
  fun _ s hs => ⟨s, hs, rfl, fun _ hname => hname⟩

theorem trans (h : heap.Extends heap') (h' : heap'.Extends heap'') : heap.Extends heap'' := by
  intro scope s hs
  obtain ⟨s', hs', houter', hnames'⟩ := h scope s hs
  obtain ⟨s'', hs'', houter'', hnames''⟩ := h' scope s' hs'
  exact ⟨s'', hs'', houter''.trans houter', fun name hname => hnames'' name (hnames' name hname)⟩

theorem knows (h : heap.Extends heap') (hk : heap.Knows scope) : heap'.Knows scope := by
  obtain ⟨s, hs⟩ := knows_iff.mp hk
  obtain ⟨s', hs', -⟩ := h scope s hs
  exact knows_iff.mpr ⟨s', hs'⟩

theorem enter (heap : Heap) (outer : Option ScopeId) (bindings : Entries String Value) :
    heap.Extends (heap.enter outer bindings).1 := by
  intro scope s hs
  refine ⟨s, ?_, rfl, fun _ hname => hname⟩
  rw [get?_enter_known (knows_iff.mpr ⟨s, hs⟩), hs]

theorem bind (heap : Heap) (scope : ScopeId) (name : String) (v : Value) :
    heap.Extends (heap.bind scope name v) := by
  intro other s hs
  rw [get?_bind, hs]
  by_cases h : other = scope
  · rw [if_pos h, Option.map_some]
    refine ⟨_, rfl, rfl, fun other' hname => ?_⟩
    by_cases hn : name = other'
    · rw [hn, Entries.find?_insert_self, Option.isSome_some]
    · rw [Entries.find?_insert_ne hn]
      exact hname
  · rw [if_neg h]
    exact ⟨s, rfl, rfl, fun _ hname => hname⟩

theorem path (h : heap.Extends heap') {path : List ScopeId} {last : ScopeId}
    (hp : heap.scopes.Path scope path last) : heap'.scopes.Path scope path last := by
  induction hp with
  | outermost found link =>
    obtain ⟨s', hs', houter, -⟩ := h _ _ found
    exact .outermost hs' (houter.trans link)
  | inside found link rest ih =>
    obtain ⟨s', hs', houter, -⟩ := h _ _ found
    exact .inside hs' (houter.trans link) ih

end Extends

/-- All scopes of the heap lie inside one global scope, and functions were made in scopes of the
heap. -/
structure HangsOff (heap : Heap) (global : ScopeId) : Prop where
  known : heap.Knows global
  paths : ∀ scope, heap.Knows scope → ∃ path, heap.scopes.Path scope path global
  functions : ∀ id c, heap.closure? id = some c → heap.Knows c.scope

namespace HangsOff

variable {heap : Heap} {global scope : ScopeId}

theorem root (h : heap.HangsOff global) (hk : heap.Knows scope) :
    heap.scopes.root scope = global := by
  obtain ⟨path, hpath⟩ := h.paths scope hk
  exact hpath.root

theorem enter (h : heap.HangsOff global) (hk : heap.Knows scope)
    (bindings : Entries String Value) : (heap.enter (some scope) bindings).1.HangsOff global where
  known := (Extends.enter heap _ _).knows h.known
  paths := by
    intro other hother
    -- Either it was there before, with its path, or it is the one that has just been entered.
    by_cases hold : heap.Knows other
    · obtain ⟨path, hpath⟩ := h.paths other hold
      exact ⟨path, (Extends.enter heap (some scope) bindings).path hpath⟩
    · have hnew : other = (heap.enter (some scope) bindings).2 := by
        have hindex : other.index = heap.scopeCount := by
          simp only [Knows, scopeCount_enter] at hother hold
          omega
        cases other
        exact congrArg ScopeId.mk hindex
      obtain ⟨path, hpath⟩ := h.paths scope hk
      subst hnew
      exact ⟨_, .inside (get?_enter_new hk bindings) rfl
        ((Extends.enter heap (some scope) bindings).path hpath)⟩
  functions := fun id c hc => (Extends.enter heap _ _).knows (h.functions id c hc)

theorem bind (h : heap.HangsOff global) (scope : ScopeId) (name : String) (v : Value) :
    (heap.bind scope name v).HangsOff global where
  known := (Extends.bind heap _ _ _).knows h.known
  paths := by
    intro other hother
    rw [Knows, scopeCount_bind] at hother
    obtain ⟨path, hpath⟩ := h.paths other hother
    exact ⟨path, (Extends.bind heap scope name v).path hpath⟩
  functions := fun id c hc => (Extends.bind heap _ _ _).knows (h.functions id c hc)

theorem newCell (h : heap.HangsOff global) (v : Value) : (heap.newCell v).1.HangsOff global :=
  ⟨h.known, h.paths, h.functions⟩

theorem setCell (h : heap.HangsOff global) (id : CellId) (v : Value) :
    (heap.setCell id v).HangsOff global :=
  ⟨h.known, h.paths, h.functions⟩

theorem newClosure (h : heap.HangsOff global) {c : Closure} (hc : heap.Knows c.scope) :
    (heap.newClosure c).1.HangsOff global where
  known := h.known
  paths := h.paths
  functions := by
    intro id c' hc'
    simp only [Heap.newClosure, closure?, Array.getElem?_push] at hc'
    split at hc'
    · cases hc'
      exact hc
    · exact h.functions id c' hc'

end HangsOff

/-- A heap with nothing but an outermost scope hangs off this scope. -/
theorem hangsOff_enter_empty (bindings : Entries String Value) :
    (Heap.empty.enter none bindings).1.HangsOff (Heap.empty.enter none bindings).2 where
  known := Nat.lt_succ_self 0
  paths := by
    intro scope hk
    have hscope : scope = (Heap.empty.enter none bindings).2 := by
      have hindex : scope.index = 0 := Nat.lt_one_iff.mp hk
      cases scope
      exact congrArg ScopeId.mk hindex
    subst hscope
    exact ⟨_, .outermost rfl rfl⟩
  functions := by
    intro id c hc
    simp [closure?, enter, empty] at hc

end Heap
end MiniLisp
