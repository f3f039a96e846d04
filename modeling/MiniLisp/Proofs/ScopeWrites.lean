import MiniLisp.Proofs.ScopeChain

namespace MiniLisp

/-- A heap with the handles that have been given out. Several handles may lead to one scope. -/
structure Handles where
  heap : Heap
  given : List ScopeId

namespace Handles

def empty : Handles :=
  ⟨Heap.empty, []⟩

/-- Gives out a handle to a new scope. -/
def opened (t : Handles) (outer : Option ScopeId) (bindings : Entries String Value) : Handles :=
  ⟨(t.heap.enter outer bindings).1, t.given ++ [(t.heap.enter outer bindings).2]⟩

/-- What can be done with handles, one thing at a time. -/
inductive Step : Handles → Handles → Prop
  | new (t) : Step t (t.opened none [])
  | inside {t outer} (known : outer ∈ t.given) : Step t (t.opened (some outer) [])
  | parameters {t outer} (known : outer ∈ t.given) (params : List String) (args : List Value) :
      Step t (t.opened (some outer) (bindParams [] params args))
  | share {t scope} (known : scope ∈ t.given) : Step t ⟨t.heap, t.given ++ [scope]⟩
  | write {t scope} (known : scope ∈ t.given) (name : String) (v : Value) :
      Step t ⟨t.heap.bind scope name v, t.given⟩

/-- What has come about step by step. -/
inductive Built : Handles → Prop
  | start : Built empty
  | step {t t'} (earlier : Built t) (last : Step t t') : Built t'

theorem Step.extends {t t' : Handles} (h : Step t t') : t.heap.Extends t'.heap := by
  cases h with
  | new | inside | parameters => exact Heap.Extends.enter t.heap _ _
  | share => exact Heap.Extends.refl t.heap
  | write _ name v => exact Heap.Extends.bind t.heap _ name v

/-- A step keeps all handles leading to scopes of the heap. -/
theorem Step.knows {t t' : Handles} (h : Step t t') (ht : ∀ scope ∈ t.given, t.heap.Knows scope) :
    ∀ scope ∈ t'.given, t'.heap.Knows scope := by
  have hold : ∀ scope ∈ t.given, t'.heap.Knows scope := fun scope hs => h.extends.knows (ht scope hs)
  intro scope hs
  cases h with
  | new | inside | parameters =>
    rcases List.mem_append.mp hs with hs | hs
    · exact hold scope hs
    · rw [List.mem_singleton.mp hs]
      exact Heap.knows_entered t.heap _ _
  | share known =>
    rcases List.mem_append.mp hs with hs | hs
    · exact hold scope hs
    · rw [List.mem_singleton.mp hs]
      exact hold _ known
  | write => exact hold scope hs

theorem Built.knows {t : Handles} (h : Built t) : ∀ scope ∈ t.given, t.heap.Knows scope := by
  induction h with
  | start => simp [empty]
  | step earlier last ih => exact last.knows ih

end Handles

namespace Scopes

section Finding

variable {f g : ScopeId → Option Value} {path inner : List ScopeId}

theorem found_congr (h : ∀ i ∈ path, f i = g i) :
    path.findSome? f = path.findSome? g ∧
      (path.find? fun i => (f i).isSome) = path.find? fun i => (g i).isSome := by
  induction path with
  | nil => exact ⟨rfl, rfl⟩
  | cons i path ih =>
    obtain ⟨hvalue, hscope⟩ := ih fun j hj => h j (List.mem_cons_of_mem i hj)
    simp [List.findSome?_cons, List.find?_cons, h i List.mem_cons_self, hvalue, hscope]

/-- Scopes without the name are passed over. -/
theorem found_behind (outer : List ScopeId) (h : ∀ i ∈ inner, f i = none) :
    (inner ++ outer).findSome? f = outer.findSome? f ∧
      ((inner ++ outer).find? fun i => (f i).isSome) = outer.find? fun i => (f i).isSome := by
  have hvalue : inner.findSome? f = none := List.findSome?_eq_none_iff.mpr h
  have hscope : (inner.find? fun i => (f i).isSome) = none := by
    apply List.find?_eq_none.mpr
    intro i hi
    simp [h i hi]
  rw [List.findSome?_append, List.find?_append, hvalue, hscope, Option.none_or, Option.none_or]
  exact ⟨rfl, rfl⟩

/-- What lies behind a scope with the name is not looked at. -/
theorem found_within (outer : List ScopeId) {i : ScopeId} (hi : i ∈ inner) (h : (f i).isSome) :
    (inner ++ outer).findSome? f = inner.findSome? f ∧
      ((inner ++ outer).find? fun i => (f i).isSome) = inner.find? fun i => (f i).isSome := by
  have hvalue : (inner.findSome? f).isSome := List.findSome?_isSome_iff.mpr ⟨i, hi, h⟩
  have hscope : (inner.find? fun i => (f i).isSome).isSome := List.find?_isSome.mpr ⟨i, hi, h⟩
  rw [List.findSome?_append, List.find?_append, Option.or_of_isSome hvalue,
    Option.or_of_isSome hscope]
  exact ⟨rfl, rfl⟩

end Finding

namespace Path

variable {scopes : Scopes} {id last : ScopeId} {path : List ScopeId}

theorem index_le (h : scopes.Path id path last) : ∀ i ∈ path, i.index ≤ id.index := by
  induction h with
  | outermost found link =>
    intro i hi
    cases List.mem_singleton.mp hi
    exact Nat.le_refl _
  | inside found link rest ih =>
    intro i hi
    rcases List.mem_cons.mp hi with heq | hi
    · cases heq
      exact Nat.le_refl _
    · exact Nat.le_trans (ih i hi) (Nat.le_of_lt (outer_lt found link))

/-- The way outwards never comes back to a scope. -/
theorem nodup (h : scopes.Path id path last) : path.Nodup := by
  induction h with
  | outermost => simp
  | inside found link rest ih =>
    apply List.nodup_cons.mpr
    refine ⟨?_, ih⟩
    intro hmem
    exact absurd (outer_lt found link) (Nat.not_lt.mpr (rest.index_le _ hmem))

theorem ne_of_before {inner outer : List ScopeId} {scope : ScopeId}
    (h : scopes.Path id (inner ++ scope :: outer) last) : ∀ i ∈ inner, i ≠ scope := by
  intro i hi
  exact (List.nodup_append.mp h.nodup).2.2 i hi scope List.mem_cons_self

end Path

end Scopes

namespace Heap

variable {heap : Heap} {scope observer : ScopeId} {path : List ScopeId} {last : ScopeId}

/-- Every chain of scopes ends. -/
theorem exists_path (h : heap.Knows scope) : ∃ path last, heap.scopes.Path scope path last := by
  obtain ⟨index⟩ := scope
  induction index using Nat.strongRecOn with
  | ind index ih =>
    obtain ⟨s, hs⟩ := knows_iff.mp h
    cases ho : s.outer with
    | none => exact ⟨_, _, .outermost hs ho⟩
    | some outer =>
      have hlt := Scopes.outer_lt hs ho
      obtain ⟨path, last, hpath⟩ := ih outer.index hlt (Nat.lt_trans hlt h)
      exact ⟨_, _, .inside hs ho hpath⟩

section Write

variable {name other : String}

theorem bound?_bind_self (h : heap.Knows scope) (name : String) (v : Value) :
    (heap.bind scope name v).scopes.bound? name scope = some v := by
  obtain ⟨s, hs⟩ := knows_iff.mp h
  rw [Scopes.bound?, Scopes.bindings, get?_bind, if_pos rfl, hs, Option.map_some]
  exact Entries.find?_insert_self name v s.bindings

/-- A write changes what one scope binds one name to, and nothing else. -/
theorem bound?_bind_of_ne {i : ScopeId} (h : ¬ (other = name ∧ i = scope)) (v : Value) :
    (heap.bind scope name v).scopes.bound? other i = heap.scopes.bound? other i := by
  rw [Scopes.bound?, Scopes.bindings, get?_bind, Scopes.bound?, Scopes.bindings]
  by_cases hi : i = scope
  · have hne : name ≠ other := fun hname => h ⟨hname.symm, hi⟩
    rw [if_pos hi]
    cases heap.scopes.get? i with
    | none => rfl
    | some s => exact Entries.find?_insert_ne hne v s.bindings
  · rw [if_neg hi]

/-- The scope lies on the way, and no scope before it binds the name. -/
def Meets (heap : Heap) (path : List ScopeId) (name : String) (scope : ScopeId) : Prop :=
  ∃ inner outer, path = inner ++ scope :: outer ∧ ∀ i ∈ inner, heap.scopes.bound? name i = none

/-- A write that the way outwards meets first is what is found. -/
theorem Meets.found (h : heap.Meets path name scope) (hk : heap.Knows scope)
    (hpath : heap.scopes.Path observer path last) (v : Value) :
    (heap.bind scope name v).scopes.lookup observer name = some v ∧
      (heap.bind scope name v).scopes.find? observer name = some scope := by
  obtain ⟨inner, outer, rfl, hinner⟩ := h
  have hnone : ∀ i ∈ inner, (heap.bind scope name v).scopes.bound? name i = none := by
    intro i hi
    rw [bound?_bind_of_ne fun h => hpath.ne_of_before i hi h.2]
    exact hinner i hi
  have hafter := (Extends.bind heap scope name v).path hpath
  obtain ⟨hvalue, hscope⟩ := Scopes.found_behind (scope :: outer) hnone
  rw [hafter.lookup, hafter.find?, hvalue, hscope]
  simp [bound?_bind_self hk]

/-- Any other write changes nothing that is found. -/
theorem unmet_write (h : ¬ (other = name ∧ heap.Meets path name scope))
    (hpath : heap.scopes.Path observer path last) (v : Value) :
    (heap.bind scope name v).scopes.lookup observer other = heap.scopes.lookup observer other ∧
      (heap.bind scope name v).scopes.find? observer other = heap.scopes.find? observer other := by
  have hafter := (Extends.bind heap scope name v).path hpath
  rw [hafter.lookup, hafter.find?, hpath.lookup, hpath.find?]
  by_cases hon : other = name ∧ scope ∈ path
  · obtain ⟨rfl, hmem⟩ := hon
    obtain ⟨inner, outer, rfl⟩ := List.append_of_mem hmem
    have hsame : ∀ i ∈ inner, (heap.bind scope other v).scopes.bound? other i =
        heap.scopes.bound? other i := by
      intro i hi
      exact bound?_bind_of_ne (fun h => hpath.ne_of_before i hi h.2) v
    -- some scope on the way to this one binds the name, and there the search ends
    obtain ⟨i, hi, hbound⟩ : ∃ i ∈ inner, (heap.scopes.bound? other i).isSome := by
      apply Classical.byContradiction
      intro hnone
      refine h ⟨rfl, inner, outer, rfl, fun i hi => ?_⟩
      exact Option.not_isSome_iff_eq_none.mp fun hsome => hnone ⟨i, hi, hsome⟩
    obtain ⟨hvalue, hscope⟩ := Scopes.found_within (scope :: outer) hi hbound
    obtain ⟨hvalue', hscope'⟩ := Scopes.found_within (scope :: outer) hi
      (hsame i hi ▸ hbound)
    obtain ⟨hcongr, hcongr'⟩ := Scopes.found_congr hsame
    rw [hvalue, hscope, hvalue', hscope', hcongr, hcongr']
    exact ⟨rfl, rfl⟩
  · apply Scopes.found_congr
    intro i hi
    apply bound?_bind_of_ne
    intro h
    rw [h.2] at hi
    exact hon ⟨h.1, hi⟩

end Write

end Heap

/-- A write is seen where lexical scoping says so. Whatever was done with the handles before, a handle
finds the new value in the scope written to if its chain meets that scope before any other binding of
the name; in all other cases each handle finds for each name what it found before. -/
theorem write_seen_lexically {t : Handles} (h : t.Built) {scope observer : ScopeId}
    (hs : scope ∈ t.given) (ho : observer ∈ t.given) (name other : String) (v : Value) :
    (∃ path last, t.heap.scopes.Path observer path last) ∧
    ∀ path last, t.heap.scopes.Path observer path last →
      (other = name ∧ t.heap.Meets path name scope →
        (t.heap.bind scope name v).scopes.lookup observer other = some v ∧
          (t.heap.bind scope name v).scopes.find? observer other = some scope) ∧
      (¬ (other = name ∧ t.heap.Meets path name scope) →
        (t.heap.bind scope name v).scopes.lookup observer other =
            t.heap.scopes.lookup observer other ∧
          (t.heap.bind scope name v).scopes.find? observer other =
            t.heap.scopes.find? observer other) := by
  refine ⟨Heap.exists_path (h.knows observer ho), fun path last hpath => ⟨?_, ?_⟩⟩
  · rintro ⟨rfl, hmeets⟩
    exact hmeets.found (h.knows scope hs) hpath v
  · intro hunmet
    exact Heap.unmet_write hunmet hpath v

/-- One scope inside the outermost one has a name of its own, another one has not. -/
theorem write_seen_lexically_siblings :
    ∃ t : Handles, t.Built ∧ ⟨0⟩ ∈ t.given ∧ ⟨1⟩ ∈ t.given ∧ ⟨2⟩ ∈ t.given ∧
      t.heap.Meets [⟨2⟩, ⟨0⟩] "x" ⟨0⟩ ∧ ¬ t.heap.Meets [⟨1⟩, ⟨0⟩] "x" ⟨0⟩ ∧
      (t.heap.bind ⟨0⟩ "x" (.int 2)).scopes.lookup ⟨2⟩ "x" = some (.int 2) ∧
      (t.heap.bind ⟨0⟩ "x" (.int 2)).scopes.lookup ⟨1⟩ "x" = t.heap.scopes.lookup ⟨1⟩ "x" := by
  let t₁ := Handles.empty.opened none []
  let t₂ := t₁.opened (some ⟨0⟩) []
  let t₃ := (⟨t₂.heap.bind ⟨1⟩ "x" (.int 1), t₂.given⟩ : Handles)
  let t := t₃.opened (some ⟨0⟩) []
  have hgiven : t.given = [⟨0⟩, ⟨1⟩, ⟨2⟩] := rfl
  have hone : (⟨1⟩ : ScopeId) ∈ t₂.given := List.mem_append_right _ List.mem_cons_self
  have h₁ : t₁.Built := .step .start (.new _)
  have h₂ : t₂.Built := .step h₁ (.inside List.mem_cons_self)
  have h₃ : t₃.Built := .step h₂ (.write hone "x" (.int 1))
  have h : t.Built := .step h₃ (.inside List.mem_cons_self)
  have hpath : t.heap.scopes.Path ⟨1⟩ [⟨1⟩, ⟨0⟩] ⟨0⟩ := .inside rfl rfl (.outermost rfl rfl)
  have hpath' : t.heap.scopes.Path ⟨2⟩ [⟨2⟩, ⟨0⟩] ⟨0⟩ := .inside rfl rfl (.outermost rfl rfl)
  have hmeets : t.heap.Meets [⟨2⟩, ⟨0⟩] "x" ⟨0⟩ := by
    refine ⟨[⟨2⟩], [], rfl, ?_⟩
    intro i hi
    cases List.mem_singleton.mp hi
    rfl
  have hunmet : ¬ t.heap.Meets [⟨1⟩, ⟨0⟩] "x" ⟨0⟩ := by
    intro hmeets
    obtain ⟨inner, outer, hsplit, hinner⟩ := hmeets
    cases inner with
    | nil => cases hsplit
    | cons i inner =>
      obtain ⟨rfl, -⟩ := List.cons.inj hsplit
      cases hinner ⟨1⟩ List.mem_cons_self
  have hmem : ∀ i ∈ [(⟨0⟩ : ScopeId), ⟨1⟩, ⟨2⟩], i ∈ t.given := fun i hi => hgiven ▸ hi
  obtain ⟨-, hseen⟩ :=
    write_seen_lexically h (hmem ⟨0⟩ (by simp)) (hmem ⟨2⟩ (by simp)) "x" "x" (.int 2)
  obtain ⟨-, hunseen⟩ :=
    write_seen_lexically h (hmem ⟨0⟩ (by simp)) (hmem ⟨1⟩ (by simp)) "x" "x" (.int 2)
  exact ⟨t, h, hmem _ (by simp), hmem _ (by simp), hmem _ (by simp), hmeets, hunmet,
    ((hseen _ _ hpath').1 ⟨rfl, hmeets⟩).1,
    ((hunseen _ _ hpath).2 fun hboth => hunmet hboth.2).1⟩

end MiniLisp
