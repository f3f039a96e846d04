import MiniLisp.Proofs.ByteOrder
import MiniLisp.Proofs.ScopeWrites

namespace MiniLisp

namespace Entries

variable {κ ν : Type} [Ord κ] [DecidableEq κ] [Std.TransOrd κ] [Std.LawfulEqOrd κ]

/-- Entries in any order, put in the order of their keys. -/
def sort (row : List (κ × ν)) : List (κ × ν) :=
  row.mergeSort fun a b => (compare a.1 b.1).isLE

/-- Entries that were taken out in any order are put in order again. -/
theorem Ascending.sort_perm {es : Entries κ ν} (hes : es.Ascending) {row : List (κ × ν)}
    (h : row.Perm es) : sort row = es := by
  have hperm : (sort row).Perm es := (List.mergeSort_perm row _).trans h
  have hnodup : ((sort row).map (·.1)).Nodup := (hperm.map _).nodup_iff.mpr hes.keys_nodup
  have hle : (sort row).Pairwise fun a b => (compare a.1 b.1).isLE := by
    apply List.pairwise_mergeSort
    · intro a b c
      exact Std.TransOrd.isLE_trans
    · intro a b
      rw [Std.OrientedOrd.eq_swap (a := b.1)]
      cases compare a.1 b.1 <;> rfl
  have hascending : Ascending (sort row) := by
    refine (hle.and (List.pairwise_map.mp hnodup)).imp fun {a b} ⟨hab, hne⟩ => ?_
    cases hcmp : compare a.1 b.1 with
    | lt => rfl
    | eq => exact absurd (Std.LawfulEqOrd.eq_of_compare hcmp) hne
    | gt => simp [hcmp] at hab
  refine hascending.ext hes fun key => Option.ext fun v => ?_
  rw [find?_iff_mem hnodup, find?_iff_mem hes.keys_nodup]
  exact hperm.mem_iff

/-- Laid over nothing, entries in order stay as they are. -/
theorem Ascending.overlay_nil {es : Entries κ ν} (h : es.Ascending) : Entries.overlay [] es = es := by
  apply (Ascending.overlay .nil es).ext h
  intro key
  rw [h.find?_overlay, find?, Option.or_none]

end Entries

theorem ascending_bindParams {bindings : Entries String Value} (h : bindings.Ascending)
    (params : List String) (args : List Value) : (bindParams bindings params args).Ascending := by
  fun_induction bindParams bindings params args with
  | case1 => exact h
  | case2 => exact h
  | case3 bindings args rest => exact h.insert rest _
  | case4 bindings p ps args hp ih => exact ih (h.insert p _)

namespace Scopes

/-- What each scope binds is a finite map: no name stands twice, and all stand in order. -/
def Ordered (scopes : Scopes) : Prop :=
  ∀ id s, scopes.get? id = some s → s.bindings.Ascending

/-- All that can be seen from a scope, gathered without regard to order. What can be seen from the scope
around it comes first and then, in any order, what the scope binds itself; what has come together in
this way is taken out in any order, and put in order at the end. -/
inductive Gathered (scopes : Scopes) : ScopeId → List (String × Value) → Prop
  | outermost {id s own all} (found : scopes.get? id = some s) (link : s.outer = none)
      (entered : own.Perm s.bindings) (taken : all.Perm (Entries.overlay [] own)) :
      Gathered scopes id (Entries.sort all)
  | inside {id s outer row own all} (found : scopes.get? id = some s) (link : s.outer = some outer)
      (around : Gathered scopes outer row) (entered : own.Perm s.bindings)
      (taken : all.Perm (Entries.overlay (Entries.overlay [] row) own)) :
      Gathered scopes id (Entries.sort all)

variable {scopes : Scopes} {id last : ScopeId} {path : List ScopeId}

theorem Ordered.ascending_visible (h : scopes.Ordered) (hpath : scopes.Path id path last) :
    (scopes.visible id).Ascending := by
  induction hpath with
  | @outermost id s found link =>
    rw [visible_of_get? found, link]
    exact h id s found
  | inside found link rest ih =>
    rw [visible_of_get? found, link]
    exact ih.overlay _

/-- What is listed for a name is what is found when it is looked up. -/
theorem Ordered.find?_visible (h : scopes.Ordered) (hpath : scopes.Path id path last) (name : String) :
    Entries.find? name (scopes.visible id) = scopes.lookup id name := by
  induction hpath with
  | outermost found link =>
    rw [visible_of_get? found, lookup_of_get? found, link, Option.bind_none, Option.or_none]
    rfl
  | @inside id s outer path last found link rest ih =>
    rw [visible_of_get? found, lookup_of_get? found, link, Option.bind_some, ← ih]
    exact (h id s found).find?_overlay name _

/-- The entries of a finite map may be entered and taken out in any order. -/
theorem Ordered.sort_overlay (h : scopes.Ordered) {s : Scope} (found : scopes.get? id = some s)
    {lower own all : Entries String Value} (hlower : lower.Ascending) (entered : own.Perm s.bindings)
    (taken : all.Perm (Entries.overlay lower own)) :
    Entries.sort all = Entries.overlay lower s.bindings := by
  have hkeys : (own.map (·.1)).Nodup :=
    (entered.map _).nodup_iff.mpr (h id s found).keys_nodup
  rw [(hlower.overlay own).sort_perm taken, hlower.overlay_perm entered hkeys]

/-- Whatever the order, what is gathered is what is listed. -/
theorem Ordered.gathered_iff (h : scopes.Ordered) (hpath : scopes.Path id path last)
    (row : List (String × Value)) : scopes.Gathered id row ↔ row = scopes.visible id := by
  induction hpath generalizing row with
  | @outermost id s found link =>
    have hown : scopes.visible id = Entries.overlay [] s.bindings := by
      rw [visible_of_get? found, link, (h id s found).overlay_nil]
      rfl
    rw [hown]
    constructor
    · intro hrow
      cases hrow with
      | outermost found' link' entered taken =>
        rw [found] at found'
        cases found'
        exact h.sort_overlay found .nil entered taken
      | inside found' link' =>
        rw [found] at found'
        cases found'
        rw [link] at link'
        cases link'
    · rintro rfl
      rw [← h.sort_overlay found .nil (.refl _) (.refl _)]
      exact .outermost found link (.refl _) (.refl _)
  | @inside id s outer path last found link rest ih =>
    have hvisible := h.ascending_visible rest
    have hown : scopes.visible id =
        Entries.overlay (Entries.overlay [] (scopes.visible outer)) s.bindings := by
      rw [visible_of_get? found, link, hvisible.overlay_nil]
      rfl
    rw [hown]
    constructor
    · intro hrow
      cases hrow with
      | outermost found' link' =>
        rw [found] at found'
        cases found'
        rw [link] at link'
        cases link'
      | inside found' link' around entered taken =>
        rw [found] at found'
        cases found'
        rw [link] at link'
        cases link'
        rw [(ih _).mp around] at taken
        exact h.sort_overlay found (.overlay .nil _) entered taken
    · rintro rfl
      rw [← h.sort_overlay found (.overlay .nil _) (.refl _) (.refl _)]
      exact .inside found link ((ih _).mpr rfl) (.refl _) (.refl _)

/-- The outermost scope is the same for all scopes on the way to it. -/
theorem Path.outermost_mem (h : scopes.Path id path last) :
    path.getLast? = some last ∧ (∃ s, scopes.get? last = some s ∧ s.outer = none) ∧
      ∀ i ∈ path, scopes.root i = last := by
  induction h with
  | @outermost id s found link =>
    refine ⟨rfl, ⟨s, found, link⟩, fun i hi => ?_⟩
    rw [List.mem_singleton.mp hi]
    exact (Path.outermost found link).root
  | @inside id s outer path last found link rest ih =>
    obtain ⟨hlast, hend, hroots⟩ := ih
    refine ⟨?_, hend, fun i hi => ?_⟩
    · rw [List.getLast?_cons_of_ne_nil rest.ne_nil, hlast]
    · rcases List.mem_cons.mp hi with rfl | hi
      · exact (Path.inside found link rest).root
      · exact hroots i hi

end Scopes

namespace Heap

variable {heap : Heap} {scope last : ScopeId} {path : List ScopeId}

/-- What is answered from a scope whose way outwards goes through these scopes to the last one. -/
structure AnswersAgree (heap : Heap) (scope : ScopeId) (path : List ScopeId) (last : ScopeId) :
    Prop where
  /-- The scope that is found for a name is the first one on the way that binds it. -/
  found : ∀ name holder, heap.scopes.find? scope name = some holder ↔
    heap.Meets path name holder ∧ (heap.scopes.bound? name holder).isSome
  value : ∀ name v, heap.scopes.lookup scope name = some v ↔
    ∃ holder, heap.scopes.find? scope name = some holder ∧ heap.scopes.bound? name holder = some v
  unbound : ∀ name, heap.scopes.lookup scope name = none ↔ heap.scopes.find? scope name = none
  resolved : ∀ name v, heap.scopes.resolve scope name = .ok v ↔ heap.scopes.lookup scope name = some v
  refused : ∀ name fault, heap.scopes.resolve scope name = .error fault ↔
    heap.scopes.lookup scope name = none ∧
      fault = ⟨Kind.symbol, .str (Cause.unbound name).message⟩
  outermost : path.getLast? = some last ∧
    (∃ s, heap.scopes.get? last = some s ∧ s.outer = none) ∧ ∀ i ∈ path, heap.scopes.root i = last
  /-- All names are listed once, in the order of their bytes. -/
  ascending : ((heap.scopes.visible scope).map (·.1)).Pairwise fun a b =>
    a.toUTF8.data.toList < b.toUTF8.data.toList
  distinct : ((heap.scopes.visible scope).map (·.1)).Nodup
  listed : ∀ name v, (name, v) ∈ heap.scopes.visible scope ↔ heap.scopes.lookup scope name = some v
  gathered : ∀ row, heap.scopes.Gathered scope row ↔ row = heap.scopes.visible scope

theorem find?_iff_meets (h : heap.scopes.Path scope path last) (name : String) (holder : ScopeId) :
    heap.scopes.find? scope name = some holder ↔
      heap.Meets path name holder ∧ (heap.scopes.bound? name holder).isSome := by
  rw [h.find?, List.find?_eq_some_iff_append, Meets]
  simp only [Bool.not_eq_eq_eq_not, Bool.not_true, Option.isSome_eq_false_iff, Option.isNone_iff_eq_none]
  exact and_comm

theorem lookup_iff_find? (h : heap.scopes.Path scope path last) (name : String) (v : Value) :
    heap.scopes.lookup scope name = some v ↔
      ∃ holder, heap.scopes.find? scope name = some holder ∧
        heap.scopes.bound? name holder = some v := by
  simp only [find?_iff_meets h]
  rw [h.lookup, List.findSome?_eq_some_iff]
  constructor
  · rintro ⟨inner, holder, outer, hsplit, hbound, hinner⟩
    exact ⟨holder, ⟨⟨inner, outer, hsplit, hinner⟩, by rw [hbound]; rfl⟩, hbound⟩
  · rintro ⟨holder, ⟨⟨inner, outer, hsplit, hinner⟩, -⟩, hbound⟩
    exact ⟨inner, holder, outer, hsplit, hbound, hinner⟩

theorem lookup_none_iff (h : heap.scopes.Path scope path last) (name : String) :
    heap.scopes.lookup scope name = none ↔ heap.scopes.find? scope name = none := by
  rw [h.lookup, h.find?, List.findSome?_eq_none_iff, List.find?_eq_none]
  simp only [Bool.not_eq_true, Option.isSome_eq_false_iff, Option.isNone_iff_eq_none]

theorem resolve_ok_iff (name : String) (v : Value) :
    heap.scopes.resolve scope name = .ok v ↔ heap.scopes.lookup scope name = some v := by
  rw [Scopes.resolve]
  cases heap.scopes.lookup scope name with
  | none => exact iff_of_false (fun h => by cases h) (fun h => by cases h)
  | some x => rw [Except.ok.injEq, Option.some.injEq]

theorem resolve_error_iff (name : String) (fault : Fault) :
    heap.scopes.resolve scope name = .error fault ↔
      heap.scopes.lookup scope name = none ∧
        fault = ⟨Kind.symbol, .str (Cause.unbound name).message⟩ := by
  rw [Scopes.resolve]
  cases heap.scopes.lookup scope name with
  | none =>
    change Except.error (Cause.unbound name).fault = _ ↔ _
    rw [Except.error.injEq, eq_comm, and_iff_right rfl]
    rfl
  | some x => exact iff_of_false (fun h => by cases h) (fun h => by cases h.1)

theorem answersAgree (ho : heap.scopes.Ordered) (h : heap.scopes.Path scope path last) :
    heap.AnswersAgree scope path last where
  found := find?_iff_meets h
  value := lookup_iff_find? h
  unbound := lookup_none_iff h
  resolved := resolve_ok_iff
  refused := resolve_error_iff
  outermost := h.outermost_mem
  ascending := by
    apply List.pairwise_map.mpr
    exact (ho.ascending_visible h).imp fun hlt => (compare_eq_lt_iff _ _).mp hlt
  distinct := (ho.ascending_visible h).keys_nodup
  listed := by
    intro name v
    rw [← ho.find?_visible h, Entries.find?_iff_mem (ho.ascending_visible h).keys_nodup]
  gathered := ho.gathered_iff h

theorem ordered_enter (h : heap.scopes.Ordered) (outer : Option ScopeId)
    {bindings : Entries String Value} (hb : bindings.Ascending) :
    (heap.enter outer bindings).1.scopes.Ordered := by
  intro id s hs
  simp only [enter, Scopes.enter, Scopes.get?, Array.getElem?_push] at hs
  split at hs
  · cases hs
    exact hb
  · exact h id s hs

theorem ordered_bind (h : heap.scopes.Ordered) (scope : ScopeId) (name : String) (v : Value) :
    (heap.bind scope name v).scopes.Ordered := by
  intro id s hs
  rw [get?_bind] at hs
  split at hs
  · obtain ⟨s', hs', rfl⟩ := Option.map_eq_some_iff.mp hs
    exact (h id s' hs').insert name v
  · exact h id s hs

end Heap

namespace Handles

theorem Step.ordered {t t' : Handles} (h : Step t t') (ht : t.heap.scopes.Ordered) :
    t'.heap.scopes.Ordered := by
  cases h with
  | new | inside => exact Heap.ordered_enter ht _ .nil
  | parameters _ params args => exact Heap.ordered_enter ht _ (ascending_bindParams .nil params args)
  | share => exact ht
  | write _ name v => exact Heap.ordered_bind ht _ name v

theorem Built.ordered {t : Handles} (h : Built t) : t.heap.scopes.Ordered := by
  induction h with
  | start =>
    intro id s hs
    cases hs
  | step earlier last ih => exact last.ordered ih

end Handles

/-- All ways of asking a scope agree. From every scope of a heap a way leads outwards, and along it the
scope found for a name, its value, its resolution, the outermost scope and the listing of all bindings
fit together, as long as what a scope binds is a finite map; and so it is in whatever has been built
from scopes. -/
theorem scope_answers_agree :
    (∀ t : Handles, t.Built → t.heap.scopes.Ordered ∧ ∀ scope ∈ t.given, t.heap.Knows scope) ∧
    ∀ heap : Heap, heap.scopes.Ordered → ∀ scope, heap.Knows scope →
      ∃ path last, heap.scopes.Path scope path last ∧ heap.AnswersAgree scope path last := by
  refine ⟨fun t ht => ⟨ht.ordered, ht.knows⟩, ?_⟩
  intro heap ho scope hk
  obtain ⟨path, last, hpath⟩ := Heap.exists_path hk
  exact ⟨path, last, hpath, Heap.answersAgree ho hpath⟩

/-- An inner scope has a name of its own and sees another one outside. -/
theorem scope_answers_agree_shadowed :
    ∃ t : Handles, t.Built ∧ t.heap.scopes.Ordered ∧ t.heap.Knows ⟨1⟩ ∧
      ∃ path last, t.heap.scopes.Path ⟨1⟩ path last ∧ t.heap.AnswersAgree ⟨1⟩ path last ∧
        t.heap.scopes.find? ⟨1⟩ "x" = some ⟨1⟩ ∧ t.heap.scopes.find? ⟨1⟩ "y" = some ⟨0⟩ ∧
        ("x", .int 3) ∈ t.heap.scopes.visible ⟨1⟩ ∧ ("x", .int 1) ∉ t.heap.scopes.visible ⟨1⟩ ∧
        ("y", .int 2) ∈ t.heap.scopes.visible ⟨1⟩ := by
  let t₁ := Handles.empty.opened none []
  let t₂ := (⟨t₁.heap.bind ⟨0⟩ "x" (.int 1), t₁.given⟩ : Handles)
  let t₃ := (⟨t₂.heap.bind ⟨0⟩ "y" (.int 2), t₂.given⟩ : Handles)
  let t₄ := t₃.opened (some ⟨0⟩) []
  let t := (⟨t₄.heap.bind ⟨1⟩ "x" (.int 3), t₄.given⟩ : Handles)
  have hroot : (⟨0⟩ : ScopeId) ∈ t₁.given := List.mem_cons_self
  have hinner : (⟨1⟩ : ScopeId) ∈ t₄.given := List.mem_append_right _ List.mem_cons_self
  have h₁ : t₁.Built := .step .start (.new _)
  have h₂ : t₂.Built := .step h₁ (.write hroot "x" (.int 1))
  have h₃ : t₃.Built := .step h₂ (.write (t := t₂) hroot "y" (.int 2))
  have h₄ : t₄.Built := .step h₃ (.inside hroot)
  have h : t.Built := .step h₄ (.write hinner "x" (.int 3))
  obtain ⟨hbuilt, hagree⟩ := scope_answers_agree
  obtain ⟨hordered, hknows⟩ := hbuilt t h
  obtain ⟨path, last, hpath, hanswers⟩ := hagree t.heap hordered ⟨1⟩ (hknows _ hinner)
  have hway : t.heap.scopes.Path ⟨1⟩ [⟨1⟩, ⟨0⟩] ⟨0⟩ := .inside rfl rfl (.outermost rfl rfl)
  refine ⟨t, h, hordered, hknows _ hinner, path, last, hpath, hanswers, hway.find? "x",
    hway.find? "y", (hanswers.listed _ _).mpr (hway.lookup "x"), ?_,
    (hanswers.listed _ _).mpr (hway.lookup "y")⟩
  intro hmem
  have hlookup := (hanswers.listed _ _).mp hmem
  rw [hway.lookup] at hlookup
  cases hlookup

end MiniLisp
