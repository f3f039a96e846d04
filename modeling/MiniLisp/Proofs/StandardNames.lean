import MiniLisp.Proofs.CleanSession

namespace MiniLisp

open Value Run

theorem mem_standardNames_native (op : Native) : op.name ∈ standardNames :=
  List.mem_append_left _ (List.mem_map_of_mem (Native.mem_all op))

theorem mem_standardNames_form (form : SpecialForm) : form.name ∈ standardNames := by
  refine List.mem_append_right _ (List.mem_map_of_mem ?_)
  cases form <;> decide

/-- An outermost scope in which each native is bound to its own name and no special form is bound to
anything. -/
structure Heap.Standard (heap : Heap) (scope : ScopeId) : Prop where
  outermost : ∃ s, heap.scopes.get? scope = some s ∧ s.outer = none
  native : ∀ op : Native, heap.scopes.lookup scope op.name = some (.native op .nil)
  form : ∀ form : SpecialForm, heap.scopes.lookup scope form.name = none

/-- No special form stands for an expander there. -/
theorem Heap.Standard.no_expander {heap : Heap} {scope : ScopeId} (h : heap.Standard scope)
    (form : SpecialForm) (id : FnId) (note : Value) :
    heap.scopes.lookup scope form.name ≠ some (.fn id true note) := by
  simp [h.form form]

namespace Session

variable {fuel : Nat} {scope : ScopeId}

/-- A native without metadata is told by its leaf and by that of its metadata. -/
theorem eq_native_of_sameLeaf {op : Native} {v : Value} (hv : v.sameLeaf (.native op .nil) = true)
    (hnote : v.note.sameLeaf .nil = true) : v = .native op .nil := by
  cases v with
  | native other note =>
    have hop : other = op := by simpa [sameLeaf] using hv
    cases note with
    | nil => rw [hop]
    | _ => cases hnote
  | _ => cases hv

/-- Before the prelude the natives are bound to their names. -/
theorem globalBindings_native (op : Native) :
    Entries.find? op.name globalBindings = some (.native op .nil) := by
  have hall : (Native.all.all fun op => (Entries.find? op.name globalBindings).any fun v =>
      v.sameLeaf (.native op .nil) && v.note.sameLeaf .nil) = true := by decide +kernel
  have hop := List.all_eq_true.mp hall op (Native.mem_all op)
  simp only [Option.any_eq_true, Bool.and_eq_true] at hop
  obtain ⟨v, hfind, hv, hnote⟩ := hop
  rw [hfind, eq_native_of_sameLeaf hv hnote]

/-- Before the prelude no special form is bound to anything. -/
theorem globalBindings_form (form : SpecialForm) :
    Entries.find? form.name globalBindings = none := by
  have hall : (SpecialForm.all.all fun form =>
      (Entries.find? form.name globalBindings).isNone) = true := by decide +kernel
  have hmem : form ∈ SpecialForm.all := by cases form <;> decide
  exact Option.isNone_iff_eq_none.mp (List.all_eq_true.mp hall form hmem)

/-- In a new global scope the standard names mean what they always do. -/
theorem newGlobal_standard {files : Files} {input : String} {clock : Int64} {w : World}
    (h : (newGlobal fuel).outcome (World.start files input clock) = some (.ok scope, w)) :
    w.heap.Standard scope := by
  let w₀ : World := { World.start files input clock with
    heap := (Heap.empty.enter none globalBindings).1 }
  let global := (Heap.empty.enter none globalBindings).2
  have hmakes : (load (fuel + 1) global Prelude.all).Makes global standardNames (fun _ => True) :=
    load_makes prelude_makes
  obtain ⟨_, w', hload, -, hglobal, hkept, -⟩ := hmakes w₀ global_enter
  obtain ⟨rfl, rfl⟩ := newGlobal_of_load h hload
  have hstart : w₀.heap.scopes.get? global = some ⟨globalBindings, none⟩ := rfl
  have hlookup : ∀ name ∈ standardNames,
      w.heap.scopes.lookup global name = Entries.find? name globalBindings := by
    intro name hname
    rw [hkept.names name hname, Scopes.lookup_outermost hstart rfl]
  obtain ⟨s, hs, ho, -⟩ := hglobal.frame
  refine ⟨⟨s, hs, ho⟩, ?_, ?_⟩
  · intro op
    rw [hlookup _ (mem_standardNames_native op), globalBindings_native op]
  · intro form
    rw [hlookup _ (mem_standardNames_form form), globalBindings_form form]

end Session
end MiniLisp
