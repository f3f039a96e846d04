import MiniLisp.Heap
import MiniLisp.Proofs.Entries
import MiniLisp.Proofs.RoundTrip

namespace MiniLisp

/-- No error value stands anywhere in the value, its metadata or the payloads of caught errors. -/
inductive Value.Clean : Value → Prop
  | nil : Clean .nil
  | bool (b : Bool) : Clean (.bool b)
  | int (n : Int64) : Clean (.int n)
  | str (text : String) : Clean (.str text)
  | sym (name : String) : Clean (.sym name)
  | kw (name : String) : Clean (.kw name)
  | list {items note} (elements : ∀ v ∈ items, Clean v) (metadata : Clean note) :
      Clean (.list items note)
  | vec {items note} (elements : ∀ v ∈ items, Clean v) (metadata : Clean note) :
      Clean (.vec items note)
  | map {entries : List (Key × Value)} {note} (values : ∀ e ∈ entries, Clean e.2)
      (metadata : Clean note) : Clean (.map entries note)
  | native {op note} (metadata : Clean note) : Clean (.native op note)
  | fn {id expander note} (metadata : Clean note) : Clean (.fn id expander note)
  | atom {cell note} (metadata : Clean note) : Clean (.atom cell note)
  | caught {kind payload} (description : Clean payload) : Clean (.caught kind payload)

namespace Value

attribute [simp] Clean.nil Clean.bool Clean.int Clean.str Clean.sym Clean.kw

@[simp]
theorem not_clean_error {kind : Kind} {payload : Value} : ¬ Clean (.error kind payload) := by
  intro h
  cases h

@[simp]
theorem clean_list {items : List Value} {note : Value} :
    Clean (.list items note) ↔ (∀ v ∈ items, Clean v) ∧ Clean note := by
  constructor
  · intro h
    cases h with
    | list elements metadata => exact ⟨elements, metadata⟩
  · rintro ⟨elements, metadata⟩
    exact .list elements metadata

@[simp]
theorem clean_vec {items : List Value} {note : Value} :
    Clean (.vec items note) ↔ (∀ v ∈ items, Clean v) ∧ Clean note := by
  constructor
  · intro h
    cases h with
    | vec elements metadata => exact ⟨elements, metadata⟩
  · rintro ⟨elements, metadata⟩
    exact .vec elements metadata

@[simp]
theorem clean_map {entries : List (Key × Value)} {note : Value} :
    Clean (.map entries note) ↔ (∀ e ∈ entries, Clean e.2) ∧ Clean note := by
  constructor
  · intro h
    cases h with
    | map values metadata => exact ⟨values, metadata⟩
  · rintro ⟨values, metadata⟩
    exact .map values metadata

@[simp]
theorem clean_native {op : Native} {note : Value} : Clean (.native op note) ↔ Clean note := by
  constructor
  · intro h
    cases h with
    | native metadata => exact metadata
  · exact .native

@[simp]
theorem clean_fn {id : FnId} {expander : Bool} {note : Value} :
    Clean (.fn id expander note) ↔ Clean note := by
  constructor
  · intro h
    cases h with
    | fn metadata => exact metadata
  · exact .fn

@[simp]
theorem clean_atom {cell : CellId} {note : Value} : Clean (.atom cell note) ↔ Clean note := by
  constructor
  · intro h
    cases h with
    | atom metadata => exact metadata
  · exact .atom

@[simp]
theorem clean_caught {kind : Kind} {payload : Value} :
    Clean (.caught kind payload) ↔ Clean payload := by
  constructor
  · intro h
    cases h with
    | caught description => exact description
  · exact .caught

@[simp]
theorem clean_ofList {items : List Value} : Clean (ofList items) ↔ ∀ v ∈ items, Clean v := by
  simp [ofList]

@[simp]
theorem clean_ofVec {items : List Value} : Clean (ofVec items) ↔ ∀ v ∈ items, Clean v := by
  simp [ofVec]

@[simp]
theorem clean_ofEntries {entries : Entries Key Value} :
    Clean (ofEntries entries) ↔ ∀ e ∈ entries, Clean e.2 := by
  simp [ofEntries]

@[simp]
theorem clean_toValue (key : Key) : Clean key.toValue := by
  cases key <;> simp [Key.toValue]

theorem Clean.elements {v : Value} (h : Clean v) {items : List Value}
    (he : v.elements? = some items) : ∀ x ∈ items, Clean x := by
  cases v with
  | list items note =>
    cases he
    exact (clean_list.mp h).1
  | vec items note =>
    cases he
    exact (clean_vec.mp h).1
  | _ => cases he

theorem Clean.note {v : Value} (h : Clean v) : Clean v.note := by
  cases h <;> simp_all [Value.note]

theorem Clean.withNote {v note : Value} (h : Clean v) (hn : Clean note) :
    Clean (v.withNote note) := by
  cases h with
  | map values metadata => exact .map values hn
  | _ => simp_all [Value.withNote]

theorem map_eq_self {α : Type} {f : α → α} {xs : List α} (h : xs.map f = xs) :
    ∀ x ∈ xs, f x = x :=
  List.map_inj_left.mp (h.trans (List.map_id xs).symm)

theorem Readable.clean {v : Value} (h : Readable v) (hb : v.bare = v) : Clean v := by
  induction h with
  | list elements ih =>
    simp only [bare, list.injEq] at hb
    obtain ⟨hitems, rfl⟩ := hb
    exact .list (fun x hx => ih x hx (map_eq_self hitems x hx)) .nil
  | vec elements ih =>
    simp only [bare, vec.injEq] at hb
    obtain ⟨hitems, rfl⟩ := hb
    exact .vec (fun x hx => ih x hx (map_eq_self hitems x hx)) .nil
  | map ascending keys values _ ih =>
    simp only [bare, map.injEq] at hb
    obtain ⟨hentries, rfl⟩ := hb
    refine .map (fun e he => ih e he ?_) .nil
    exact congrArg Prod.snd (map_eq_self hentries e he)
  | _ => simp

/-- What the reader makes of a text has no error value in it. -/
theorem clean_of_read {source : String} {v : Value} (h : read source = .ok (some v)) : Clean v :=
  have hv := legible_of_read h
  hv.readable.clean hv.plain

end Value

namespace Entries

variable {κ : Type}

/-- What all values have in common they still have when another such value is entered. -/
theorem insert_values [Ord κ] {P : Value → Prop} {entries : Entries κ Value} {key : κ} {v : Value}
    (h : ∀ e ∈ entries, P e.2) (hv : P v) : ∀ e ∈ insert key v entries, P e.2 := by
  intro e he
  rcases mem_insert he with rfl | he
  · exact hv
  · exact h e he

end Entries

theorem bindParams_cons {bindings : Entries String Value} {p : String} {ps : List String}
    {args : List Value} (hp : p ≠ restMark) :
    bindParams bindings (p :: ps) args =
      bindParams (Entries.insert p (args.headD .nil) bindings) ps args.tail := by
  cases ps <;> simp only [bindParams, hp, if_false]

theorem bindParams_clean {bindings : Entries String Value} {params : List String}
    {args : List Value} (h : ∀ e ∈ bindings, e.2.Clean) (ha : ∀ v ∈ args, v.Clean) :
    ∀ e ∈ bindParams bindings params args, e.2.Clean := by
  induction params generalizing bindings args with
  | nil => exact h
  | cons p ps ih =>
    by_cases hp : p = restMark
    · cases ps with
      | nil =>
        rw [bindParams, if_pos hp]
        exact h
      | cons rest _ =>
        rw [bindParams, if_pos hp]
        exact Entries.insert_values h (Value.clean_ofList.mpr ha)
    · rw [bindParams_cons hp]
      refine ih (Entries.insert_values h ?_) fun v hv => ha v (List.mem_of_mem_tail hv)
      cases args with
      | nil => exact .nil
      | cons a args => exact ha a List.mem_cons_self

/-- What a name stands for is bound to it in some scope. -/
theorem Scopes.bound_of_lookup {scopes : Scopes} {id : ScopeId} {name : String} {v : Value}
    (h : scopes.lookup id name = some v) :
    ∃ (i : Nat) (s : Scope), scopes.all[i]? = some s ∧ Entries.find? name s.bindings = some v := by
  rw [lookup] at h
  split at h
  · cases h
  · next s hs =>
    split at h
    · next found hfound =>
      cases h
      exact ⟨id.index, s, hs, hfound⟩
    · split at h
      · cases h
      · next o ho =>
        have := outer_lt hs ho
        exact bound_of_lookup h
termination_by id.index

/-- No error value stands in a binding, in the cell of an atom or in the body of a function. -/
structure Heap.Clean (heap : Heap) : Prop where
  bindings : ∀ (i : Nat) (s : Scope), heap.scopes.all[i]? = some s → ∀ e ∈ s.bindings, e.2.Clean
  cells : ∀ v ∈ heap.cells, v.Clean
  bodies : ∀ c ∈ heap.closures, c.body.Clean

namespace Heap.Clean

variable {heap : Heap}

theorem empty : Heap.empty.Clean where
  bindings := by simp [Heap.empty, Scopes.empty]
  cells := by simp [Heap.empty]
  bodies := by simp [Heap.empty]

theorem lookup (h : heap.Clean) {scope : ScopeId} {name : String} {v : Value}
    (hv : heap.scopes.lookup scope name = some v) : v.Clean := by
  obtain ⟨i, s, hs, hfind⟩ := Scopes.bound_of_lookup hv
  exact h.bindings i s hs _ (Entries.mem_of_find? hfind)

theorem cell (h : heap.Clean) (id : CellId) : (heap.cell id).Clean := by
  rw [Heap.cell]
  cases hc : heap.cells[id.index]? with
  | none => exact .nil
  | some v => exact h.cells v (Array.mem_of_getElem? hc)

theorem closure (h : heap.Clean) {id : FnId} {c : Closure} (hc : heap.closure? id = some c) :
    c.body.Clean :=
  h.bodies c (Array.mem_of_getElem? hc)

theorem enter (h : heap.Clean) (outer : Option ScopeId) {bindings : Entries String Value}
    (hb : ∀ e ∈ bindings, e.2.Clean) : (heap.enter outer bindings).1.Clean where
  bindings := by
    intro i s hs
    simp only [Heap.enter, Scopes.enter, Array.getElem?_push] at hs
    split at hs
    · cases hs
      exact hb
    · exact h.bindings i s hs
  cells := h.cells
  bodies := h.bodies

theorem bind (h : heap.Clean) (scope : ScopeId) (name : String) {v : Value} (hv : v.Clean) :
    (heap.bind scope name v).Clean where
  bindings := by
    intro i s hs
    simp only [Heap.bind, Scopes.set, Array.getElem?_modify] at hs
    split at hs
    · obtain ⟨s', hs', rfl⟩ := Option.map_eq_some_iff.mp hs
      exact Entries.insert_values (h.bindings i s' hs') hv
    · exact h.bindings i s hs
  cells := h.cells
  bodies := h.bodies

theorem newCell (h : heap.Clean) {v : Value} (hv : v.Clean) : (heap.newCell v).1.Clean where
  bindings := h.bindings
  cells := by
    intro x hx
    rcases Array.mem_push.mp hx with hx | rfl
    · exact h.cells x hx
    · exact hv
  bodies := h.bodies

theorem setCell (h : heap.Clean) (id : CellId) {v : Value} (hv : v.Clean) :
    (heap.setCell id v).Clean where
  bindings := h.bindings
  cells := by
    intro x hx
    rcases Array.mem_or_eq_of_mem_setIfInBounds hx with hx | rfl
    · exact h.cells x hx
    · exact hv
  bodies := h.bodies

theorem newClosure (h : heap.Clean) {c : Closure} (hc : c.body.Clean) :
    (heap.newClosure c).1.Clean where
  bindings := h.bindings
  cells := h.cells
  bodies := by
    intro x hx
    rcases Array.mem_push.mp hx with hx | rfl
    · exact h.bodies x hx
    · exact hc

end Heap.Clean
end MiniLisp
