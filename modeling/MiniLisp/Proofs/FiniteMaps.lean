import MiniLisp.Proofs.ByteOrder
import MiniLisp.Proofs.MapLiterals

namespace MiniLisp

open Value

/-- An even number of values, of which every other one, from the first on, is a key. -/
def KeyedRow (row : List Value) : Prop :=
  row.length % 2 = 0 ∧ ∀ i v, row[2 * i]? = some v → ∃ key : Key, v = key.toValue

theorem keyedRow_pairRow (pairs : Entries Key Value) : KeyedRow (pairRow pairs) := by
  refine ⟨?_, ?_⟩
  · rw [pairRow, length_pairs]
    omega
  · induction pairs with
    | nil => simp [pairRow]
    | cons p pairs ih =>
      intro i v h
      cases i with
      | zero => exact ⟨p.1, (Option.some.inj h).symm⟩
      | succ i => exact ih i v h

theorem KeyedRow.pairs : ∀ {row : List Value}, KeyedRow row → ∃ pairs, row = pairRow pairs
  | [], _ => ⟨[], rfl⟩
  | [_], h => absurd h.1 (by simp)
  | k :: v :: rest, h => by
    obtain ⟨key, rfl⟩ := h.2 0 k rfl
    have hrest : KeyedRow rest := by
      refine ⟨?_, fun i x hx => h.2 (i + 1) x hx⟩
      have heven := h.1
      simp only [List.length_cons] at heven
      omega
    obtain ⟨pairs, rfl⟩ := hrest.pairs
    exact ⟨(key, v) :: pairs, rfl⟩

/-- Taken two by two, such a row is a row of pairs. -/
theorem keyedRow_iff {row : List Value} : KeyedRow row ↔ ∃ pairs, row = pairRow pairs := by
  constructor
  · exact KeyedRow.pairs
  · rintro ⟨pairs, rfl⟩
    exact keyedRow_pairRow pairs

theorem insertPairs_pairRow (es pairs : Entries Key Value) :
    insertPairs es (pairRow pairs) = .ok (Entries.overlay es pairs) := by
  have heven : ¬ (pairRow pairs).length % 2 = 1 := by
    rw [(keyedRow_pairRow pairs).1]
    decide
  rw [insertPairs, if_neg heven]
  exact insertAll_pairs es pairs

/-- Whatever is no row of pairs is refused, wherever the fault lies. -/
theorem insertPairs_error {row : List Value} (h : ¬ KeyedRow row) (es : Entries Key Value) :
    ∃ fault, insertPairs es row = .error fault ∧ fault.kind = Kind.hash := by
  by_cases hodd : row.length % 2 = 1
  · exact ⟨_, by rw [insertPairs, if_pos hodd]; rfl, rfl⟩
  · rw [insertPairs, if_neg hodd]
    cases hall : insertAll es row with
    | error fault => exact ⟨fault, rfl, insertAll_error hall⟩
    | ok all =>
      obtain ⟨pairs, rfl⟩ := pairs_of_insertAll (by omega) hall
      exact absurd (keyedRow_pairRow pairs) h

/-- What the natives tell of a hash-map is this function: each key with its value, and a listing in
ascending order that leaves nothing out. What is no key is not in it. -/
structure Represents (m : Value) (f : Key → Option Value) : Prop where
  get : ∀ key : Key, Native.get.Answers [m, key.toValue] (.ok ((f key).getD .nil))
  contains : ∀ key : Key, Native.contains.Answers [m, key.toValue] (.ok (.bool (f key).isSome))
  get_other : ∀ v, (∀ key : Key, v ≠ key.toValue) → Native.get.Answers [m, v] (.ok .nil)
  contains_other : ∀ v, (∀ key : Key, v ≠ key.toValue) →
    Native.contains.Answers [m, v] (.ok (.bool false))
  listed : ∃ listing : List (Key × Value),
    Native.keys.Answers [m] (.ok (.ofList (listing.map fun e => e.1.toValue))) ∧
    Native.vals.Answers [m] (.ok (.ofList (listing.map fun e => e.2))) ∧
    (listing.map fun e => e.1).Pairwise Key.Below ∧ (listing.map fun e => e.1).Nodup ∧
    ∀ key v, (key, v) ∈ listing ↔ f key = some v

theorem key?_iff {v : Value} {key : Key} : v.key? = some key ↔ v = key.toValue := by
  cases v <;> cases key <;> simp [key?, Key.toValue]

theorem mem_keys {key : Key} {row : List Value} : key ∈ row.filterMap key? ↔ key.toValue ∈ row := by
  simp [List.mem_filterMap, key?_iff]

theorem key?_toValue (key : Key) : key.toValue.key? = some key :=
  key?_iff.mpr rfl

theorem key?_other {v : Value} (h : ∀ key : Key, v ≠ key.toValue) : v.key? = none := by
  apply Option.eq_none_iff_forall_ne_some.mpr
  intro key hkey
  exact h key (key?_iff.mp hkey)

theorem runGet_map (es : Entries Key Value) (note v : Value) :
    Native.runGet [.map es note, v] =
      .ok ((v.key?.bind fun key => Entries.find? key es).getD .nil) :=
  rfl

theorem runContains_map (es : Entries Key Value) (note v : Value) :
    Native.runContains [.map es note, v] =
      .ok (.bool (v.key?.bind fun key => Entries.find? key es).isSome) :=
  rfl

theorem represents {es : Entries Key Value} (hes : es.Ascending) (note : Value) :
    Represents (.map es note) fun key => Entries.find? key es where
  get := by
    intro key
    apply (Native.answers_iff rfl rfl).mpr
    rw [runGet_map, key?_toValue, Option.bind_some]
  contains := by
    intro key
    apply (Native.answers_iff rfl rfl).mpr
    rw [runContains_map, key?_toValue, Option.bind_some]
  get_other := by
    intro v hv
    apply (Native.answers_iff rfl rfl).mpr
    rw [runGet_map, key?_other hv]
    rfl
  contains_other := by
    intro v hv
    apply (Native.answers_iff rfl rfl).mpr
    rw [runContains_map, key?_other hv]
    rfl
  listed := by
    refine ⟨es, (Native.answers_iff rfl rfl).mpr rfl, (Native.answers_iff rfl rfl).mpr rfl, ?_,
      hes.keys_nodup, fun key v => (Entries.find?_iff_mem hes.keys_nodup).symm⟩
    apply List.pairwise_map.mpr
    exact hes.imp fun h => (Key.compare_iff_below _ _).mp h

/-- The native makes a hash-map of these arguments, and this function is what the natives tell of
it. -/
def Native.Makes (op : Native) (args : List Value) (f : Key → Option Value) : Prop :=
  ∃ es : Entries Key Value, es.Ascending ∧ op.Answers args (.ok (.ofEntries es)) ∧
    Represents (.ofEntries es) f

/-- The native refuses these arguments for not being pairs. -/
def Native.RefusesRow (op : Native) (args : List Value) : Prop :=
  ∃ fault : Fault, fault.kind = Kind.hash ∧ op.Answers args (.error fault)

/-- Keys and values put together again make the same hash-map. -/
def Rebuilds (m : Value) : Prop :=
  ∃ keys vals m', Native.keys.Answers [m] (.ok (.ofList keys)) ∧
    Native.vals.Answers [m] (.ok (.ofList vals)) ∧ keys.length = vals.length ∧
    Native.hashMap.Answers ((keys.zip vals).flatMap fun p => [p.1, p.2]) (.ok m') ∧
    m'.same m = true

/-- The natives for hash-maps. -/
def mapNatives : List Native :=
  [.hashMap, .assoc, .dissoc, .get, .contains, .keys, .vals]

section Making

variable {es : Entries Key Value} {row : List Value}

theorem runHashMap_eq (row : List Value) :
    Native.runHashMap row = (insertPairs [] row).map ofEntries :=
  rfl

theorem runAssoc_eq (es : Entries Key Value) (note : Value) (row : List Value) :
    Native.runAssoc (.map es note :: row) = (insertPairs es row).map ofEntries :=
  rfl

theorem hashMap_makes (pairs : Entries Key Value) :
    Native.hashMap.Makes (pairRow pairs) pairs.last? := by
  have hlast : (fun key => Entries.find? key (sortedPairs pairs)) = pairs.last? := by
    funext key
    rw [sortedPairs, Entries.find?_overlay, Entries.find?, Option.or_none, Entries.find?_reverse]
  refine ⟨sortedPairs pairs, ascending_sortedPairs pairs, ?_, ?_⟩
  · exact (Native.answers_iff rfl rfl).mpr (runHashMap_pairRow pairs)
  · exact hlast ▸ represents (ascending_sortedPairs pairs) .nil

theorem assoc_makes (hes : es.Ascending) (note : Value) (pairs : Entries Key Value) :
    Native.assoc.Makes (.map es note :: pairRow pairs) fun key =>
      (pairs.last? key).or (Entries.find? key es) := by
  have hlast : (fun key => Entries.find? key (Entries.overlay es pairs)) = fun key =>
      (pairs.last? key).or (Entries.find? key es) := by
    funext key
    rw [Entries.find?_overlay, Entries.find?_reverse]
  refine ⟨Entries.overlay es pairs, hes.overlay pairs, ?_, ?_⟩
  · apply (Native.answers_iff rfl rfl).mpr
    rw [runAssoc_eq, insertPairs_pairRow]
    rfl
  · exact hlast ▸ represents (hes.overlay pairs) .nil

theorem refuse_row (h : ¬ KeyedRow row) (es : Entries Key Value) (note : Value) :
    Native.hashMap.RefusesRow row ∧ Native.assoc.RefusesRow (.map es note :: row) := by
  refine ⟨?_, ?_⟩
  · obtain ⟨fault, hrefused, hkind⟩ := insertPairs_error h []
    refine ⟨fault, hkind, (Native.answers_iff rfl rfl).mpr ?_⟩
    rw [runHashMap_eq, hrefused]
    rfl
  · obtain ⟨fault, hrefused, hkind⟩ := insertPairs_error h es
    refine ⟨fault, hkind, (Native.answers_iff rfl rfl).mpr ?_⟩
    rw [runAssoc_eq, hrefused]
    rfl

theorem dissoc_makes (hes : es.Ascending) (note : Value) (named : List Value) :
    ∃ f, Native.dissoc.Makes (.map es note :: named) f ∧ ∀ key : Key,
      (key.toValue ∈ named → f key = none) ∧ (key.toValue ∉ named → f key = Entries.find? key es) := by
  obtain ⟨hascending, hfound⟩ := hes.eraseAll (named.filterMap key?)
  refine ⟨_, ⟨_, hascending, (Native.answers_iff rfl rfl).mpr rfl, represents hascending .nil⟩, ?_⟩
  intro key
  refine ⟨fun hnamed => ?_, fun hnot => ?_⟩
  · rw [hfound, if_pos (mem_keys.mpr hnamed)]
  · rw [hfound, if_neg fun hmem => hnot (mem_keys.mp hmem)]

theorem rebuilds (hes : es.Ascending) (note : Value) : Rebuilds (.map es note) := by
  have hrow : ((es.map fun e => e.1.toValue).zip (es.map fun e => e.2)).flatMap
      (fun p => [p.1, p.2]) = pairRow es := by
    rw [List.zip_map', List.flatMap_map]
    rfl
  refine ⟨es.map fun e => e.1.toValue, es.map fun e => e.2, .ofEntries es,
    (Native.answers_iff rfl rfl).mpr rfl, (Native.answers_iff rfl rfl).mpr rfl, ?_, ?_, ?_⟩
  · rw [List.length_map, List.length_map]
  · apply (Native.answers_iff rfl rfl).mpr
    rw [hrow, runHashMap_pairRow, sortedPairs_of_ascending hes]
  · apply (same_iff _ _).mpr
    simp only [ofEntries, bare]

/-- Pairs with different keys make one hash-map in whatever order they are entered. -/
theorem sortedPairs_of_perm {pairs pairs' : Entries Key Value} (h : pairs.Perm pairs')
    (hkeys : (pairs.map (·.1)).Nodup) : sortedPairs pairs = sortedPairs pairs' :=
  Entries.Ascending.overlay_perm List.Pairwise.nil h hkeys

theorem exists_answers_mapNatives :
    ∀ op ∈ mapNatives, ∀ args, ∃ result, Native.Answers op args result := by
  intro op hop args
  simp only [mapNatives, List.mem_cons, List.not_mem_nil, or_false] at hop
  rcases hop with rfl | rfl | rfl | rfl | rfl | rfl | rfl <;> exact Native.exists_answers rfl args

end Making

/-- A hash-map is a finite map from keys to values. Making one or adding to one succeeds for exactly
the rows of pairs, of equal keys the last one counts, and what is taken out is what was named; all this
leaves every hash-map and everything else as it is. -/
theorem hash_maps_are_finite_maps {es : Entries Key Value} (hes : es.Ascending) (note : Value)
    (row : List Value) :
    (Represents (.map es note) fun key => Entries.find? key es) ∧
    (KeyedRow row ↔ ∃ pairs, row = pairRow pairs) ∧
    (∀ pairs, row = pairRow pairs → Native.hashMap.Makes row pairs.last? ∧
      Native.assoc.Makes (.map es note :: row) fun key =>
        (pairs.last? key).or (Entries.find? key es)) ∧
    (¬ KeyedRow row → Native.hashMap.RefusesRow row ∧
      Native.assoc.RefusesRow (.map es note :: row)) ∧
    (∃ f, Native.dissoc.Makes (.map es note :: row) f ∧ ∀ key : Key,
      (key.toValue ∈ row → f key = none) ∧ (key.toValue ∉ row → f key = Entries.find? key es)) ∧
    Rebuilds (.map es note) ∧
    (∀ pairs pairs' : List (Key × Value), pairs.Perm pairs' → (pairs.map fun p => p.1).Nodup →
      ∃ m m', Native.hashMap.Answers (pairRow pairs) (.ok m) ∧
        Native.hashMap.Answers (pairRow pairs') (.ok m') ∧ m.same m' = true ∧
        ∀ heap style, m.print heap style = m'.print heap style) ∧
    ∀ op ∈ mapNatives, ∀ args, ∃ result, Native.Answers op args result := by
  refine ⟨represents hes note, keyedRow_iff, ?_, fun h => refuse_row h es note,
    dissoc_makes hes note row, rebuilds hes note, ?_, exists_answers_mapNatives⟩
  · rintro pairs rfl
    exact ⟨hashMap_makes pairs, assoc_makes hes note pairs⟩
  · intro pairs pairs' hperm hkeys
    refine ⟨_, _, (Native.answers_iff rfl rfl).mpr (runHashMap_pairRow pairs),
      (Native.answers_iff rfl rfl).mpr (runHashMap_pairRow pairs'), ?_, ?_⟩
    · rw [sortedPairs_of_perm hperm hkeys]
      exact (same_iff _ _).mpr rfl
    · intro heap style
      rw [sortedPairs_of_perm hperm hkeys]

/-- A string and a keyword of one text, the second one entered twice, and a number as a key. -/
theorem hash_maps_are_finite_maps_mixed :
    let es : Entries Key Value := [(.str "a", .int 1), (.kw "a", .int 2)]
    es.Ascending ∧
      ¬ KeyedRow [.str "a", .int 5, .int 0, .int 6] ∧
      Native.assoc.RefusesRow (.map es .nil :: [.str "a", .int 5, .int 0, .int 6]) ∧
      (∃ f, Native.assoc.Makes (.map es .nil :: [.kw "a", .int 3, .str "b", .nil, .kw "a", .int 4]) f ∧
        f (.kw "a") = some (.int 4) ∧ f (.str "a") = some (.int 1) ∧ f (.str "b") = some .nil) ∧
      ∃ m m', Native.hashMap.Answers [.kw "a", .int 2, .str "a", .int 1] (.ok m) ∧
        Native.hashMap.Answers [.str "a", .int 1, .kw "a", .int 2] (.ok m') ∧ m.same m' = true := by
  intro es
  have hes : es.Ascending := by
    apply List.pairwise_cons.mpr
    simp [Key.compare_iff_below, Key.Below]
  have hbad : ¬ KeyedRow [.str "a", .int 5, .int 0, .int 6] := by
    intro h
    obtain ⟨key, hkey⟩ := h.2 1 (.int 0) rfl
    cases key <;> cases hkey
  let pairs : List (Key × Value) := [(.kw "a", .int 3), (.str "b", .nil), (.kw "a", .int 4)]
  obtain ⟨-, -, hmakes, -⟩ := hash_maps_are_finite_maps hes .nil (pairRow pairs)
  obtain ⟨-, -, -, hrefuses, -, -, hperm, -⟩ :=
    hash_maps_are_finite_maps hes .nil [.str "a", .int 5, .int 0, .int 6]
  obtain ⟨m, m', hm, hm', hsame, -⟩ :=
    hperm [(.kw "a", .int 2), (.str "a", .int 1)] es (.swap ..) (by simp)
  exact ⟨hes, hbad, (hrefuses hbad).2, ⟨_, (hmakes pairs rfl).2, rfl, rfl, rfl⟩, m, m', hm, hm', hsame⟩

end MiniLisp
