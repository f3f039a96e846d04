import MiniLisp.Value

namespace MiniLisp

namespace Key

theorem compare_str (a b : String) : compare (str a) (str b) = compare a b := rfl

theorem compare_kw (a b : String) : compare (kw a) (kw b) = compare a b := rfl

instance : Std.TransOrd Key where
  eq_swap := by
    rintro (a | a) (b | b)
    · rw [compare_str, compare_str, Std.OrientedOrd.eq_swap]
    · rfl
    · rfl
    · rw [compare_kw, compare_kw, Std.OrientedOrd.eq_swap]
  isLE_trans := by
    rintro (a | a) (b | b) (c | c) hab hbc
    all_goals try rfl
    all_goals try cases hab
    all_goals try cases hbc
    all_goals
      simp only [compare_str, compare_kw] at hab hbc ⊢
      exact Std.TransOrd.isLE_trans hab hbc

instance : Std.LawfulEqOrd Key where
  compare_self := by
    rintro (a | a)
    · exact Std.ReflOrd.compare_self
    · exact Std.ReflOrd.compare_self
  eq_of_compare := by
    rintro (a | a) (b | b) h
    · exact congrArg str (Std.LawfulEqOrd.eq_of_compare h)
    · cases h
    · cases h
    · exact congrArg kw (Std.LawfulEqOrd.eq_of_compare h)

end Key

namespace Entries

variable {κ ν : Type} [Ord κ]

/-- No key stands twice, and smaller keys stand in front. -/
def Ascending (es : Entries κ ν) : Prop :=
  es.Pairwise fun a b => compare a.1 b.1 = .lt

theorem insert_above {es : Entries κ ν} {key : κ} (value : ν)
    (h : ∀ e ∈ es, compare e.1 key = .lt) : insert key value es = es ++ [(key, value)] := by
  induction es with
  | nil => rfl
  | cons e es ih =>
    have he := h e (by simp)
    have hes := ih fun f hf => h f (by simp [hf])
    simp only [insert, he, hes, List.cons_append]

theorem mem_insert {es : Entries κ ν} {key : κ} {value : ν} {e : κ × ν}
    (h : e ∈ insert key value es) : e = (key, value) ∨ e ∈ es := by
  induction es with
  | nil => exact Or.inl (List.mem_singleton.mp h)
  | cons f es ih =>
    simp only [insert] at h
    split at h <;> simp only [List.mem_cons] at h ⊢
    · rcases h with h | h
      · exact Or.inr (Or.inl h)
      · rcases ih h with h | h
        · exact Or.inl h
        · exact Or.inr (Or.inr h)
    · rcases h with h | h
      · exact Or.inl h
      · exact Or.inr (Or.inr h)
    · exact h

theorem Ascending.insert [Std.TransOrd κ] [Std.LawfulEqOrd κ] {es : Entries κ ν}
    (h : Ascending es) (key : κ) (value : ν) : Ascending (insert key value es) := by
  induction es with
  | nil => exact List.pairwise_singleton _ _
  | cons f es ih =>
    obtain ⟨hf, hes⟩ := List.pairwise_cons.mp h
    simp only [Entries.insert]
    split
    · rename_i hlt
      refine List.pairwise_cons.mpr ⟨?_, ih hes⟩
      intro e he
      rcases mem_insert he with rfl | he
      · exact hlt
      · exact hf e he
    · rename_i heq
      have hk := Std.LawfulEqOrd.eq_of_compare heq
      exact List.pairwise_cons.mpr ⟨fun e he => hk ▸ hf e he, hes⟩
    · rename_i hgt
      have hlt := Std.OrientedCmp.lt_of_gt hgt
      refine List.pairwise_cons.mpr ⟨?_, h⟩
      intro e he
      rcases List.mem_cons.mp he with rfl | he
      · exact hlt
      · exact Std.TransCmp.lt_trans hlt (hf e he)

theorem find?_insert_self [DecidableEq κ] [Std.LawfulEqOrd κ] (key : κ) (v : ν) (es : Entries κ ν) :
    find? key (insert key v es) = some v := by
  induction es with
  | nil => simp [insert, find?]
  | cons e es ih =>
    simp only [insert]
    split
    · next hlt =>
      have hne : e.1 ≠ key := by
        rintro rfl
        simp [Std.ReflOrd.compare_self] at hlt
      simp only [find?, hne, if_false, ih]
    · simp [find?]
    · simp [find?]

theorem find?_insert_ne [DecidableEq κ] [Std.LawfulEqOrd κ] {key other : κ} (h : other ≠ key)
    (v : ν) (es : Entries κ ν) : find? key (insert other v es) = find? key es := by
  induction es with
  | nil => simp [insert, find?, h]
  | cons e es ih =>
    simp only [insert]
    split
    · simp only [find?, ih]
    · next hcmp =>
      have heq : e.1 = other := Std.LawfulEqOrd.eq_of_compare hcmp
      simp [find?, h, heq]
    · simp [find?, h]

theorem find?_eq_none_of_above [DecidableEq κ] [Std.LawfulEqOrd κ] {key : κ} {es : Entries κ ν}
    (h : ∀ e ∈ es, compare key e.1 = .lt) : find? key es = none := by
  induction es with
  | nil => rfl
  | cons e es ih =>
    have hne : e.1 ≠ key := by
      rintro rfl
      simpa [Std.ReflOrd.compare_self] using h e (List.mem_cons_self ..)
    rw [find?, if_neg hne]
    exact ih fun f hf => h f (List.mem_cons_of_mem _ hf)

/-- Entries in ascending order are told apart by what is found in them. -/
theorem Ascending.ext [DecidableEq κ] [Std.TransOrd κ] [Std.LawfulEqOrd κ] {es fs : Entries κ ν}
    (he : Ascending es) (hf : Ascending fs) (h : ∀ key, find? key es = find? key fs) : es = fs := by
  induction es generalizing fs with
  | nil =>
    cases fs with
    | nil => rfl
    | cons f fs => simpa [find?] using h f.1
  | cons e es ih =>
    cases fs with
    | nil => simpa [find?] using h e.1
    | cons f fs =>
      obtain ⟨hes, he⟩ := List.pairwise_cons.mp he
      obtain ⟨hfs, hf⟩ := List.pairwise_cons.mp hf
      -- the smaller of two different heads is not found on the other side
      have apart {a b : κ × ν} {as bs : Entries κ ν} (hbs : ∀ x ∈ bs, compare b.1 x.1 = .lt)
          (hab : ∀ key, find? key (a :: as) = find? key (b :: bs)) : compare a.1 b.1 ≠ .lt := by
        intro hlt
        have hnone : find? a.1 (b :: bs) = none :=
          find?_eq_none_of_above (List.forall_mem_cons.mpr
            ⟨hlt, fun x hx => Std.TransCmp.lt_trans hlt (hbs x hx)⟩)
        have hfound := hab a.1
        rw [hnone] at hfound
        simp [find?] at hfound
      have hkey : e.1 = f.1 := by
        cases hcmp : compare e.1 f.1 with
        | lt => exact absurd hcmp (apart hfs h)
        | eq => exact Std.LawfulEqOrd.eq_of_compare hcmp
        | gt => exact absurd (Std.OrientedCmp.lt_of_gt hcmp) (apart hes fun key => (h key).symm)
      have hvalue : e.2 = f.2 := by simpa [find?, hkey] using h e.1
      have hrest : ∀ key, find? key es = find? key fs := by
        intro key
        by_cases hk : e.1 = key
        · subst hk
          rw [find?_eq_none_of_above hes, find?_eq_none_of_above (hkey ▸ hfs)]
        · have hk' : f.1 ≠ key := hkey ▸ hk
          simpa [find?, hk, hk'] using h key
      rw [ih he hf hrest, Prod.ext hkey hvalue]

theorem find?_append {ι μ : Type} [DecidableEq ι] (key : ι) (es fs : Entries ι μ) :
    find? key (es ++ fs) = (find? key es).or (find? key fs) := by
  induction es with
  | nil => rfl
  | cons e es ih =>
    simp only [List.cons_append, find?]
    split
    · rfl
    · exact ih

/-- The last of the upper entries wins, and the lower entries come after all of them. -/
theorem find?_overlay [DecidableEq κ] [Std.LawfulEqOrd κ] (key : κ) (lower upper : Entries κ ν) :
    find? key (overlay lower upper) = (find? key upper.reverse).or (find? key lower) := by
  induction upper generalizing lower with
  | nil => rfl
  | cons e upper ih =>
    have hstep : overlay lower (e :: upper) = overlay (insert e.1 e.2 lower) upper := rfl
    rw [hstep, ih, List.reverse_cons, find?_append, Option.or_assoc]
    congr 1
    by_cases hk : e.1 = key
    · subst hk
      simp [find?, find?_insert_self]
    · simp [find?, hk, find?_insert_ne hk]

theorem Ascending.overlay [Std.TransOrd κ] [Std.LawfulEqOrd κ] {lower : Entries κ ν}
    (h : Ascending lower) (upper : Entries κ ν) : Ascending (overlay lower upper) := by
  induction upper generalizing lower with
  | nil => exact h
  | cons e upper ih => exact ih (h.insert e.1 e.2)

section Erasing

variable {ι μ : Type} [DecidableEq ι]

theorem mem_of_find? {es : Entries ι μ} {key : ι} {v : μ} (h : find? key es = some v) :
    (key, v) ∈ es := by
  induction es with
  | nil => cases h
  | cons e es ih =>
    obtain ⟨k, x⟩ := e
    simp only [find?] at h
    split at h
    · next hk =>
      cases h
      exact List.mem_cons.mpr (.inl (by rw [hk]))
    · exact List.mem_cons_of_mem _ (ih h)

/-- Where no key stands twice, what is found is what is there. -/
theorem find?_iff_mem {es : Entries ι μ} (h : (es.map (·.1)).Nodup) {key : ι} {v : μ} :
    find? key es = some v ↔ (key, v) ∈ es := by
  constructor
  · exact mem_of_find?
  · intro hmem
    induction es with
    | nil => cases hmem
    | cons e es ih =>
      obtain ⟨hhead, htail⟩ := List.nodup_cons.mp h
      rcases List.mem_cons.mp hmem with rfl | hmem
      · simp [find?]
      · have hkey : key ∈ es.map (·.1) := List.mem_map_of_mem (f := Prod.fst) hmem
        have hne : e.1 ≠ key := by
          rintro rfl
          exact hhead hkey
        rw [find?, if_neg hne]
        exact ih htail hmem

theorem erase_sublist (key : ι) (es : Entries ι μ) : (erase key es).Sublist es := by
  induction es with
  | nil => exact .slnil
  | cons e es ih =>
    simp only [erase]
    split
    · exact List.sublist_cons_self e es
    · exact ih.cons_cons e

theorem find?_erase_ne {key other : ι} (h : other ≠ key) (es : Entries ι μ) :
    find? key (erase other es) = find? key es := by
  induction es with
  | nil => rfl
  | cons e es ih =>
    simp only [erase]
    split
    · next he =>
      have hne : e.1 ≠ key := he ▸ h
      rw [find?, if_neg hne]
    · simp only [find?, ih]

end Erasing

theorem Ascending.erase [DecidableEq κ] {es : Entries κ ν} (h : Ascending es) (key : κ) :
    Ascending (erase key es) :=
  h.sublist (erase_sublist key es)

namespace Ascending

variable [Std.LawfulEqOrd κ] {es : Entries κ ν}

theorem keys_nodup (h : Ascending es) : (es.map (·.1)).Nodup := by
  apply List.pairwise_map.mpr
  apply h.imp
  intro a b hlt heq
  rw [heq, Std.ReflOrd.compare_self] at hlt
  cases hlt

theorem find?_erase_self [DecidableEq κ] (h : Ascending es) (key : κ) :
    find? key (Entries.erase key es) = none := by
  induction es with
  | nil => rfl
  | cons e es ih =>
    obtain ⟨hes, htail⟩ := List.pairwise_cons.mp h
    simp only [Entries.erase]
    split
    · next hk =>
      subst hk
      exact find?_eq_none_of_above hes
    · next hk =>
      rw [find?, if_neg hk]
      exact ih htail

/-- Erasing some keys leaves exactly the entries of the others. -/
theorem eraseAll [DecidableEq κ] (h : Ascending es) (keys : List κ) :
    Ascending (keys.foldl (fun es k => Entries.erase k es) es) ∧
      ∀ key, find? key (keys.foldl (fun es k => Entries.erase k es) es) =
        if key ∈ keys then none else find? key es := by
  induction keys generalizing es with
  | nil => exact ⟨h, fun key => rfl⟩
  | cons k keys ih =>
    obtain ⟨hascending, hfound⟩ := ih (h.erase k)
    refine ⟨hascending, fun key => (hfound key).trans ?_⟩
    by_cases hk : k = key
    · subst hk
      simp [h.find?_erase_self]
    · simp [find?_erase_ne hk, Ne.symm hk]

end Ascending

/-- Entries with different keys may be laid over others in any order. -/
theorem Ascending.overlay_perm [DecidableEq κ] [Std.TransOrd κ] [Std.LawfulEqOrd κ]
    {lower upper upper' : Entries κ ν} (h : Ascending lower) (hperm : upper.Perm upper')
    (hkeys : (upper.map (·.1)).Nodup) : Entries.overlay lower upper = Entries.overlay lower upper' := by
  have hreversed : (upper.reverse.map (·.1)).Nodup :=
    ((List.reverse_perm upper).symm.map _).nodup hkeys
  have hreversed' : (upper'.reverse.map (·.1)).Nodup :=
    ((hperm.trans (List.reverse_perm upper').symm).map _).nodup hkeys
  apply (h.overlay upper).ext (h.overlay upper')
  intro key
  rw [find?_overlay, find?_overlay]
  congr 1
  apply Option.ext
  intro v
  rw [find?_iff_mem hreversed, find?_iff_mem hreversed', List.mem_reverse, List.mem_reverse]
  exact hperm.mem_iff

/-- What is found in entries laid over others is found in the upper ones first. -/
theorem Ascending.find?_overlay [DecidableEq κ] [Std.LawfulEqOrd κ] {upper : Entries κ ν}
    (h : Ascending upper) (key : κ) (lower : Entries κ ν) :
    find? key (Entries.overlay lower upper) = (find? key upper).or (find? key lower) := by
  have hreversed : (upper.reverse.map (·.1)).Nodup :=
    ((List.reverse_perm upper).symm.map _).nodup h.keys_nodup
  have hsame : find? key upper.reverse = find? key upper := by
    apply Option.ext
    intro v
    rw [find?_iff_mem hreversed, find?_iff_mem h.keys_nodup, List.mem_reverse]
  rw [Entries.find?_overlay, hsame]

/-- The last entry of a key, among entries in any order. -/
def last? {ι μ : Type} [DecidableEq ι] (es : Entries ι μ) (key : ι) : Option μ :=
  ((es.filter fun e => e.1 = key).getLast?).map (·.2)

theorem find?_reverse {ι μ : Type} [DecidableEq ι] (key : ι) (es : Entries ι μ) :
    find? key es.reverse = last? es key := by
  have hfirst : ∀ fs : Entries ι μ, find? key fs = (List.find? (fun e => e.1 = key) fs).map (·.2) := by
    intro fs
    induction fs with
    | nil => rfl
    | cons f fs ih =>
      by_cases hk : f.1 = key
      · simp [find?, hk]
      · simp [find?, hk, ih]
  rw [hfirst, last?, List.getLast?_eq_head?_reverse, ← List.filter_reverse, List.head?_filter]

end Entries
end MiniLisp
