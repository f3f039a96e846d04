import MiniLisp.Proofs.ReadBack

namespace MiniLisp.Value

/-- A value as the reader makes it, that fits into so many levels. -/
structure Legible (levels : Nat) (v : Value) : Prop where
  readable : Readable v
  plain : v.bare = v
  shallow : fits levels v = true

theorem Legible.pos {levels : Nat} {v : Value} (h : Legible levels v) : 0 < levels := by
  cases levels with
  | zero => cases h.shallow
  | succ levels => exact Nat.zero_lt_succ levels

/-- Scalars need one level. -/
theorem Legible.leaf {levels : Nat} {v : Value} (h : Readable v) (hp : v.bare = v)
    (hr : v.row? = none) (hl : 0 < levels) : Legible levels v := by
  cases levels with
  | zero => cases hl
  | succ levels => exact ⟨h, hp, fits_leaf hr levels⟩

theorem map_bare {levels : Nat} {items : List Value} (h : ∀ x ∈ items, Legible levels x) :
    items.map bare = items :=
  (List.map_congr_left fun x hx => (h x hx).plain).trans (List.map_id' items)

theorem Legible.ofList {levels : Nat} {items : List Value} (h : ∀ x ∈ items, Legible levels x) :
    Legible (levels + 1) (ofList items) := by
  refine ⟨.list fun x hx => (h x hx).readable, ?_, ?_⟩
  · rw [Value.ofList, bare, map_bare h]
  · rw [fits_succ rfl, List.all_eq_true]
    exact fun x hx => (h x hx).shallow

theorem Legible.ofVec {levels : Nat} {items : List Value} (h : ∀ x ∈ items, Legible levels x) :
    Legible (levels + 1) (ofVec items) := by
  refine ⟨.vec fun x hx => (h x hx).readable, ?_, ?_⟩
  · rw [Value.ofVec, bare, map_bare h]
  · rw [fits_succ rfl, List.all_eq_true]
    exact fun x hx => (h x hx).shallow

/-- Entries as the reader makes them. -/
structure LegibleEntries (levels : Nat) (es : Entries Key Value) : Prop where
  ascending : Entries.Ascending es
  keys : ∀ e ∈ es, Readable e.1.toValue
  values : ∀ e ∈ es, Legible levels e.2

theorem toValue_of_toKey {v : Value} {key : Key} (h : v.toKey = .ok key) : key.toValue = v := by
  cases v <;> cases h <;> rfl

theorem LegibleEntries.insertAll {levels : Nat} {m es : Entries Key Value} {items : List Value}
    (hm : LegibleEntries levels m) (hi : ∀ x ∈ items, Legible levels x)
    (h : insertAll m items = .ok es) : LegibleEntries levels es := by
  fun_induction Value.insertAll m items with
  | case1 m key value rest ih =>
    cases hk : key.toKey with
    | error f =>
      rw [hk] at h
      cases h
    | ok k =>
      rw [hk] at h
      refine ih k ⟨hm.ascending.insert k value, ?_, ?_⟩ (fun x hx => hi x (by simp [hx])) h
      · intro e he
        rcases Entries.mem_insert he with rfl | he
        · exact toValue_of_toKey hk ▸ (hi key (by simp)).readable
        · exact hm.keys e he
      · intro e he
        rcases Entries.mem_insert he with rfl | he
        · exact hi value (by simp)
        · exact hm.values e he
  | case2 m items _ =>
    cases h
    exact hm

theorem Legible.ofEntries {levels : Nat} {es : Entries Key Value} (h : LegibleEntries levels es) :
    Legible (levels + 1) (ofEntries es) := by
  refine ⟨.map h.ascending h.keys fun e he => (h.values e he).readable, ?_, ?_⟩
  · have hes : (es.map fun e => (e.1, bare e.2)) = es.map fun e => e :=
      List.map_congr_left fun e he => by rw [(h.values e he).plain]
    rw [Value.ofEntries, bare, hes, List.map_id']
  · rw [fits_succ rfl, List.all_eq_true]
    intro x hx
    obtain ⟨e, he, hx⟩ := List.mem_flatMap.mp hx
    have hv := h.values e he
    simp only [List.mem_cons, List.not_mem_nil, or_false] at hx
    rcases hx with rfl | rfl
    · have hleaf : e.1.toValue.row? = none := by cases e.1 <;> rfl
      have hplain : e.1.toValue.bare = e.1.toValue := by cases e.1 <;> simp [Key.toValue, bare]
      exact (Legible.leaf (h.keys e he) hplain hleaf hv.pos).shallow
    · exact hv.shallow

theorem Legible.ofBracket {levels : Nat} {b : Bracket} {items : List Value} {v : Value}
    (hi : ∀ x ∈ items, Legible levels x) (h : ofBracket b items = .ok v) :
    Legible (levels + 1) v := by
  cases b with
  | round =>
    cases h
    exact Legible.ofList hi
  | square =>
    cases h
    exact Legible.ofVec hi
  | curly =>
    rw [Value.ofBracket, insertPairs] at h
    split at h
    · cases h
    · cases hes : Value.insertAll [] items with
      | error f =>
        rw [hes] at h
        cases h
      | ok es =>
        rw [hes] at h
        cases h
        exact Legible.ofEntries (LegibleEntries.insertAll ⟨.nil, by simp, by simp⟩ hi hes)

theorem Legible.ofWord {levels : Nat} {cs : List Char} {v : Value} (hw : IsWord cs)
    (h : ofWord cs = .ok v) (hl : 0 < levels) : Legible levels v := by
  have hsym := h
  unfold Value.ofWord at h
  split at h
  · split at h <;> cases h
    exact .leaf (.int _) (by simp [bare]) rfl hl
  · split at h <;> cases h
    · exact .leaf (.kw (by simpa using hw)) (by simp [bare]) rfl hl
    · exact .leaf .nil (by simp [bare]) rfl hl
    · exact .leaf (.bool true) (by simp [bare]) rfl hl
    · exact .leaf (.bool false) (by simp [bare]) rfl hl
    · exact .leaf (.sym (by simpa using hw) (by simpa using hsym)) (by simp [bare]) rfl hl

theorem Legible.symbol (m : Mark) {levels : Nat} (hl : 0 < levels) :
    Legible levels (sym m.symbol) := by
  refine .leaf (.sym ?_ ?_) (by simp [bare]) rfl hl
  · cases m <;> decide
  · cases m <;> with_unfolding_all rfl

/-- The values that something begun holds on to. -/
def Pending.held : Pending → List Value
  | seq _ items => items
  | mark _ => []
  | target note => [note]

/-- What is held at each height of the stack fits into the levels that are left there. -/
def Sound : List Pending → Prop
  | [] => True
  | p :: outer =>
    outer.length < maxFormDepth ∧
      (∀ x ∈ p.held, Legible (maxFormDepth - (outer.length + 1)) x) ∧ Sound outer

def Reading.Sound : Reading → Prop
  | more stack => Value.Sound stack
  | done v => Legible maxFormDepth v

theorem complete_sound {v : Value} {stack : List Pending} (hs : Sound stack)
    (hv : Legible (maxFormDepth - stack.length) v) : (complete v stack).Sound := by
  induction stack generalizing v with
  | nil => exact hv
  | cons p outer ih =>
    obtain ⟨hlt, hheld, houter⟩ := hs
    have hlevel : maxFormDepth - outer.length = maxFormDepth - (outer.length + 1) + 1 := by omega
    have hhead := fun m => Legible.symbol m hv.pos
    cases p with
    | seq b items => exact ⟨hlt, List.forall_mem_cons.mpr ⟨hv, hheld⟩, houter⟩
    | mark m =>
      cases m with
      | withMeta => exact ⟨hlt, List.forall_mem_singleton.mpr hv, houter⟩
      | _ =>
        refine ih houter ?_
        rw [hlevel]
        exact Legible.ofList (by simp_all)
    | target note =>
      have hnote := hheld note (List.mem_singleton.mpr rfl)
      refine ih houter ?_
      rw [hlevel]
      exact Legible.ofList (by simp_all)

theorem start_sound {stack : List Pending} {t : Token} {r : Reading} (hs : Sound stack)
    (ht : ∀ cs, t = .word cs → IsWord cs) (h : start stack t = .ok r) : r.Sound := by
  unfold start at h
  split at h
  · cases h
  · rename_i hlt
    have hlt : stack.length < maxFormDepth := Nat.not_le.mp hlt
    have hlevel : 0 < maxFormDepth - stack.length := Nat.sub_pos_of_lt hlt
    cases t with
    | opening b =>
      cases h
      exact ⟨hlt, by simp [Pending.held], hs⟩
    | closing b => cases h
    | mark m =>
      cases h
      exact ⟨hlt, by simp [Pending.held], hs⟩
    | string body =>
      dsimp only at h
      split at h <;> cases h
      exact complete_sound hs (.leaf (.str _) (by simp [bare]) rfl hlevel)
    | word cs =>
      dsimp only at h
      cases hw : ofWord cs with
      | error f =>
        rw [hw] at h
        cases h
      | ok v =>
        rw [hw] at h
        cases h
        exact complete_sound hs (Legible.ofWord (ht cs rfl) hw hlevel)

theorem feed_sound {stack : List Pending} {t : Token} {r : Reading} (hs : Sound stack)
    (ht : ∀ cs, t = .word cs → IsWord cs) (h : feed stack t = .ok r) : r.Sound := by
  unfold feed at h
  split at h
  · rename_i b items outer b'
    split at h
    · obtain ⟨hlt, hheld, houter⟩ := hs
      have hlevel : maxFormDepth - outer.length = maxFormDepth - (outer.length + 1) + 1 := by omega
      cases hb : ofBracket b items.reverse with
      | error f =>
        rw [hb] at h
        cases h
      | ok v =>
        rw [hb] at h
        cases h
        refine complete_sound houter ?_
        rw [hlevel]
        exact Legible.ofBracket (fun x hx => hheld x (List.mem_reverse.mp hx)) hb
    · exact start_sound hs ht h
  · exact start_sound hs ht h

theorem readOn_sound {stack : List Pending} {ts rest : List Token} {v : Value} (hs : Sound stack)
    (ht : ∀ cs, .word cs ∈ ts → IsWord cs) (h : readOn stack ts = .ok (v, rest)) :
    Legible maxFormDepth v := by
  induction ts generalizing stack with
  | nil => cases h
  | cons t ts ih =>
    have hword : ∀ cs, t = .word cs → IsWord cs := fun cs hc => ht cs (by simp [hc])
    cases hf : feed stack t with
    | error f =>
      rw [readOn_error hf] at h
      cases h
    | ok r =>
      have hr := feed_sound hs hword hf
      rw [readOn_cons hf] at h
      cases r with
      | done w =>
        cases h
        exact hr
      | more stack => exact ih hr (fun cs hc => ht cs (List.mem_cons_of_mem _ hc)) h

/-- Whatever text is read, the value has a written form and is nested no deeper than can be printed. -/
theorem legible_of_read {source : String} {v : Value} (h : read source = .ok (some v)) :
    Legible maxFormDepth v := by
  have hword : ∀ cs, .word cs ∈ Token.scan source.toList → IsWord cs :=
    fun cs hc => Token.isWord_of_mem_scan hc
  rw [read] at h
  cases hts : Token.scan source.toList with
  | nil =>
    rw [hts] at h
    cases h
  | cons t ts =>
    rw [hts] at h hword
    cases hr : readOn [] (t :: ts) with
    | error f =>
      rw [ofTokens_ne_nil (List.cons_ne_nil t ts), hr] at h
      cases h
    | ok p =>
      rw [ofTokens_ne_nil (List.cons_ne_nil t ts), hr] at h
      cases h
      exact readOn_sound (show Sound [] from trivial) hword hr

theorem part_le_iff {v : Value} : (∀ n w, Part v n w → n ≤ 511) ↔ fits maxFormDepth v = true := by
  rw [fits_iff]
  exact forall₂_congr fun n w => imp_congr_right fun _ => Nat.lt_succ_iff.symm

/-- A value with a written form is read back from its text as an equal value if nothing in it stands
deeper than level 511, and otherwise the reading fails. Whatever any text is read as has a written
form, stands within these levels and is read back from its own text unchanged. -/
theorem read_print_read (heap : Heap) :
    (∀ v, Readable v → (∀ n w, Part v n w → n ≤ 511) →
      ∃ v', read (v.print heap .readable) = .ok (some v') ∧ v'.same v = true) ∧
    (∀ v, Readable v → (∃ n w, Part v n w ∧ 511 < n) →
      ∃ f, read (v.print heap .readable) = .error f ∧ f.kind = Kind.parse) ∧
    (∀ source v, read source = .ok (some v) →
      Readable v ∧ (∀ n w, Part v n w → n ≤ 511) ∧
        read (v.print heap .readable) = .ok (some v)) := by
  refine ⟨?_, ?_, ?_⟩
  · intro v hv hshallow
    refine ⟨v.bare, ?_, (same_iff v.bare v).mpr v.bare_bare⟩
    rw [read_print hv, if_pos (part_le_iff.mp hshallow)]
  · rintro v hv ⟨n, w, hp, hn⟩
    have hdeep : fits maxFormDepth v ≠ true := fun h =>
      Nat.not_le_of_lt hn (part_le_iff.mpr h n w hp)
    exact ⟨Cause.nesting.fault, by rw [read_print hv, if_neg hdeep], rfl⟩
  · intro source v h
    have hv := legible_of_read h
    refine ⟨hv.readable, part_le_iff.mpr hv.shallow, ?_⟩
    rw [read_print hv.readable, if_pos hv.shallow, hv.plain]

/-- So many lists, each but the innermost one around another. -/
def tower : Nat → Value
  | 0 => ofList []
  | n + 1 => ofList [tower n]

theorem readable_tower (n : Nat) : Readable (tower n) := by
  induction n with
  | zero => exact .list (by simp)
  | succ n ih => exact .list (List.forall_mem_singleton.mpr ih)

theorem part_tower (n : Nat) : Part (tower n) n (ofList []) := by
  induction n with
  | zero => exact .self _
  | succ n ih => exact .element rfl (List.mem_singleton.mpr rfl) ih

theorem read_print_read_cases :
    (∃ v', read ((ofVec [str "a\"\n", ofEntries [(.kw "k", ofList [sym "x", int (-7)])]]).print
        Heap.empty .readable) = .ok (some v') ∧
      v'.same (ofVec [str "a\"\n", ofEntries [(.kw "k", ofList [sym "x", int (-7)])]]) = true) ∧
    (∃ f, read ((tower 512).print Heap.empty .readable) = .error f ∧ f.kind = Kind.parse) ∧
    read ((ofList [sym "quote", sym "a"]).print Heap.empty .readable) =
      .ok (some (ofList [sym "quote", sym "a"])) := by
  obtain ⟨hback, hdeep, hread⟩ := read_print_read Heap.empty
  have hquote : read "'a" = .ok (some (ofList [sym "quote", sym "a"])) := by
    refine read_of_tokens rfl ?_
    with_unfolding_all rfl
  have hsym : ofWord "x".toList = .ok (sym "x") := by
    with_unfolding_all rfl
  refine ⟨hback _ ?_ ?_, hdeep _ (readable_tower 512) ⟨512, _, part_tower 512, by decide⟩,
    (hread _ _ hquote).2.2⟩
  · refine .vec (List.forall_mem_cons.mpr ⟨.str _, List.forall_mem_singleton.mpr ?_⟩)
    refine .map (List.pairwise_singleton _ _) (List.forall_mem_singleton.mpr (.kw (by decide)))
      (List.forall_mem_singleton.mpr (.list ?_))
    exact List.forall_mem_cons.mpr ⟨.sym (by decide) hsym, List.forall_mem_singleton.mpr (.int _)⟩
  · exact part_le_iff.mpr (by decide)

end MiniLisp.Value
