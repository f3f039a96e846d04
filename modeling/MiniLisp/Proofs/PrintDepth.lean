import MiniLisp.Proofs.Elision
import MiniLisp.Proofs.Rethrowing

namespace MiniLisp.Value

/-- What is printed, and the calls of the printer that lead to it, with the depth and the value of each. -/
structure Printout where
  text : List Char
  calls : List (Nat × Value)

/-- Prints a value at a depth. -/
def write (heap : Heap) (style : Style) (depth : Nat) (v : Value) : Printout :=
  match v.enclosed? heap with
  | some (opening, items, closing) =>
    if maxFormDepth ≤ depth then ⟨elision, [(depth, v)]⟩
    else
      let parts := items.map (write heap style (depth + 1))
      ⟨opening ++ joinTexts [' '] (parts.map Printout.text) ++ closing,
        (depth, v) :: parts.flatMap Printout.calls⟩
  | none =>
    match _h : v.thrown? with
    | some (head, payload) =>
      let part := write heap .display (depth + 1) payload
      ⟨head ++ part.text, (depth, v) :: part.calls⟩
    | none => ⟨scalarText style v, [(depth, v)]⟩
termination_by (maxFormDepth - depth, sizeOf v)
decreasing_by
  · exact .left _ _ (by omega)
  · by_cases hdeep : depth < maxFormDepth
    · exact .left _ _ (by omega)
    · rw [Nat.sub_eq_zero_of_le (Nat.le_of_not_lt hdeep), Nat.sub_eq_zero_of_le (by omega)]
      exact .right _ (sizeOf_thrown _h)

/-- `Called heap n v m w`: to print `v` at depth `n`, the printer comes to print `w` at depth `m`. -/
inductive Called (heap : Heap) : Nat → Value → Nat → Value → Prop where
  | self (n : Nat) (v : Value) : Called heap n v n v
  | further {n m : Nat} {v w x : Value} (step : GoesInto heap (512 ≤ ·) n v x)
      (called : Called heap (n + 1) x m w) : Called heap n v m w

section Calls

variable {heap : Heap} {style : Style} {v x : Value} {n m : Nat} {opening closing head : List Char}
  {items : List Value}

theorem write_scalar (ha : v.enclosed? heap = none) (hc : v.thrown? = none) (style : Style) (n : Nat) :
    write heap style n v = ⟨scalarText style v, [(n, v)]⟩ := by
  rw [write]
  simp only [ha]
  split
  · next found => simp [hc] at found
  · rfl

theorem write_thrown (h : v.thrown? = some (head, x)) (heap : Heap) (style : Style) (n : Nat) :
    write heap style n v =
      ⟨head ++ (write heap .display (n + 1) x).text,
        (n, v) :: (write heap .display (n + 1) x).calls⟩ := by
  have ha : v.enclosed? heap = none := by
    cases v <;> first | rfl | cases h
  rw [write]
  simp only [ha]
  split
  · next found =>
    rw [h] at found
    cases found
    rfl
  · next found => simp [h] at found

theorem write_elided (h : v.isNested = true) (hn : 512 ≤ n) :
    write heap style n v = ⟨elision, [(n, v)]⟩ := by
  obtain ⟨opening, items, closing, hfound⟩ :
      ∃ opening items closing, v.enclosed? heap = some (opening, items, closing) := by
    rw [isNested_eq v heap, Option.isSome_iff_exists] at h
    obtain ⟨⟨opening, items, closing⟩, h⟩ := h
    exact ⟨opening, items, closing, h⟩
  rw [write, hfound]
  simp only
  rw [if_pos (show maxFormDepth ≤ n from hn)]

theorem write_enclosed (h : v.enclosed? heap = some (opening, items, closing)) (hn : n < 512) :
    write heap style n v =
      ⟨opening ++ joinTexts [' '] (items.map fun x => (write heap style (n + 1) x).text) ++ closing,
        (n, v) :: items.flatMap fun x => (write heap style (n + 1) x).calls⟩ := by
  rw [write, h]
  simp only
  rw [if_neg (show ¬ maxFormDepth ≤ n from Nat.not_le_of_lt hn)]
  simp only [List.map_map, List.flatMap_map, Function.comp_def]

/-- The calls are those of the printer itself: the text beside them is the one it makes. -/
theorem write_text (heap : Heap) (style : Style) (n : Nat) (v : Value) :
    (write heap style n v).text = Value.text heap style (512 - n) v := by
  induction hhere : (n, v) using (goesInto_wellFounded heap 512).induction generalizing n v style with
  | h here ih =>
    subst hhere
    rcases v.enclosed_or_thrown heap with
      ⟨ha, hc⟩ | ⟨opening, items, closing, hfound⟩ | ⟨head, x, hfound⟩
    · rw [write_scalar ha hc, text_scalar ha hc]
    · by_cases hn : 512 ≤ n
      · rw [write_elided (isNested_of_enclosed hfound) hn, Nat.sub_eq_zero_of_le hn,
          text_isNested (isNested_of_enclosed hfound)]
        rfl
      · have hlevels : 512 - n = 512 - (n + 1) + 1 := by omega
        rw [write_enclosed hfound (Nat.lt_of_not_le hn), hlevels, text_enclosed hfound]
        have hitems : items.map (fun x => (write heap style (n + 1) x).text) =
            items.map (Value.text heap style (512 - (n + 1))) :=
          List.map_congr_left fun x hx => ih (n + 1, x) ⟨rfl, .element hn hfound hx⟩ style (n + 1) x rfl
        rw [hitems]
    · rw [write_thrown hfound, text_thrown hfound, Nat.sub_sub]
      exact congrArg (head ++ ·) (ih (n + 1, x) ⟨rfl, .payload hfound⟩ .display (n + 1) x rfl)

theorem mem_calls_self (heap : Heap) (style : Style) (n : Nat) (v : Value) :
    (n, v) ∈ (write heap style n v).calls := by
  rcases v.enclosed_or_thrown heap with
    ⟨ha, hc⟩ | ⟨opening, items, closing, hfound⟩ | ⟨head, x, hfound⟩
  · rw [write_scalar ha hc]
    exact List.mem_cons_self
  · by_cases hn : 512 ≤ n
    · rw [write_elided (isNested_of_enclosed hfound) hn]
      exact List.mem_cons_self
    · rw [write_enclosed hfound (Nat.lt_of_not_le hn)]
      exact List.mem_cons_self
  · rw [write_thrown hfound]
    exact List.mem_cons_self

theorem wraps_of_thrown (h : v.thrown? = some (head, x)) : v.wraps = x.wraps + 1 := by
  cases v <;> cases h <;> rfl

theorem wraps_of_calm (h : v.thrown? = none) : v.wraps = 0 := by
  cases v <;> first | rfl | cases h

theorem Called.of_mem {u : Value} (h : (m, u) ∈ (write heap style n v).calls) :
    Called heap n v m u := by
  induction hhere : (n, v) using (goesInto_wellFounded heap 512).induction generalizing n v style with
  | h here ih =>
    subst hhere
    rcases v.enclosed_or_thrown heap with
      ⟨ha, hc⟩ | ⟨opening, items, closing, hfound⟩ | ⟨head, x, hfound⟩
    · rw [write_scalar ha hc, List.mem_singleton] at h
      cases h
      exact .self _ _
    · by_cases hn : 512 ≤ n
      · rw [write_elided (isNested_of_enclosed hfound) hn, List.mem_singleton] at h
        cases h
        exact .self _ _
      · rw [write_enclosed hfound (Nat.lt_of_not_le hn), List.mem_cons, List.mem_flatMap] at h
        rcases h with h | ⟨x, hx, h⟩
        · cases h
          exact .self _ _
        · have hstep : GoesInto heap (512 ≤ ·) n v x := .element hn hfound hx
          exact .further hstep (ih (n + 1, x) ⟨rfl, hstep⟩ h rfl)
    · rw [write_thrown hfound, List.mem_cons] at h
      rcases h with h | h
      · cases h
        exact .self _ _
      · have hstep : GoesInto heap (512 ≤ ·) n v x := .payload hfound
        exact .further hstep (ih (n + 1, x) ⟨rfl, hstep⟩ h rfl)

theorem Called.mem {u : Value} (h : Called heap n v m u) (style : Style) :
    (m, u) ∈ (write heap style n v).calls := by
  induction h generalizing style with
  | self n v => exact mem_calls_self heap style n v
  | further step _ ih =>
    cases step with
    | element shown found mem =>
      rw [write_enclosed found (Nat.lt_of_not_le shown), List.mem_cons, List.mem_flatMap]
      exact .inr ⟨_, mem, ih style⟩
    | payload found =>
      rw [write_thrown found, List.mem_cons]
      exact .inr (ih .display)

theorem mem_calls_iff {u : Value} : (m, u) ∈ (write heap style n v).calls ↔ Called heap n v m u :=
  ⟨.of_mem, fun h => h.mem style⟩

theorem Called.trans {u w : Value} {k : Nat} (h : Called heap n v m u) (h' : Called heap m u k w) :
    Called heap n v k w := by
  induction h with
  | self => exact h'
  | further step _ ih => exact .further step (ih h')

/-- Behind the cut-off a call goes on into errors only. -/
theorem Called.behind_cut {u : Value} (h : Called heap n v m u) (hn : 512 ≤ n) :
    n ≤ m ∧ m ≤ n + v.wraps := by
  induction h with
  | self n v => exact ⟨Nat.le_refl n, Nat.le_add_right n _⟩
  | further step _ ih =>
    cases step with
    | element shown => exact absurd hn shown
    | payload found =>
      obtain ⟨hlow, hhigh⟩ := ih (by omega)
      rw [wraps_of_thrown found]
      omega

/-- It goes into all errors that stand inside one another, wherever it begins. -/
theorem exists_called (heap : Heap) (n : Nat) {k : Nat} (h : k ≤ v.wraps) :
    ∃ u, Called heap n v (n + k) u := by
  induction k generalizing n v with
  | zero => exact ⟨v, .self n v⟩
  | succ k ih =>
    cases hfound : v.thrown? with
    | none => simp [wraps_of_calm hfound] at h
    | some found =>
      obtain ⟨head, x⟩ := found
      rw [wraps_of_thrown hfound] at h
      obtain ⟨u, hu⟩ := ih (n + 1) (Nat.le_of_succ_le_succ h)
      rw [Nat.succ_add_eq_add_succ] at hu
      exact ⟨u, .further (.payload hfound) hu⟩

theorem Called.at_cut {u : Value} (h : Called heap n v m u) (hn : n ≤ 512) (hm : 512 ≤ m) :
    ∃ w, Called heap n v 512 w ∧ m ≤ 512 + w.wraps := by
  -- every call is one level deeper than the one before, so one of them is at the cut-off
  induction h with
  | self n v =>
    obtain rfl : n = 512 := Nat.le_antisymm hn hm
    exact ⟨v, .self 512 v, Nat.le_add_right _ _⟩
  | @further n m v u x step called ih =>
    rcases Nat.lt_or_eq_of_le hn with hn | rfl
    · obtain ⟨w, hw, hle⟩ := ih hn hm
      exact ⟨w, .further step hw, hle⟩
    · exact ⟨v, .self 512 v, ((Called.further step called).behind_cut (Nat.le_refl 512)).2⟩

end Calls

/-- The calls of the printer, listed beside its text, go deeper than the cut-off just where errors stand
inside one another there: a depth of 512 or more is reached if at depth 512 the printer comes to a value
with so many errors around its inside. So the depth never exceeds 513 exactly if it comes to no error
there that holds another error. -/
theorem print_depths (heap : Heap) (style : Style) (v : Value) :
    String.ofList (write heap style 0 v).text = v.print heap style ∧
      (∀ n, 512 ≤ n → ((∃ u, (n, u) ∈ (write heap style 0 v).calls) ↔
        ∃ u, (512, u) ∈ (write heap style 0 v).calls ∧ n ≤ 512 + u.wraps)) ∧
      ((∀ c ∈ (write heap style 0 v).calls, c.1 ≤ 513) ↔
        ∀ u, (512, u) ∈ (write heap style 0 v).calls → u.wraps ≤ 1) := by
  have hreaches : ∀ n, 512 ≤ n → ((∃ u, (n, u) ∈ (write heap style 0 v).calls) ↔
      ∃ u, (512, u) ∈ (write heap style 0 v).calls ∧ n ≤ 512 + u.wraps) := by
    intro n hn
    simp only [mem_calls_iff]
    constructor
    · rintro ⟨u, hu⟩
      exact hu.at_cut (Nat.zero_le 512) hn
    · rintro ⟨w, hw, hle⟩
      obtain ⟨k, rfl⟩ := Nat.exists_eq_add_of_le hn
      obtain ⟨u, hu⟩ := exists_called heap 512 (Nat.le_of_add_le_add_left hle)
      exact ⟨u, hw.trans hu⟩
  refine ⟨?_, hreaches, ?_⟩
  · rw [write_text]
    rfl
  · constructor
    · intro hall u hu
      refine Nat.le_of_not_lt fun hwraps => ?_
      obtain ⟨w, hw⟩ := (hreaches 514 (by omega)).mpr ⟨u, hu, by omega⟩
      exact absurd (show 514 ≤ 513 from hall _ hw) (by decide)
    · rintro hall ⟨n, u⟩ hu
      refine Nat.le_of_not_lt fun hn => ?_
      obtain ⟨w, hw, hle⟩ := (hreaches n (by omega)).mp ⟨u, hu⟩
      have hwraps := hall w hw
      omega

/-- No bound holds for all values of all sessions: what is thrown and caught again and again is printed
as deep as it has been thrown often. -/
theorem print_depths_unbounded : ¬ ∃ bound, ∀ (global : ScopeId) (w w' : World) (fuel : Nat)
    (source : String) (v : Value), Session.Arises global w →
      (Session.evalText fuel source global).outcome w = some (.ok (some v), w') →
      ∀ c ∈ (write w'.heap .readable 0 v).calls, c.1 ≤ bound := by
  rintro ⟨bound, hbound⟩
  obtain ⟨global, w, v, hw, hready, hwraps⟩ := Session.exists_wrapped (bound + 1)
  have hgives : Gives (199 + 1) (.sym "e") global w v w := .symbol hready.bound hready.settled
  obtain ⟨fuel, htext⟩ := Session.evalText_of_gives Session.read_name hgives
  obtain ⟨u, hu⟩ := exists_called w.heap 0 (Nat.le_of_eq hwraps.symm)
  have hle := hbound global w w fuel "e" v hw htext _ (hu.mem .readable)
  simp only at hle
  omega

end MiniLisp.Value
