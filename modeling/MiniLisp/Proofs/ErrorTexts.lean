import MiniLisp.Proofs.Elision
import MiniLisp.Proofs.RoundTrip

namespace MiniLisp.Value

/-- Two texts that begin alike and then go on differently. -/
def Forks (a b : List Char) : Prop :=
  ∃ common x y r s, a = common ++ x :: r ∧ b = common ++ y :: s ∧ x ≠ y

namespace Forks

variable {a b : List Char}

theorem ne (h : Forks a b) : a ≠ b := by
  obtain ⟨common, x, y, r, s, rfl, rfl, hne⟩ := h
  intro heq
  exact hne (List.cons.inj (List.append_cancel_left heq)).1

theorem append_left (h : Forks a b) (front : List Char) : Forks (front ++ a) (front ++ b) := by
  obtain ⟨common, x, y, r, s, rfl, rfl, hne⟩ := h
  exact ⟨front ++ common, x, y, r, s, by simp, by simp, hne⟩

theorem append_right (h : Forks a b) (behind behind' : List Char) :
    Forks (a ++ behind) (b ++ behind') := by
  obtain ⟨common, x, y, r, s, rfl, rfl, hne⟩ := h
  exact ⟨common, x, y, r ++ behind, s ++ behind', by simp, by simp, hne⟩

/-- Rows of texts fork where the first of the texts does. -/
theorem joinTexts {α : Type} {f g : α → List Char} (sep : List Char) {items : List α}
    (h : ∀ y ∈ items, f y = g y ∨ Forks (f y) (g y)) {x : α} (hx : x ∈ items)
    (hfork : Forks (f x) (g x)) :
    Forks (Value.joinTexts sep (items.map f)) (Value.joinTexts sep (items.map g)) := by
  induction items with
  | nil => cases hx
  | cons y ys ih =>
    cases ys with
    | nil =>
      cases List.mem_singleton.mp hx
      simpa only [List.map_cons, List.map_nil, joinTexts_singleton] using hfork
    | cons z zs =>
      simp only [List.map_cons, joinTexts_cons]
      rcases h y List.mem_cons_self with heq | hy
      · rw [heq]
        rcases List.mem_cons.mp hx with rfl | hx
        · exact absurd heq hfork.ne
        · exact (ih (fun u hu => h u (List.mem_cons_of_mem _ hu)) hx).append_left _
      · exact (hy.append_right _ _).append_right _ _

end Forks

section Levels

variable {heap : Heap} {v w x : Value} {n m : Nat} {opening closing head : List Char}
  {items : List Value}

/-- Something nested stands so many levels deep in the value. -/
def NestedAt (heap : Heap) (n : Nat) (v : Value) : Prop :=
  ∃ w, Reached heap 0 v n w ∧ w.isNested = true

/-- A way is as long wherever it starts. -/
theorem Reached.shift (h : Reached heap n v m w) {n' m' : Nat} (heq : n + m' = n' + m) :
    Reached heap n' v m' w := by
  induction h generalizing n' with
  | self n v =>
    obtain rfl : m' = n' := by omega
    exact .self _ _
  | further step _ ih =>
    refine .further ?_ (ih (by omega))
    cases step with
    | element shown found mem => exact .element shown found mem
    | payload found => exact .payload found

theorem Reached.le (h : Reached heap n v m w) : n ≤ m := by
  induction h with
  | self => exact Nat.le_refl _
  | further _ _ ih => omega

theorem nestedAt_zero (h : v.isNested = true) : NestedAt heap 0 v :=
  ⟨v, .self 0 v, h⟩

theorem not_nestedAt_scalar (ha : v.enclosed? heap = none) (hc : v.thrown? = none) :
    ¬ NestedAt heap n v := by
  rintro ⟨w, hw, hnested⟩
  cases hw with
  | self => simp [isNested_eq _ heap, ha] at hnested
  | further step =>
    cases step with
    | element _ found => simp [ha] at found
    | payload found => simp [hc] at found

theorem nestedAt_enclosed (h : v.enclosed? heap = some (opening, items, closing)) :
    NestedAt heap (n + 1) v ↔ ∃ x ∈ items, NestedAt heap n x := by
  constructor
  · rintro ⟨w, hw, hnested⟩
    cases hw with
    | further step reached =>
      cases step with
      | element _ found mem =>
        rw [h] at found
        cases found
        exact ⟨_, mem, w, reached.shift (by omega), hnested⟩
      | payload found => simp [thrown?_of_isNested (isNested_of_enclosed h)] at found
  · rintro ⟨x, hx, w, hw, hnested⟩
    exact ⟨w, .further (.element id h hx) (hw.shift (by omega)), hnested⟩

theorem nestedAt_thrown (h : v.thrown? = some (head, x)) :
    NestedAt heap n v ↔ ∃ k, n = k + 1 ∧ NestedAt heap k x := by
  constructor
  · rintro ⟨w, hw, hnested⟩
    cases hw with
    | self => simp [thrown?_of_isNested hnested] at h
    | further step reached =>
      cases step with
      | element _ found => simp [thrown?_of_isNested (isNested_of_enclosed found)] at h
      | payload found =>
        rw [h] at found
        cases found
        cases n with
        | zero => exact absurd reached.le (by omega)
        | succ k => exact ⟨k, rfl, w, reached.shift (by omega), hnested⟩
  · rintro ⟨k, rfl, w, hw, hnested⟩
    exact ⟨w, .further (.payload h) (hw.shift (by omega)), hnested⟩

/-- Where nothing nested stands at a level, it makes no difference whether that level is printed. -/
theorem text_succ (h : ¬ NestedAt heap n v) (style : Style) :
    text heap style (n + 1) v = text heap style n v := by
  induction n generalizing v style with
  | zero =>
    rcases v.enclosed_or_thrown heap with
      ⟨ha, hc⟩ | ⟨opening, items, closing, hfound⟩ | ⟨head, x, hfound⟩
    · rw [text_scalar ha hc, text_scalar ha hc]
    · exact absurd (nestedAt_zero (isNested_of_enclosed hfound)) h
    · rw [text_thrown hfound, text_thrown hfound]
  | succ n ih =>
    rcases v.enclosed_or_thrown heap with
      ⟨ha, hc⟩ | ⟨opening, items, closing, hfound⟩ | ⟨head, x, hfound⟩
    · rw [text_scalar ha hc, text_scalar ha hc]
    · rw [text_enclosed hfound, text_enclosed hfound]
      have hitems : items.map (text heap style (n + 1)) = items.map (text heap style n) :=
        List.map_congr_left fun x hx =>
          ih (fun hn => h ((nestedAt_enclosed hfound).mpr ⟨x, hx, hn⟩)) style
      rw [hitems]
    · rw [text_thrown hfound, text_thrown hfound]
      exact congrArg (head ++ ·) (ih (fun hn => h ((nestedAt_thrown hfound).mpr ⟨n, rfl, hn⟩)) .display)

theorem opening_ne_dot (h : v.enclosed? heap = some (opening, items, closing)) :
    ∃ c cs, opening = c :: cs ∧ c ≠ '.' := by
  cases v <;> cases h <;> exact ⟨_, _, rfl, by decide⟩

/-- Where something nested stands at a level, its brackets stand in one text and dots in the other. -/
theorem text_forks (h : NestedAt heap n v) (style : Style) :
    Forks (text heap style n v) (text heap style (n + 1) v) := by
  induction n generalizing v style with
  | zero =>
    rcases v.enclosed_or_thrown heap with
      ⟨ha, hc⟩ | ⟨opening, items, closing, hfound⟩ | ⟨head, x, hfound⟩
    · exact absurd h (not_nestedAt_scalar ha hc)
    · obtain ⟨c, cs, rfl, hc⟩ := opening_ne_dot hfound
      rw [text_isNested (isNested_of_enclosed hfound), text_enclosed hfound]
      exact ⟨[], _, _, _, _, rfl, rfl, hc.symm⟩
    · obtain ⟨k, hk, -⟩ := (nestedAt_thrown hfound).mp h
      cases hk
  | succ n ih =>
    rcases v.enclosed_or_thrown heap with
      ⟨ha, hc⟩ | ⟨opening, items, closing, hfound⟩ | ⟨head, x, hfound⟩
    · exact absurd h (not_nestedAt_scalar ha hc)
    · obtain ⟨x, hx, hn⟩ := (nestedAt_enclosed hfound).mp h
      rw [text_enclosed hfound, text_enclosed hfound]
      -- the other items need not be the same in both texts: the first one that differs forks
      refine ((Forks.joinTexts [' '] (fun y _ => ?_) hx (ih hn style)).append_left _).append_right _ _
      by_cases hy : NestedAt heap n y
      · exact .inr (ih hy style)
      · exact .inl (text_succ hy style).symm
    · obtain ⟨k, hk, hn⟩ := (nestedAt_thrown hfound).mp h
      cases hk
      rw [text_thrown hfound, text_thrown hfound]
      exact (ih hn .display).append_left head

theorem text_succ_iff (style : Style) :
    text heap style (n + 1) v = text heap style n v ↔ ¬ NestedAt heap n v := by
  refine ⟨fun heq hn => ?_, fun h => text_succ h style⟩
  exact (text_forks hn style).ne heq.symm

end Levels

theorem print_error (heap : Heap) (style : Style) (kind : Kind) (payload : Value) :
    (error kind payload).print heap style =
      kind.tag ++ ": " ++ (caught kind payload).print heap style := by
  apply String.toList_inj.mp
  simp only [print, String.toList_append, String.toList_ofList]
  rfl

theorem print_caught (heap : Heap) (style : Style) (kind : Kind) (payload : Value) :
    (caught kind payload).print heap style = String.ofList (text heap .display 511 payload) :=
  rfl

/-- The texts of an error agree where nothing nested stands 511 levels deep in what was thrown. -/
theorem print_caught_iff (heap : Heap) (style : Style) (kind : Kind) (payload : Value) :
    (caught kind payload).print heap style = payload.print heap .display ↔
      ¬ NestedAt heap 511 payload := by
  rw [print_caught, ← text_succ_iff .display, eq_comm (a := text heap .display (511 + 1) payload),
    Value.print, String.ofList_inj]
  rfl

/-- The error value prints as the failure describes itself in the same cases. -/
theorem print_error_iff (heap : Heap) (style : Style) (kind : Kind) (payload : Value) :
    (error kind payload).print heap style = Fault.describe heap ⟨kind, payload⟩ ↔
      ¬ NestedAt heap 511 payload := by
  rw [← print_caught_iff heap style kind payload, print_error, Fault.describe]
  exact String.append_right_inj _

theorem nestedAt_tower (heap : Heap) (n : Nat) : NestedAt heap n (tower n) := by
  induction n with
  | zero => exact nestedAt_zero rfl
  | succ n ih => exact (nestedAt_enclosed rfl).mpr ⟨tower n, List.mem_singleton.mpr rfl, ih⟩

/-- An error is written in three ways. The failure describes itself by its kind and its payload for
display, and the error value prints, in either style, as its kind and what the caught error prints as.
A caught error prints as the tree of what was thrown, cut one level higher than when that prints by
itself; so both come out the same, and likewise failure and error value, exactly if nothing nested
stands 511 levels deep in what was thrown. -/
theorem error_texts (heap : Heap) (style : Style) (kind : Kind) (payload : Value) :
    Fault.describe heap ⟨kind, payload⟩ = kind.tag ++ ": " ++ payload.print heap .display ∧
      (error kind payload).print heap style =
        kind.tag ++ ": " ++ (caught kind payload).print heap style ∧
      (∃ tree, Unrolls heap (511 ≤ ·) 0 payload tree ∧
        (caught kind payload).print heap style = String.ofList (tree.text .display)) ∧
      ((caught kind payload).print heap style = payload.print heap .display ↔
        ¬ ∃ w, Reached heap 0 payload 511 w ∧ w.isNested = true) ∧
      ((error kind payload).print heap style = Fault.describe heap ⟨kind, payload⟩ ↔
        ¬ ∃ w, Reached heap 0 payload 511 w ∧ w.isNested = true) := by
  obtain ⟨tree, htree, htext⟩ := exists_unrolled heap 511 0 payload
  refine ⟨rfl, print_error heap style kind payload, ⟨tree, htree, ?_⟩,
    print_caught_iff heap style kind payload, print_error_iff heap style kind payload⟩
  rw [htext]
  exact print_caught heap style kind payload

/-- Of 512 lists inside one another the innermost one is lost when they are thrown and caught. -/
theorem error_texts_differ :
    (caught .user (tower 511)).print Heap.empty .readable ≠ (tower 511).print Heap.empty .display ∧
      (error .user (tower 511)).print Heap.empty .readable ≠
        Fault.describe Heap.empty ⟨.user, tower 511⟩ :=
  ⟨fun h => (print_caught_iff _ _ _ _).mp h (nestedAt_tower _ 511),
    fun h => (print_error_iff _ _ _ _).mp h (nestedAt_tower _ 511)⟩

end MiniLisp.Value
