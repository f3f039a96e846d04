import MiniLisp.Value

namespace MiniLisp.Value

/-- Equality of values that hold no other values besides metadata. -/
def sameLeaf : Value → Value → Bool
  | nil, nil => true
  | bool a, bool b => a == b
  | int a, int b => a == b
  | str a, str b => a == b
  | sym a, sym b => a == b
  | kw a, kw b => a == b
  | native a _, native b _ => a == b
  | fn a e _, fn b f _ => a == b && e == f
  | atom a _, atom b _ => a == b
  | _, _ => false

/-- The pairs of parts that have to be equal for two values to be equal, the last parts first; `none`
if the values differ whatever their parts are. -/
def parts? : Value → Value → Option (List (Value × Value))
  | list xs _, list ys _ | vec xs _, vec ys _ =>
    if xs.length = ys.length then some (xs.zip ys).reverse else none
  | map es _, map fs _ =>
    if es.map (·.1) = fs.map (·.1) then some ((es.map (·.2)).zip (fs.map (·.2))).reverse else none
  | error k a, error l b | caught k a, caught l b => if k = l then some [(a, b)] else none
  | a, b => if sameLeaf a b then some [] else none

/-- The size of the work on a list of pairs. -/
noncomputable def pairsSize : List (Value × Value) → Nat
  | [] => 0
  | (a, _) :: pairs => sizeOf a + pairsSize pairs

theorem pairsSize_append (ps qs : List (Value × Value)) :
    pairsSize (ps ++ qs) = pairsSize ps + pairsSize qs := by
  induction ps with
  | nil => simp only [List.nil_append, pairsSize, Nat.zero_add]
  | cons p ps ih => simp only [List.cons_append, pairsSize, ih, Nat.add_assoc]

theorem pairsSize_reverse (pairs : List (Value × Value)) :
    pairsSize pairs.reverse = pairsSize pairs := by
  induction pairs with
  | nil => rfl
  | cons p pairs ih =>
    simp only [List.reverse_cons, pairsSize_append, pairsSize, ih]
    omega

theorem pairsSize_zip (xs ys : List Value) : pairsSize (xs.zip ys) ≤ sizeOf xs := by
  induction xs generalizing ys with
  | nil => exact Nat.zero_le _
  | cons x xs ih =>
    cases ys with
    | nil => exact Nat.zero_le _
    | cons y ys =>
      have := ih ys
      simp only [pairsSize, List.zip_cons_cons, List.cons.sizeOf_spec]
      omega

theorem sizeOf_values (es : List (Key × Value)) : sizeOf (es.map (·.2)) ≤ sizeOf es := by
  induction es with
  | nil => exact Nat.le_refl _
  | cons e es ih =>
    cases e
    simp only [List.map_cons, List.cons.sizeOf_spec, Prod.mk.sizeOf_spec]
    omega

theorem sizeOf_pos (a : Value) : 0 < sizeOf a := by
  cases a <;> exact Nat.lt_of_lt_of_le Nat.zero_lt_one (by grind)

theorem pairsSize_parts {a b : Value} {pairs : List (Value × Value)} (h : parts? a b = some pairs) :
    pairsSize pairs < sizeOf a := by
  unfold parts? at h
  split at h <;> split at h <;> cases h
  · rename_i xs _ ys _ _
    have := pairsSize_zip xs ys
    rw [pairsSize_reverse, list.sizeOf_spec]
    omega
  · rename_i xs _ ys _ _
    have := pairsSize_zip xs ys
    rw [pairsSize_reverse, vec.sizeOf_spec]
    omega
  · rename_i es _ fs _ _
    have := pairsSize_zip (es.map (·.2)) (fs.map (·.2))
    have := sizeOf_values es
    rw [pairsSize_reverse, map.sizeOf_spec]
    omega
  · simp only [pairsSize, error.sizeOf_spec]
    omega
  · simp only [pairsSize, caught.sizeOf_spec]
    omega
  · exact sizeOf_pos a

/-- Whether the two values of each pair are equal. -/
def allSame : List (Value × Value) → Bool
  | [] => true
  | (a, b) :: pending =>
    match h : parts? a b with
    | none => false
    | some pairs =>
      have : pairsSize (pairs ++ pending) < pairsSize ((a, b) :: pending) := by
        have := pairsSize_parts h
        simp only [pairsSize, pairsSize_append]
        omega
      allSame (pairs ++ pending)
termination_by pairs => pairsSize pairs

theorem eq_of_mem_zip_self {xs : List Value} {p : Value × Value} (h : p ∈ xs.zip xs) :
    p.1 = p.2 := by
  induction xs with
  | nil => simp at h
  | cons x xs ih =>
    rcases List.mem_cons.mp h with rfl | h
    · rfl
    · exact ih h

theorem parts?_self (a : Value) : ∃ pairs, parts? a a = some pairs ∧ ∀ p ∈ pairs, p.1 = p.2 := by
  cases a <;> simp [parts?, sameLeaf] <;>
    intro a b h <;> exact eq_of_mem_zip_self h

theorem allSame_self {pairs : List (Value × Value)} (h : ∀ p ∈ pairs, p.1 = p.2) :
    allSame pairs = true := by
  fun_induction allSame pairs with
  | case1 => rfl
  | case2 a b pending hn =>
    have hab : a = b := h (a, b) (by simp)
    subst hab
    obtain ⟨ps, hs, _⟩ := parts?_self a
    simp [hn] at hs
  | case3 a b pending ps hs _ ih =>
    have hab : a = b := h (a, b) (by simp)
    subst hab
    obtain ⟨qs, hq, he⟩ := parts?_self a
    rw [hs] at hq
    cases hq
    refine ih fun p hp => ?_
    rcases List.mem_append.mp hp with hp | hp
    · exact he p hp
    · exact h p (by simp [hp])

/-- Equality that takes at once what two values share in memory, down to a number of levels. Values
with many shared parts are compared without going through each part as often as it occurs. -/
def sameNear : Nat → (a b : Value) → { same : Bool // a = b → same = true }
  | 0, a, b => ⟨allSame [(a, b)], fun h => allSame_self (by simp [h])⟩
  | levels + 1, a, b =>
    have self : a = b → (match parts? a b with
        | none => false
        | some pairs => pairs.all fun p => (sameNear levels p.1 p.2).1) = true := by
      rintro rfl
      obtain ⟨pairs, hs, he⟩ := parts?_self a
      simp only [hs, List.all_eq_true]
      exact fun p hp => (sameNear levels p.1 p.2).2 (he p hp)
    ⟨withPtrEq a b (fun _ => match parts? a b with
        | none => false
        | some pairs => pairs.all fun p => (sameNear levels p.1 p.2).1) self, self⟩

/-- How many levels are searched for shared parts. -/
def sharingDepth : Nat := 1000000

/-- Metadata plays no part, functions and atoms are equal by identity, and a list never equals a vector. -/
def same (a b : Value) : Bool :=
  (sameNear sharingDepth a b).1

end MiniLisp.Value
