import MiniLisp.Value.Equality

namespace MiniLisp.Value

/-- The value with all metadata removed, at every depth. -/
def bare : Value → Value
  | nil => nil
  | bool b => bool b
  | int n => int n
  | str text => str text
  | sym name => sym name
  | kw name => kw name
  | list items _ => list (items.map bare) nil
  | vec items _ => vec (items.map bare) nil
  | map entries _ => map (entries.map fun e => (e.1, bare e.2)) nil
  | native op _ => native op nil
  | fn id expander _ => fn id expander nil
  | atom cell _ => atom cell nil
  | error kind payload => error kind payload.bare
  | caught kind payload => caught kind payload.bare
termination_by v => sizeOf v
decreasing_by
  all_goals simp_wf
  all_goals first
    | omega
    | (rename_i h; have := List.sizeOf_lt_of_mem h; omega)
    | (rename_i e h; have := List.sizeOf_lt_of_mem h; cases e; simp_all; omega)

theorem bare_bare (v : Value) : v.bare.bare = v.bare := by
  induction v using bare.induct with
  | case9 entries note ih =>
    simp only [bare, List.map_map]
    exact congrArg (map · nil) (List.map_congr_left fun e he => congrArg (Prod.mk e.1) (ih e he))
  | _ => simp_all [bare]

/-- The two values of a pair differ in metadata only. -/
def Alike (p : Value × Value) : Prop :=
  p.1.bare = p.2.bare

theorem zip_alike {xs ys : List Value} (h : xs.length = ys.length) :
    xs.map bare = ys.map bare ↔ ∀ p ∈ xs.zip ys, Alike p := by
  induction xs generalizing ys with
  | nil => cases ys <;> simp_all
  | cons x xs ih =>
    cases ys with
    | nil => simp at h
    | cons y ys =>
      simp only [List.map_cons, List.cons.injEq, List.zip_cons_cons, List.forall_mem_cons, Alike]
      rw [ih (by simpa using h)]
      rfl

theorem entries_alike {es fs : List (Key × Value)} (h : es.map (·.1) = fs.map (·.1)) :
    (es.map fun e => (e.1, bare e.2)) = (fs.map fun e => (e.1, bare e.2)) ↔
      ∀ p ∈ (es.map (·.2)).zip (fs.map (·.2)), Alike p := by
  induction es generalizing fs with
  | nil => cases fs <;> simp_all
  | cons e es ih =>
    cases fs with
    | nil => simp at h
    | cons f fs =>
      simp only [List.map_cons, List.cons.injEq] at h
      simp only [List.map_cons, List.cons.injEq, Prod.mk.injEq, List.zip_cons_cons,
        List.forall_mem_cons, Alike, h.1, true_and]
      rw [ih h.2]
      rfl

/-- Values with parts are alike exactly if their parts are, pair by pair. -/
theorem alike_iff_parts {a b : Value} {pairs : List (Value × Value)} (h : parts? a b = some pairs) :
    Alike (a, b) ↔ ∀ p ∈ pairs, Alike p := by
  unfold parts? at h
  split at h <;> split at h <;> cases h
  · rename_i hl
    simp only [Alike, bare, list.injEq, and_true, List.mem_reverse]
    exact zip_alike hl
  · rename_i hl
    simp only [Alike, bare, vec.injEq, and_true, List.mem_reverse]
    exact zip_alike hl
  · rename_i hk
    simp only [Alike, bare, map.injEq, and_true, List.mem_reverse]
    exact entries_alike hk
  · rename_i hk
    simp [Alike, bare, hk]
  · rename_i hk
    simp [Alike, bare, hk]
  · rename_i hl
    unfold sameLeaf at hl
    split at hl <;> simp_all [Alike, bare]

/-- Values that are alike are never told apart by their shape. -/
theorem parts_of_alike {a b : Value} (h : Alike (a, b)) : ∃ pairs, parts? a b = some pairs := by
  cases a <;> cases b <;> simp only [Alike, bare, reduceCtorEq] at h
  case list.list =>
    have hl := congrArg List.length (list.inj h).1
    exact ⟨_, if_pos (by simpa using hl)⟩
  case vec.vec =>
    have hl := congrArg List.length (vec.inj h).1
    exact ⟨_, if_pos (by simpa using hl)⟩
  case map.map =>
    have hk := congrArg (List.map (·.1)) (map.inj h).1
    exact ⟨_, if_pos (by simpa [Function.comp_def] using hk)⟩
  all_goals simp_all [parts?, sameLeaf]

theorem not_alike {a b : Value} (h : parts? a b = none) : ¬ Alike (a, b) := by
  intro he
  obtain ⟨pairs, hp⟩ := parts_of_alike he
  simp [hp] at h

theorem allSame_iff (pairs : List (Value × Value)) :
    allSame pairs = true ↔ ∀ p ∈ pairs, Alike p := by
  fun_induction allSame pairs with
  | case1 => simp
  | case2 a b pending hn => simp [not_alike hn]
  | case3 a b pending pairs hs _ ih =>
    rw [ih, List.forall_mem_append, List.forall_mem_cons, alike_iff_parts hs]

theorem sameNear_iff (levels : Nat) (a b : Value) :
    (sameNear levels a b).1 = true ↔ a.bare = b.bare := by
  induction levels generalizing a b with
  | zero => simp [sameNear, allSame_iff, Alike]
  | succ levels ih =>
    simp only [sameNear, withPtrEq]
    cases hp : parts? a b with
    | none => simpa [Alike] using not_alike hp
    | some pairs =>
      simp only [List.all_eq_true, ih]
      exact (alike_iff_parts hp).symm

/-- Two values are equal exactly if they agree in everything but metadata. -/
theorem same_iff (a b : Value) : a.same b = true ↔ a.bare = b.bare :=
  sameNear_iff sharingDepth a b

end MiniLisp.Value
