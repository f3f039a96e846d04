import MiniLisp.Proofs.FailFast
import MiniLisp.Proofs.ReadBack

namespace MiniLisp

theorem Native.ofName?_name (op : Native) : ofName? op.name = some op := by
  have hall : (all.all fun op => ofName? op.name == some op) = true := by
    decide +kernel
  exact eq_of_beq (List.all_eq_true.mp hall op (mem_all op))

theorem Native.name_inj {op other : Native} : op.name = other.name ↔ op = other := by
  constructor
  · intro h
    have hname := congrArg ofName? h
    rw [ofName?_name, ofName?_name] at hname
    exact Option.some.inj hname
  · rintro rfl
    rfl

theorem Entries.find?_mapValues {κ ν μ : Type} [DecidableEq κ] (key : κ) (es : Entries κ ν)
    (f : ν → μ) : find? key (es.map fun e => (e.1, f e.2)) = (find? key es).map f := by
  induction es with
  | nil => rfl
  | cons e es ih =>
    simp only [List.map_cons, find?, ih]
    split <;> rfl

namespace Value

/-- Two values of the same shape that are equal part by part. Functions and atoms are equal if they are
the same, and what is noted about a value plays no part. -/
inductive Equal : Value → Value → Prop where
  | nil : Equal nil nil
  | bool (b : Bool) : Equal (bool b) (bool b)
  | int (n : Int64) : Equal (int n) (int n)
  | str (text : String) : Equal (str text) (str text)
  | sym (name : String) : Equal (sym name) (sym name)
  | kw (name : String) : Equal (kw name) (kw name)
  | list {xs ys : List Value} {m n : Value} (length : xs.length = ys.length)
      (elements : ∀ p ∈ xs.zip ys, Equal p.1 p.2) : Equal (list xs m) (list ys n)
  | vec {xs ys : List Value} {m n : Value} (length : xs.length = ys.length)
      (elements : ∀ p ∈ xs.zip ys, Equal p.1 p.2) : Equal (vec xs m) (vec ys n)
  | map {es fs : List (Key × Value)} {m n : Value} (keys : es.map (·.1) = fs.map (·.1))
      (values : ∀ p ∈ (es.map (·.2)).zip (fs.map (·.2)), Equal p.1 p.2) :
      Equal (map es m) (map fs n)
  | native {op other : Native} {m n : Value} (name : op.name = other.name) :
      Equal (native op m) (native other n)
  | fn (id : FnId) (expander : Bool) (m n : Value) : Equal (fn id expander m) (fn id expander n)
  | atom (cell : CellId) (m n : Value) : Equal (atom cell m) (atom cell n)
  | error (kind : Kind) {a b : Value} (payload : Equal a b) : Equal (error kind a) (error kind b)
  | caught (kind : Kind) {a b : Value} (payload : Equal a b) : Equal (caught kind a) (caught kind b)

/-- Two values that are made around the same items, as those are that share them in memory. -/
inductive SharesItems : Value → Value → Prop where
  | list (items : List Value) (m n : Value) : SharesItems (list items m) (list items n)
  | vec (items : List Value) (m n : Value) : SharesItems (vec items m) (vec items n)
  | map (entries : List (Key × Value)) (m n : Value) : SharesItems (map entries m) (map entries n)

/-- One turn of the work on a list of pairs: the parts of the first pair are taken instead of it. A pair
that shares its items may be passed over. -/
inductive Turn : List (Value × Value) → List (Value × Value) → Prop where
  | parts {a b : Value} {pairs pending : List (Value × Value)} (found : parts? a b = some pairs) :
      Turn ((a, b) :: pending) (pairs ++ pending)
  | pass {a b : Value} {pending : List (Value × Value)} (shared : SharesItems a b) :
      Turn ((a, b) :: pending) pending

/-- The work on a list of pairs can end with the answer. -/
inductive Answers : List (Value × Value) → Bool → Prop where
  | done : Answers [] true
  | differ {a b : Value} {pending : List (Value × Value)} (apart : parts? a b = none) :
      Answers ((a, b) :: pending) false
  | turn {pending next : List (Value × Value)} {answer : Bool} (turn : Turn pending next)
      (answers : Answers next answer) : Answers pending answer

theorem Equal.exists_parts {a b : Value} (h : Equal a b) : ∃ pairs, parts? a b = some pairs := by
  cases h with
  | list length | vec length => exact ⟨_, if_pos length⟩
  | map keys => exact ⟨_, if_pos keys⟩
  | native name => simp [parts?, sameLeaf, Native.name_inj.mp name]
  | _ => simp [parts?, sameLeaf]

theorem equal_of_sameLeaf {a b : Value} (h : sameLeaf a b = true) : Equal a b := by
  unfold sameLeaf at h
  split at h
  · exact .nil
  · exact eq_of_beq h ▸ .bool _
  · exact eq_of_beq h ▸ .int _
  · exact eq_of_beq h ▸ .str _
  · exact eq_of_beq h ▸ .sym _
  · exact eq_of_beq h ▸ .kw _
  · exact .native (congrArg Native.name (eq_of_beq h))
  · obtain ⟨hid, hexpander⟩ := Bool.and_eq_true_iff.mp h
    exact eq_of_beq hid ▸ eq_of_beq hexpander ▸ .fn ..
  · exact eq_of_beq h ▸ .atom ..
  · cases h

/-- Values of one shape are equal exactly if their parts are, pair by pair. -/
theorem equal_iff_parts {a b : Value} {pairs : List (Value × Value)} (h : parts? a b = some pairs) :
    Equal a b ↔ ∀ p ∈ pairs, Equal p.1 p.2 := by
  unfold parts? at h
  split at h <;> split at h <;> cases h
  · rename_i length
    simp only [List.mem_reverse]
    constructor
    · intro he
      cases he with | list _ elements => exact elements
    · exact .list length
  · rename_i length
    simp only [List.mem_reverse]
    constructor
    · intro he
      cases he with | vec _ elements => exact elements
    · exact .vec length
  · rename_i keys
    simp only [List.mem_reverse]
    constructor
    · intro he
      cases he with | map _ values => exact values
    · exact .map keys
  · rename_i kind _ _ _ hk
    subst hk
    simp only [List.forall_mem_singleton]
    constructor
    · intro he
      cases he with | error _ payload => exact payload
    · exact .error kind
  · rename_i kind _ _ _ hk
    subst hk
    simp only [List.forall_mem_singleton]
    constructor
    · intro he
      cases he with | caught _ payload => exact payload
    · exact .caught kind
  · rename_i hleaf
    exact iff_of_true (equal_of_sameLeaf hleaf) (by simp)

theorem sizeOf_le_pairsSize {p : Value × Value} {pairs : List (Value × Value)} (h : p ∈ pairs) :
    sizeOf p.1 ≤ pairsSize pairs := by
  induction pairs with
  | nil => cases h
  | cons q pairs ih =>
    rw [pairsSize]
    rcases List.mem_cons.mp h with rfl | h
    · exact Nat.le_add_right _ _
    · exact Nat.le_add_left_of_le (ih h)

/-- Values are equal exactly if they agree in everything but metadata. -/
theorem equal_iff_alike (a b : Value) : Equal a b ↔ Alike (a, b) := by
  -- by the size of the first value: both sides ask the same of each pair of parts
  induction hn : sizeOf a using Nat.strongRecOn generalizing a b with
  | ind n ih =>
    cases hp : parts? a b with
    | none =>
      refine iff_of_false ?_ (not_alike hp)
      intro he
      obtain ⟨pairs, hpairs⟩ := he.exists_parts
      simp [hp] at hpairs
    | some pairs =>
      rw [equal_iff_parts hp, alike_iff_parts hp]
      refine forall₂_congr fun p hmem => ?_
      have hsize := Nat.lt_of_le_of_lt (sizeOf_le_pairsSize hmem) (pairsSize_parts hp)
      exact ih _ (hn ▸ hsize) p.1 p.2 rfl

theorem same_iff_equal (a b : Value) : a.same b = true ↔ Equal a b := by
  rw [same_iff, equal_iff_alike]
  rfl

theorem same_equivalence : Equivalence fun a b : Value => a.same b = true := by
  simp only [same_iff]
  exact ⟨fun _ => rfl, Eq.symm, Eq.trans⟩

/-- Each turn takes something off the work that is left. -/
theorem Turn.pairsSize_lt {pending next : List (Value × Value)} (h : Turn pending next) :
    pairsSize next < pairsSize pending := by
  cases h with
  | parts found =>
    rw [pairsSize_append, pairsSize]
    exact Nat.add_lt_add_right (pairsSize_parts found) _
  | pass =>
    rw [pairsSize]
    exact Nat.lt_add_of_pos_left (sizeOf_pos _)

theorem turn_wellFounded : WellFounded fun next pending => Turn pending next :=
  Subrelation.wf Turn.pairsSize_lt (measure pairsSize).wf

theorem SharesItems.alike {a b : Value} (h : SharesItems a b) : Alike (a, b) := by
  cases h <;> simp only [Alike, bare]

/-- Whichever shortcut is taken, a turn keeps the answer. -/
theorem Turn.allSame_eq {pending next : List (Value × Value)} (h : Turn pending next) :
    allSame pending = allSame next := by
  rw [Bool.eq_iff_iff, allSame_iff, allSame_iff]
  cases h with
  | parts found => rw [List.forall_mem_cons, List.forall_mem_append, alike_iff_parts found]
  | pass shared => simp [shared.alike]

theorem answers_allSame (pending : List (Value × Value)) : Answers pending (allSame pending) := by
  fun_induction Value.allSame pending with
  | case1 => exact .done
  | case2 a b pending hn => exact .differ hn
  | case3 a b pending pairs hs _ ih => exact .turn (.parts hs) ih

theorem Answers.eq_allSame {pending : List (Value × Value)} {answer : Bool}
    (h : Answers pending answer) : answer = allSame pending := by
  induction h with
  | done => rw [Value.allSame]
  | differ apart =>
    symm
    rw [Bool.eq_false_iff, ne_eq, allSame_iff]
    intro hall
    exact not_alike apart (hall _ (List.mem_cons_self ..))
  | turn turn _ ih => rw [ih, turn.allSame_eq]

theorem answers_same (a b : Value) (answer : Bool) :
    Answers [(a, b)] answer ↔ a.same b = answer := by
  have hsame : a.same b = allSame [(a, b)] := by
    rw [Bool.eq_iff_iff, same_iff, allSame_iff, List.forall_mem_singleton]
    rfl
  constructor
  · intro h
    rw [hsame, h.eq_allSame]
  · rintro rfl
    rw [hsame]
    exact answers_allSame _

theorem equal_map_iff {es fs : List (Key × Value)} (he : Entries.Ascending es)
    (hf : Entries.Ascending fs) (m n : Value) :
    Equal (map es m) (map fs n) ↔
      ∀ key, Option.Rel Equal (Entries.find? key es) (Entries.find? key fs) := by
  have hrel : ∀ key, Option.Rel Equal (Entries.find? key es) (Entries.find? key fs) ↔
      (Entries.find? key es).map bare = (Entries.find? key fs).map bare := by
    intro key
    cases Entries.find? key es <;> cases Entries.find? key fs <;>
      simp [equal_iff_alike, Alike]
  simp only [hrel, ← Entries.find?_mapValues]
  rw [equal_iff_alike, Alike, bare, bare, map.injEq]
  constructor
  · intro h key
    rw [h.1]
  · intro h
    exact ⟨(he.mapValues bare).ext (hf.mapValues bare) h, rfl⟩

/-- The native compares each argument with the first one, which settles all pairs of them. -/
theorem all_same_iff (a : Value) (others : List Value) :
    (others.all fun b => b.same a) = true ↔ ∀ x ∈ a :: others, ∀ y ∈ a :: others, Equal x y := by
  have hfirst : (others.all fun b => b.same a) = true ↔ ∀ x ∈ a :: others, x.same a = true := by
    simp [same_equivalence.refl a]
  simp only [hfirst, ← same_iff_equal]
  constructor
  · intro h x hx y hy
    exact same_equivalence.trans (h x hx) (same_equivalence.symm (h y hy))
  · intro h x hx
    exact h x hx a (List.mem_cons_self ..)

/-- Equality of values is the equality of their shapes. The work on a list of pairs ends whichever
shortcuts it takes, with that answer and no other; hash-maps are equal if they have the same keys and
equal values; and the native `=` tells whether all its arguments are equal to each other. -/
theorem same_is_structural :
    WellFounded (fun next pending => Turn pending next) ∧
    (∀ a b answer, Answers [(a, b)] answer ↔ a.same b = answer) ∧
    (∀ a b, a.same b = true ↔ Equal a b) ∧
    (Equivalence fun a b : Value => a.same b = true) ∧
    (∀ es fs m n, Entries.Ascending es → Entries.Ascending fs →
      (Equal (map es m) (map fs n) ↔
        ∀ key, Option.Rel Equal (Entries.find? key es) (Entries.find? key fs))) ∧
    ∀ ev fuel scope w a others, ∃ answer,
      (Native.call ev (fuel + 1) .equal (a :: others) scope).outcome w =
        some (.ok (.bool answer), w) ∧
      (answer = true ↔ ∀ x ∈ a :: others, ∀ y ∈ a :: others, Equal x y) := by
  refine ⟨turn_wellFounded, answers_same, same_iff_equal, same_equivalence, ?_, ?_⟩
  · intro es fs m n he hf
    exact equal_map_iff he hf m n
  · intro ev fuel scope w a others
    refine ⟨_, ?_, all_same_iff a others⟩
    have hcheck : Native.equal.arity.check Native.equal.name (a :: others).length = .ok () := by
      simp [Arity.check, Arity.Accepts, Native.arity]
    rw [Native.compute_outcome rfl hcheck, Native.runEqual]

/-- Two entries, made in either order, with different metadata inside and around them. -/
theorem same_is_structural_entries :
    let es := Entries.insert (.kw "k") (vec [fn ⟨0⟩ false nil] (int 1)) [(.str "s", atom ⟨0⟩ nil)]
    let fs := Entries.insert (.str "s") (atom ⟨0⟩ nil) [(.kw "k", vec [fn ⟨0⟩ false (int 2)] nil)]
    Entries.Ascending es ∧ Entries.Ascending fs ∧ Equal (map es (int 3)) (map fs nil) ∧
      (map es (int 3)).same (map fs nil) = true ∧
      ∀ key, Option.Rel Equal (Entries.find? key es) (Entries.find? key fs) := by
  intro es fs
  obtain ⟨-, -, hequal, -, hmaps, -⟩ := same_is_structural
  have he : Entries.Ascending es :=
    Entries.Ascending.insert (List.pairwise_singleton _ _) _ _
  have hf : Entries.Ascending fs :=
    Entries.Ascending.insert (List.pairwise_singleton _ _) _ _
  have hcell : Equal (atom ⟨0⟩ nil) (atom ⟨0⟩ nil) := .atom ..
  have hvec : Equal (vec [fn ⟨0⟩ false nil] (int 1)) (vec [fn ⟨0⟩ false (int 2)] nil) :=
    .vec rfl (List.forall_mem_singleton.mpr (.fn ..))
  have hboth : Equal (map es (int 3)) (map fs nil) :=
    .map rfl (List.forall_mem_cons.mpr ⟨hcell, List.forall_mem_singleton.mpr hvec⟩)
  exact ⟨he, hf, hboth, (hequal _ _).mpr hboth, (hmaps es fs _ _ he hf).mp hboth⟩

end Value
end MiniLisp
