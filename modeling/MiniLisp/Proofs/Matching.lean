import MiniLisp.Proofs.Clean
import MiniLisp.Proofs.ScopeChain
import Mathlib.Data.List.Forall2

section Optional

variable {α β : Type} {R : α → β → Prop} {a? : Option α} {b? : Option β}

theorem Option.Rel.split (h : Option.Rel R a? b?) :
    a? = Option.none ∧ b? = Option.none ∨
      ∃ a b, a? = Option.some a ∧ b? = Option.some b ∧ R a b := by
  cases h with
  | none => exact .inl ⟨rfl, rfl⟩
  | some h => exact .inr ⟨_, _, rfl, rfl, h⟩

theorem Option.Rel.mono {S : α → β → Prop} (h : Option.Rel R a? b?)
    (hrs : ∀ a b, R a b → S a b) : Option.Rel S a? b? := by
  cases h with
  | some h => exact .some (hrs _ _ h)
  | none => exact .none

end Optional

namespace MiniLisp

variable {α β : Type}

/-- Which places of one row stand for which of another, one to one. -/
structure Pairing where
  pairs : Nat → Nat → Prop
  unique : ∀ {i j k l}, pairs i j → pairs k l → (i = k ↔ j = l)

namespace Pairing

/-- Pairs two more places with each other. -/
def add (p : Pairing) (i j : Nat) (h : ∀ {k l}, p.pairs k l → (k = i ↔ l = j)) : Pairing where
  pairs k l := p.pairs k l ∨ k = i ∧ l = j
  unique := by
    rintro a b c d (hab | ⟨rfl, rfl⟩) (hcd | ⟨rfl, rfl⟩)
    · exact p.unique hab hcd
    · exact h hab
    · exact eq_comm.trans ((h hcd).trans eq_comm)
    · exact ⟨fun _ => rfl, fun _ => rfl⟩

/-- Paired places hold related contents. If places may be paired ahead of what will stand there, they lie
equally far behind the ends of the two rows. Certain places of the second row hold what they are
to keep, and are not paired. -/
structure Links (p : Pairing) (ahead : Prop) (kept : Nat → Option β) (R : α → β → Prop) (xs : Array α)
    (ys : Array β) : Prop where
  found : ∀ {i j}, p.pairs i j → (∃ x y, xs[i]? = some x ∧ ys[j]? = some y ∧ R x y) ∨
    ahead ∧ ∃ n, i = xs.size + n ∧ j = ys.size + n
  keeps : ∀ {j y}, kept j = some y → ys[j]? = some y ∧ ∀ i, ¬ p.pairs i j

namespace Links

variable {p : Pairing} {ahead : Prop} {kept : Nat → Option β} {R : α → β → Prop} {xs : Array α}
  {ys : Array β} {i j : Nat}

theorem get (h : p.Links ahead kept R xs ys) (hij : p.pairs i j) : Option.Rel R xs[i]? ys[j]? := by
  rcases h.found hij with ⟨x, y, hx, hy, hxy⟩ | ⟨-, n, rfl, rfl⟩
  · rw [hx, hy]
    exact .some hxy
  · rw [Array.getElem?_eq_none (Nat.le_add_right _ _), Array.getElem?_eq_none (Nat.le_add_right _ _)]
    exact .none

theorem lt_iff (h : p.Links ahead kept R xs ys) (hij : p.pairs i j) : i < xs.size ↔ j < ys.size := by
  rcases h.found hij with ⟨x, y, hx, hy, -⟩ | ⟨-, n, rfl, rfl⟩
  · exact iff_of_true (Array.getElem?_eq_some_iff.mp hx).1 (Array.getElem?_eq_some_iff.mp hy).1
  · omega

/-- The places behind the ends can only be paired with each other. -/
theorem end_iff (h : p.Links ahead kept R xs ys) (hij : p.pairs i j) : i = xs.size ↔ j = ys.size := by
  rcases h.found hij with ⟨x, y, hx, hy, -⟩ | ⟨-, n, rfl, rfl⟩
  · have := (Array.getElem?_eq_some_iff.mp hx).1
    have := (Array.getElem?_eq_some_iff.mp hy).1
    omega
  · omega

/-- What is added to both rows is paired with each other from then on. -/
theorem push (h : p.Links ahead kept R xs ys) :
    ∃ q : Pairing, (∀ i j, p.pairs i j → q.pairs i j) ∧ q.pairs xs.size ys.size ∧
      ∀ {S : α → β → Prop} {x y}, (∀ x y, R x y → S x y) → S x y →
        q.Links ahead kept S (xs.push x) (ys.push y) := by
  refine ⟨p.add xs.size ys.size h.end_iff, fun i j => .inl, .inr ⟨rfl, rfl⟩, ?_⟩
  intro S x y hrs hxy
  have hnew : ∃ x' y', (xs.push x)[xs.size]? = some x' ∧ (ys.push y)[ys.size]? = some y' ∧ S x' y' :=
    ⟨x, y, Array.getElem?_push_size, Array.getElem?_push_size, hxy⟩
  constructor
  · rintro i j (hij | ⟨rfl, rfl⟩)
    · rcases h.found hij with ⟨x', y', hx, hy, hxy'⟩ | ⟨hahead, n, rfl, rfl⟩
      · have hi := (Array.getElem?_eq_some_iff.mp hx).1
        have hj := (Array.getElem?_eq_some_iff.mp hy).1
        refine .inl ⟨x', y', ?_, ?_, hrs x' y' hxy'⟩
        · rw [Array.getElem?_push, if_neg (Nat.ne_of_lt hi), hx]
        · rw [Array.getElem?_push, if_neg (Nat.ne_of_lt hj), hy]
      · -- What was paired ahead of this may be what is added now.
        cases n with
        | zero => exact .inl hnew
        | succ n =>
          refine .inr ⟨hahead, n, ?_, ?_⟩ <;> rw [Array.size_push, Nat.add_right_comm, Nat.add_assoc]
    · exact .inl hnew
  · intro j z hz
    obtain ⟨hj, hfree⟩ := h.keeps hz
    have hlt := (Array.getElem?_eq_some_iff.mp hj).1
    refine ⟨by rw [Array.getElem?_push, if_neg (Nat.ne_of_lt hlt), hj], ?_⟩
    rintro i (hij | ⟨-, rfl⟩)
    · exact hfree i hij
    · exact Nat.lt_irrefl _ hlt

/-- A change at paired places leaves all other pairs alone. -/
theorem modify (h : p.Links ahead kept R xs ys) (hij : p.pairs i j) {f : α → α} {g : β → β}
    (hfg : ∀ x y, R x y → R (f x) (g y)) : p.Links ahead kept R (xs.modify i f) (ys.modify j g) := by
  constructor
  · intro k l hkl
    simp only [Array.size_modify, Array.getElem?_modify]
    rcases h.found hkl with ⟨x, y, hx, hy, hxy⟩ | hbehind
    · rw [hx, hy]
      by_cases hk : i = k
      · exact .inl ⟨f x, g y, by rw [if_pos hk]; rfl,
          by rw [if_pos ((p.unique hij hkl).mp hk)]; rfl, hfg x y hxy⟩
      · exact .inl ⟨x, y, by rw [if_neg hk],
          by rw [if_neg fun hl => hk ((p.unique hij hkl).mpr hl)], hxy⟩
    · exact .inr hbehind
  · intro l z hz
    obtain ⟨hl, hfree⟩ := h.keeps hz
    have hne : j ≠ l := by
      rintro rfl
      exact hfree i hij
    exact ⟨by rw [Array.getElem?_modify, if_neg hne, hl], hfree⟩

theorem mono (h : p.Links ahead kept R xs ys) {S : α → β → Prop} (hrs : ∀ x y, R x y → S x y) :
    p.Links ahead kept S xs ys where
  found := by
    intro i j hij
    rcases h.found hij with ⟨x, y, hx, hy, hxy⟩ | hbehind
    · exact .inl ⟨x, y, hx, hy, hrs x y hxy⟩
    · exact .inr hbehind
  keeps := h.keeps

end Links
end Pairing

/-- Which places of one heap stand for which of the other, and whether metadata counts. -/
structure Matching where
  scopes : Pairing
  cells : Pairing
  closures : Pairing
  notes : Prop

/-- What is matched stays matched. -/
structure Matching.Grows (ρ σ : Matching) : Prop where
  scopes : ∀ i j, ρ.scopes.pairs i j → σ.scopes.pairs i j
  cells : ∀ i j, ρ.cells.pairs i j → σ.cells.pairs i j
  closures : ∀ i j, ρ.closures.pairs i j → σ.closures.pairs i j
  notes : σ.notes ↔ ρ.notes

namespace Matching.Grows

variable {ρ σ τ : Matching}

theorem refl : ρ.Grows ρ :=
  ⟨fun _ _ h => h, fun _ _ h => h, fun _ _ h => h, Iff.rfl⟩

theorem trans (h : ρ.Grows σ) (h' : σ.Grows τ) : ρ.Grows τ where
  scopes i j hij := h'.scopes i j (h.scopes i j hij)
  cells i j hij := h'.cells i j (h.cells i j hij)
  closures i j hij := h'.closures i j (h.closures i j hij)
  notes := h'.notes.trans h.notes

end Matching.Grows

/-- The values are the same, except that they refer to matching places, and may differ in metadata
where it does not count. -/
inductive Value.Matches (ρ : Matching) : Value → Value → Prop
  | nil : Matches ρ .nil .nil
  | bool (b : Bool) : Matches ρ (.bool b) (.bool b)
  | int (n : Int64) : Matches ρ (.int n) (.int n)
  | str (text : String) : Matches ρ (.str text) (.str text)
  | sym (name : String) : Matches ρ (.sym name) (.sym name)
  | kw (name : String) : Matches ρ (.kw name) (.kw name)
  | list {xs ys n m} (length : xs.length = ys.length)
      (elements : ∀ x y, (x, y) ∈ xs.zip ys → Matches ρ x y) (metadata : ρ.notes → Matches ρ n m) :
      Matches ρ (.list xs n) (.list ys m)
  | vec {xs ys n m} (length : xs.length = ys.length)
      (elements : ∀ x y, (x, y) ∈ xs.zip ys → Matches ρ x y) (metadata : ρ.notes → Matches ρ n m) :
      Matches ρ (.vec xs n) (.vec ys m)
  | map {es fs : List (Key × Value)} {n m} (length : es.length = fs.length)
      (keys : ∀ e f, (e, f) ∈ es.zip fs → e.1 = f.1)
      (values : ∀ e f, (e, f) ∈ es.zip fs → Matches ρ e.2 f.2) (metadata : ρ.notes → Matches ρ n m) :
      Matches ρ (.map es n) (.map fs m)
  | native (op : Native) {n m} (metadata : ρ.notes → Matches ρ n m) :
      Matches ρ (.native op n) (.native op m)
  | fn {id id' : FnId} (expander : Bool) {n m} (place : ρ.closures.pairs id.index id'.index)
      (metadata : ρ.notes → Matches ρ n m) : Matches ρ (.fn id expander n) (.fn id' expander m)
  | atom {cell cell' : CellId} {n m} (place : ρ.cells.pairs cell.index cell'.index)
      (metadata : ρ.notes → Matches ρ n m) : Matches ρ (.atom cell n) (.atom cell' m)
  | error (kind : Kind) {a b} (payload : Matches ρ a b) : Matches ρ (.error kind a) (.error kind b)
  | caught (kind : Kind) {a b} (payload : Matches ρ a b) : Matches ρ (.caught kind a) (.caught kind b)

/-- The rows match value by value. -/
abbrev Row.Matches (ρ : Matching) : List Value → List Value → Prop :=
  List.Forall₂ (Value.Matches ρ)

/-- The same key with matching values. -/
abbrev Entry.Matches {κ : Type} (ρ : Matching) (e f : κ × Value) : Prop :=
  e.1 = f.1 ∧ e.2.Matches ρ f.2

/-- The entries match one by one. -/
abbrev Entries.Matches {κ : Type} (ρ : Matching) : Entries κ Value → Entries κ Value → Prop :=
  List.Forall₂ (Entry.Matches ρ)

def ScopeId.Matches (ρ : Matching) (s s' : ScopeId) : Prop :=
  ρ.scopes.pairs s.index s'.index

namespace Value

variable {ρ σ : Matching} {v v' n m : Value} {xs ys : List Value} {es fs : List (Key × Value)}

theorem matches_list : Matches ρ (.list xs n) (.list ys m) ↔
    Row.Matches ρ xs ys ∧ (ρ.notes → Matches ρ n m) := by
  rw [Row.Matches, List.forall₂_iff_zip]
  constructor
  · intro h
    cases h with
    | list length elements metadata => exact ⟨⟨length, elements _ _⟩, metadata⟩
  · rintro ⟨⟨length, elements⟩, metadata⟩
    exact .list length (fun _ _ => elements) metadata

theorem matches_vec : Matches ρ (.vec xs n) (.vec ys m) ↔
    Row.Matches ρ xs ys ∧ (ρ.notes → Matches ρ n m) := by
  rw [Row.Matches, List.forall₂_iff_zip]
  constructor
  · intro h
    cases h with
    | vec length elements metadata => exact ⟨⟨length, elements _ _⟩, metadata⟩
  · rintro ⟨⟨length, elements⟩, metadata⟩
    exact .vec length (fun _ _ => elements) metadata

theorem matches_map : Matches ρ (.map es n) (.map fs m) ↔
    Entries.Matches ρ es fs ∧ (ρ.notes → Matches ρ n m) := by
  rw [Entries.Matches, List.forall₂_iff_zip]
  constructor
  · intro h
    cases h with
    | map length keys values metadata =>
      exact ⟨⟨length, fun h => ⟨keys _ _ h, values _ _ h⟩⟩, metadata⟩
  · rintro ⟨⟨length, entries⟩, metadata⟩
    exact .map length (fun _ _ h => (entries h).1) (fun _ _ h => (entries h).2) metadata

theorem matches_ofList : Matches ρ (ofList xs) (ofList ys) ↔ Row.Matches ρ xs ys :=
  matches_list.trans (and_iff_left fun _ => .nil)

theorem matches_ofVec : Matches ρ (ofVec xs) (ofVec ys) ↔ Row.Matches ρ xs ys :=
  matches_vec.trans (and_iff_left fun _ => .nil)

theorem matches_ofEntries : Matches ρ (ofEntries es) (ofEntries fs) ↔ Entries.Matches ρ es fs :=
  matches_map.trans (and_iff_left fun _ => .nil)

namespace Matches

theorem mono (h : Matches ρ v v') (hσ : ρ.Grows σ) : Matches σ v v' := by
  induction h with
  | list length _ _ elements metadata => exact .list length elements fun h => metadata (hσ.notes.mp h)
  | vec length _ _ elements metadata => exact .vec length elements fun h => metadata (hσ.notes.mp h)
  | map length keys _ _ values metadata =>
    exact .map length keys values fun h => metadata (hσ.notes.mp h)
  | native op _ metadata => exact .native op fun h => metadata (hσ.notes.mp h)
  | fn expander place _ metadata =>
    exact .fn expander (hσ.closures _ _ place) fun h => metadata (hσ.notes.mp h)
  | atom place _ metadata => exact .atom (hσ.cells _ _ place) fun h => metadata (hσ.notes.mp h)
  | error kind _ payload => exact .error kind payload
  | caught kind _ payload => exact .caught kind payload
  | nil => exact .nil
  | bool b => exact .bool b
  | int n => exact .int n
  | str text => exact .str text
  | sym name => exact .sym name
  | kw name => exact .kw name

theorem typeName (h : Matches ρ v v') : v.typeName = v'.typeName := by
  cases h with
  | fn expander => cases expander <;> rfl
  | _ => rfl

theorem isTruthy (h : Matches ρ v v') : v.isTruthy = v'.isTruthy := by
  cases h <;> rfl

theorem key? (h : Matches ρ v v') : v.key? = v'.key? := by
  cases h <;> rfl

theorem isSymbol (h : Matches ρ v v') (name : String) : v.isSymbol name = v'.isSymbol name := by
  cases h <;> rfl

theorem elements? (h : Matches ρ v v') : Option.Rel (Row.Matches ρ) v.elements? v'.elements? := by
  cases h with
  | list length elements metadata => exact .some (matches_list.mp (.list length elements metadata)).1
  | vec length elements metadata => exact .some (matches_vec.mp (.vec length elements metadata)).1
  | _ => exact .none

theorem note (h : Matches ρ v v') (hn : ρ.notes) : Matches ρ v.note v'.note := by
  cases h with
  | list _ _ metadata | vec _ _ metadata | map _ _ _ metadata | native _ metadata | fn _ _ metadata
  | atom _ metadata => exact metadata hn
  | _ => exact .nil

theorem withNote (h : Matches ρ v v') (hn : Matches ρ n m) :
    Matches ρ (v.withNote n) (v'.withNote m) := by
  cases h with
  | list length elements _ => exact .list length elements fun _ => hn
  | vec length elements _ => exact .vec length elements fun _ => hn
  | map length keys values _ => exact .map length keys values fun _ => hn
  | native op _ => exact .native op fun _ => hn
  | fn expander place _ => exact .fn expander place fun _ => hn
  | atom place _ => exact .atom place fun _ => hn
  | nil => exact .nil
  | bool b => exact .bool b
  | int n => exact .int n
  | str text => exact .str text
  | sym name => exact .sym name
  | kw name => exact .kw name
  | error kind payload => exact .error kind payload
  | caught kind payload => exact .caught kind payload

end Matches

theorem matches_toValue (key : Key) : Matches ρ key.toValue key.toValue := by
  cases key with
  | str text => exact .str text
  | kw name => exact .kw name

/-- What has a written form refers to no place, so it matches itself. -/
theorem Readable.matches {v : Value} (h : Readable v) (hb : v.bare = v) : Matches ρ v v := by
  induction h with
  | list elements ih =>
    simp only [bare, Value.list.injEq] at hb
    obtain ⟨hitems, rfl⟩ := hb
    exact matches_ofList.mpr
      (List.forall₂_same.mpr fun x hx => ih x hx (map_eq_self hitems x hx))
  | vec elements ih =>
    simp only [bare, Value.vec.injEq] at hb
    obtain ⟨hitems, rfl⟩ := hb
    exact matches_ofVec.mpr
      (List.forall₂_same.mpr fun x hx => ih x hx (map_eq_self hitems x hx))
  | map ascending keys values _ ih =>
    simp only [bare, Value.map.injEq] at hb
    obtain ⟨hentries, rfl⟩ := hb
    refine matches_ofEntries.mpr (List.forall₂_same.mpr fun e he => ⟨rfl, ih e he ?_⟩)
    exact congrArg Prod.snd (map_eq_self hentries e he)
  | _ => constructor

theorem matches_of_read {source : String} (h : read source = .ok (some v)) : Matches ρ v v :=
  have hv := legible_of_read h
  hv.readable.matches hv.plain

end Value

theorem Row.Matches.mono {ρ σ : Matching} {xs ys : List Value} (h : Row.Matches ρ xs ys)
    (hσ : ρ.Grows σ) : Row.Matches σ xs ys :=
  h.imp fun _ _ hxy => hxy.mono hσ

theorem Entry.Matches.mono {κ : Type} {ρ σ : Matching} {e f : κ × Value} (h : Entry.Matches ρ e f)
    (hσ : ρ.Grows σ) : Entry.Matches σ e f :=
  ⟨h.1, h.2.mono hσ⟩

namespace Entries

variable {κ : Type} {ρ σ : Matching} {es fs : Entries κ Value} {v v' : Value}

theorem Matches.mono (h : Matches ρ es fs) (hσ : ρ.Grows σ) : Matches σ es fs :=
  h.imp fun _ _ hef => Entry.Matches.mono hef hσ

theorem Matches.find? [DecidableEq κ] (h : Matches ρ es fs) (key : κ) :
    Option.Rel (Value.Matches ρ) (Entries.find? key es) (Entries.find? key fs) := by
  induction h with
  | nil => exact .none
  | @cons e f es fs hef _ ih =>
    obtain ⟨k, v⟩ := e
    obtain ⟨k', v'⟩ := f
    obtain ⟨rfl, hv⟩ := hef
    simp only [Entries.find?]
    split
    · exact .some hv
    · exact ih

theorem Matches.insert [Ord κ] (h : Matches ρ es fs) (key : κ) (hv : v.Matches ρ v') :
    Matches ρ (Entries.insert key v es) (Entries.insert key v' fs) := by
  induction h with
  | nil => exact .cons ⟨rfl, hv⟩ .nil
  | @cons e f es fs hef hrest ih =>
    obtain ⟨k, x⟩ := e
    obtain ⟨k', x'⟩ := f
    obtain ⟨rfl, hx⟩ := hef
    simp only [Entries.insert]
    cases compare k key with
    | lt => exact .cons ⟨rfl, hx⟩ ih
    | eq => exact .cons ⟨rfl, hv⟩ hrest
    | gt => exact .cons ⟨rfl, hv⟩ (.cons ⟨rfl, hx⟩ hrest)

theorem Matches.erase [DecidableEq κ] (h : Matches ρ es fs) (key : κ) :
    Matches ρ (Entries.erase key es) (Entries.erase key fs) := by
  induction h with
  | nil => exact .nil
  | @cons e f es fs hef hrest ih =>
    obtain ⟨k, x⟩ := e
    obtain ⟨k', x'⟩ := f
    obtain ⟨rfl, hx⟩ := hef
    simp only [Entries.erase]
    split
    · exact hrest
    · exact .cons ⟨rfl, hx⟩ ih

end Entries

theorem Row.Matches.isEmpty_eq {ρ : Matching} {xs ys : List Value} (h : Row.Matches ρ xs ys) :
    xs.isEmpty = ys.isEmpty := by
  cases h <;> rfl

theorem Row.Matches.headD {ρ : Matching} {args args' : List Value} (h : Row.Matches ρ args args') :
    (args.headD .nil).Matches ρ (args'.headD .nil) := by
  cases h with
  | nil => exact .nil
  | cons hhead _ => exact hhead

theorem Row.Matches.tail {ρ : Matching} {args args' : List Value} (h : Row.Matches ρ args args') :
    Row.Matches ρ args.tail args'.tail := by
  cases h with
  | nil => exact .nil
  | cons _ htail => exact htail

theorem bindParams_matches {ρ : Matching} {bindings bindings' : Entries String Value}
    (h : Entries.Matches ρ bindings bindings') (params : List String) {args args' : List Value}
    (ha : Row.Matches ρ args args') :
    Entries.Matches ρ (bindParams bindings params args) (bindParams bindings' params args') := by
  induction params generalizing bindings bindings' args args' with
  | nil => exact h
  | cons p ps ih =>
    by_cases hp : p = restMark
    · cases ps with
      | nil =>
        rw [bindParams, if_pos hp, bindParams, if_pos hp]
        exact h
      | cons rest _ =>
        rw [bindParams, if_pos hp, bindParams, if_pos hp]
        exact h.insert rest (Value.matches_ofList.mpr ha)
    · rw [bindParams_cons hp, bindParams_cons hp]
      exact ih (h.insert p ha.headD) ha.tail

theorem Scopes.lookup_of_none {scopes : Scopes} {id : ScopeId} (h : scopes.get? id = none)
    (name : String) : scopes.lookup id name = none := by
  rw [lookup]
  split
  · rfl
  · next s hs =>
    rw [h] at hs
    cases hs

theorem Scopes.root_of_none {scopes : Scopes} {id : ScopeId} (h : scopes.get? id = none) :
    scopes.root id = id := by
  rw [root]
  split
  · rfl
  · next s hs =>
    rw [h] at hs
    cases hs

structure Scope.Matches (ρ : Matching) (s s' : Scope) : Prop where
  bindings : Entries.Matches ρ s.bindings s'.bindings
  outer : Option.Rel (ScopeId.Matches ρ) s.outer s'.outer

structure Closure.Matches (ρ : Matching) (c c' : Closure) : Prop where
  params : c.params = c'.params
  body : c.body.Matches ρ c'.body
  scope : c.scope.Matches ρ c'.scope

section Mono

variable {ρ σ : Matching}

theorem ScopeId.Matches.mono {s s' : ScopeId} (h : s.Matches ρ s') (hσ : ρ.Grows σ) :
    s.Matches σ s' :=
  hσ.scopes _ _ h

theorem Scope.Matches.mono {s s' : Scope} (h : s.Matches ρ s') (hσ : ρ.Grows σ) : s.Matches σ s' :=
  ⟨h.bindings.mono hσ, h.outer.mono fun _ _ ho => ho.mono hσ⟩

theorem Closure.Matches.mono {c c' : Closure} (h : c.Matches ρ c') (hσ : ρ.Grows σ) :
    c.Matches σ c' :=
  ⟨h.params, h.body.mono hσ, h.scope.mono hσ⟩

end Mono

theorem setIfInBounds_eq_modify (xs : Array α) (i : Nat) (x : α) :
    xs.setIfInBounds i x = xs.modify i fun _ => x := by
  refine Array.ext_getElem? fun j => ?_
  rw [Array.getElem?_setIfInBounds, Array.getElem?_modify]
  split
  · next hij =>
    subst hij
    split
    · next hlt => rw [Array.getElem?_eq_getElem hlt, Option.map_some]
    · next hlt => rw [Array.getElem?_eq_none (Nat.le_of_not_lt hlt), Option.map_none]
  · rfl

/-- What stays the same while two worlds are compared. -/
structure Frame where
  /-- Places may be matched before anything stands there. -/
  ahead : Prop
  scopes : Nat → Option Scope
  cells : Nat → Option Value
  closures : Nat → Option Closure
  /-- There is no input. -/
  silent : Prop
  files : Files
  clock : Int64

/-- Matching places hold matching contents, and the second heap has what the frame says it keeps. -/
structure Heap.Matches (F : Frame) (ρ : Matching) (heap heap' : Heap) : Prop where
  scopes : ρ.scopes.Links F.ahead F.scopes (Scope.Matches ρ) heap.scopes.all heap'.scopes.all
  cells : ρ.cells.Links F.ahead F.cells (Value.Matches ρ) heap.cells heap'.cells
  closures : ρ.closures.Links F.ahead F.closures (Closure.Matches ρ) heap.closures heap'.closures

namespace Heap.Matches

variable {F : Frame} {ρ : Matching} {heap heap' : Heap} {scope scope' : ScopeId} {id id' : CellId}
  {v v' : Value} {c c' : Closure}

theorem get? (h : heap.Matches F ρ heap') (hs : scope.Matches ρ scope') :
    Option.Rel (Scope.Matches ρ) (heap.scopes.get? scope) (heap'.scopes.get? scope') :=
  h.scopes.get hs

theorem closure? (h : heap.Matches F ρ heap') {id id' : FnId}
    (hid : ρ.closures.pairs id.index id'.index) :
    Option.Rel (Closure.Matches ρ) (heap.closure? id) (heap'.closure? id') :=
  h.closures.get hid

theorem cell (h : heap.Matches F ρ heap') (hid : ρ.cells.pairs id.index id'.index) :
    (heap.cell id).Matches ρ (heap'.cell id') := by
  have hcell := h.cells.get hid
  rw [Heap.cell, Heap.cell]
  revert hcell
  generalize heap.cells[id.index]? = v?, heap'.cells[id'.index]? = v?'
  rintro (hv | _)
  · exact hv
  · exact .nil

/-- A name stands for the same in matching scopes. -/
theorem lookup (h : heap.Matches F ρ heap') (hs : scope.Matches ρ scope') (name : String) :
    Option.Rel (Value.Matches ρ) (heap.scopes.lookup scope name)
      (heap'.scopes.lookup scope' name) := by
  -- The scope outside has been made earlier, so its index is smaller.
  induction hn : scope.index using Nat.strongRecOn generalizing scope scope' with
  | _ n ih =>
    rcases (h.get? hs).split with ⟨hget, hget'⟩ | ⟨s, s', hget, hget', hss⟩
    · rw [Scopes.lookup_of_none hget, Scopes.lookup_of_none hget']
      exact .none
    · rw [Scopes.lookup_of_get? hget, Scopes.lookup_of_get? hget']
      rcases (hss.bindings.find? name).split with ⟨hv, hv'⟩ | ⟨v, v', hv, hv', hvv⟩
      · rw [hv, hv', Option.none_or, Option.none_or]
        rcases hss.outer.split with ⟨ho, ho'⟩ | ⟨o, o', ho, ho', hoo⟩
        · rw [ho, ho']
          exact .none
        · rw [ho, ho']
          exact ih o.index (hn ▸ Scopes.outer_lt hget ho) hoo rfl
      · rw [hv, hv']
        exact .some hvv

theorem root (h : heap.Matches F ρ heap') (hs : scope.Matches ρ scope') :
    (heap.scopes.root scope).Matches ρ (heap'.scopes.root scope') := by
  induction hn : scope.index using Nat.strongRecOn generalizing scope scope' with
  | _ n ih =>
    rcases (h.get? hs).split with ⟨hget, hget'⟩ | ⟨s, s', hget, hget', hss⟩
    · rw [Scopes.root_of_none hget, Scopes.root_of_none hget']
      exact hs
    · rw [Scopes.root_of_get? hget, Scopes.root_of_get? hget']
      rcases hss.outer.split with ⟨ho, ho'⟩ | ⟨o, o', ho, ho', hoo⟩
      · rw [ho, ho']
        exact hs
      · rw [ho, ho']
        exact ih o.index (hn ▸ Scopes.outer_lt hget ho) hoo rfl

/-- A scope is inside the given one only if there is such a scope, here as there. -/
theorem known (h : heap.Matches F ρ heap') {outer outer' : Option ScopeId}
    (ho : Option.Rel (ScopeId.Matches ρ) outer outer') :
    Option.Rel (ScopeId.Matches ρ) (outer.filter fun o => o.index < heap.scopes.all.size)
      (outer'.filter fun o => o.index < heap'.scopes.all.size) := by
  cases ho with
  | none => exact .none
  | @some o o' hoo =>
    have hlt := h.scopes.lt_iff hoo
    by_cases hin : o.index < heap.scopes.all.size
    · rw [Option.filter_some_pos (by simpa using hin),
        Option.filter_some_pos (by simpa using hlt.mp hin)]
      exact .some hoo
    · rw [Option.filter_some_neg (by simpa using hin),
        Option.filter_some_neg (by simpa using fun h => hin (hlt.mpr h))]
      exact .none

theorem enter (h : heap.Matches F ρ heap') {outer outer' : Option ScopeId}
    {bindings bindings' : Entries String Value} (ho : Option.Rel (ScopeId.Matches ρ) outer outer')
    (hb : Entries.Matches ρ bindings bindings') :
    ∃ σ, ρ.Grows σ ∧ (heap.enter outer bindings).1.Matches F σ (heap'.enter outer' bindings').1 ∧
      (heap.enter outer bindings).2.Matches σ (heap'.enter outer' bindings').2 := by
  obtain ⟨q, hq, hnew, hlinks⟩ := h.scopes.push
  have hσ : ρ.Grows { ρ with scopes := q } := ⟨hq, fun _ _ h => h, fun _ _ h => h, Iff.rfl⟩
  refine ⟨_, hσ, ⟨?_, ?_, ?_⟩, hnew⟩
  · exact hlinks (fun _ _ hss => hss.mono hσ)
      ⟨hb.mono hσ, (h.known ho).mono fun _ _ hoo => hoo.mono hσ⟩
  · exact h.cells.mono fun _ _ hvv => hvv.mono hσ
  · exact h.closures.mono fun _ _ hcc => hcc.mono hσ

theorem newCell (h : heap.Matches F ρ heap') (hv : v.Matches ρ v') :
    ∃ σ, ρ.Grows σ ∧ (heap.newCell v).1.Matches F σ (heap'.newCell v').1 ∧
      σ.cells.pairs (heap.newCell v).2.index (heap'.newCell v').2.index := by
  obtain ⟨q, hq, hnew, hlinks⟩ := h.cells.push
  have hσ : ρ.Grows { ρ with cells := q } := ⟨fun _ _ h => h, hq, fun _ _ h => h, Iff.rfl⟩
  refine ⟨_, hσ, ⟨?_, ?_, ?_⟩, hnew⟩
  · exact h.scopes.mono fun _ _ hss => hss.mono hσ
  · exact hlinks (fun _ _ hvv => hvv.mono hσ) (hv.mono hσ)
  · exact h.closures.mono fun _ _ hcc => hcc.mono hσ

theorem newClosure (h : heap.Matches F ρ heap') (hc : c.Matches ρ c') :
    ∃ σ, ρ.Grows σ ∧ (heap.newClosure c).1.Matches F σ (heap'.newClosure c').1 ∧
      σ.closures.pairs (heap.newClosure c).2.index (heap'.newClosure c').2.index := by
  obtain ⟨q, hq, hnew, hlinks⟩ := h.closures.push
  have hσ : ρ.Grows { ρ with closures := q } := ⟨fun _ _ h => h, fun _ _ h => h, hq, Iff.rfl⟩
  refine ⟨_, hσ, ⟨?_, ?_, ?_⟩, hnew⟩
  · exact h.scopes.mono fun _ _ hss => hss.mono hσ
  · exact h.cells.mono fun _ _ hvv => hvv.mono hσ
  · exact hlinks (fun _ _ hcc => hcc.mono hσ) (hc.mono hσ)

theorem bind (h : heap.Matches F ρ heap') (hs : scope.Matches ρ scope') (name : String)
    (hv : v.Matches ρ v') :
    (heap.bind scope name v).Matches F ρ (heap'.bind scope' name v') where
  scopes := h.scopes.modify hs
    (f := fun s => { s with bindings := Entries.insert name v s.bindings })
    (g := fun s => { s with bindings := Entries.insert name v' s.bindings })
    fun _ _ hss => ⟨hss.bindings.insert name hv, hss.outer⟩
  cells := h.cells
  closures := h.closures

theorem setCell (h : heap.Matches F ρ heap') (hid : ρ.cells.pairs id.index id'.index)
    (hv : v.Matches ρ v') : (heap.setCell id v).Matches F ρ (heap'.setCell id' v') where
  scopes := h.scopes
  cells := by
    simp only [Heap.setCell, setIfInBounds_eq_modify]
    exact h.cells.modify hid fun _ _ _ => hv
  closures := h.closures

end Heap.Matches

end MiniLisp
