import MiniLisp.Proofs.PreludeDefinitions

namespace MiniLisp

open Value Run

namespace Value

mutual

/-- The value with lists for its vectors, except for empty ones and for those inside of hash-maps. -/
def rebuilt : Value → Value
  | list items note => if items.isEmpty then list items note else ofList (rebuiltAll items)
  | vec items note => if items.isEmpty then vec items note else ofList (rebuiltAll items)
  | v => v

def rebuiltAll : List Value → List Value
  | [] => []
  | v :: vs => v.rebuilt :: rebuiltAll vs

end

mutual

/-- The levels that the value needs as a template. -/
def templateLevels : Value → Nat
  | list items _ => rowLevels items
  | vec items _ => rowLevels items
  | _ => 1

/-- Each element but the last is beside a form for the elements after it, one level deeper. -/
def rowLevels : List Value → Nat
  | [] => 1
  | v :: vs => max v.templateLevels (rowLevels vs) + 1

end

/-- An element needs one more level for each element up to it. -/
theorem rowLevels_le_iff {levels : Nat} (vs : List Value) :
    rowLevels vs ≤ levels ↔
      vs.length < levels ∧ ∀ i v, vs[i]? = some v → v.templateLevels + i < levels := by
  induction vs generalizing levels with
  | nil => simp [rowLevels, Nat.succ_le_iff]
  | cons v vs ih =>
    cases levels with
    | zero => simp [rowLevels]
    | succ levels =>
      rw [rowLevels, Nat.succ_le_succ_iff, Nat.max_le, ih]
      constructor
      · rintro ⟨hv, hlength, hvs⟩
        refine ⟨Nat.succ_lt_succ hlength, fun i x hx => ?_⟩
        cases i with
        | zero =>
          cases hx
          exact Nat.lt_succ_of_le hv
        | succ i => exact Nat.succ_lt_succ (hvs i x hx)
      · rintro ⟨hlength, hvs⟩
        refine ⟨Nat.le_of_lt_succ (hvs 0 v rfl), Nat.lt_of_succ_lt_succ hlength, fun i x hx => ?_⟩
        exact Nat.lt_of_succ_lt_succ (hvs (i + 1) x hx)

/-- There is no error in the value, and no marker of a part that is to be filled in. -/
def Inert (v : Value) : Prop :=
  ∀ n part, Part v n part →
    (∀ kind payload, part ≠ .error kind payload) ∧ part ≠ sym "unquote" ∧ part ≠ sym "splice-unquote"

namespace Inert

variable {v : Value} {items : List Value} {note : Value}

theorem settled (h : v.Inert) : Run.settle v = pure v := by
  have hne := (h 0 v (.self v)).1
  cases v <;> first | rfl | exact absurd rfl (hne _ _)

theorem not_unquote (h : v.Inert) : v.isSymbol "unquote" = false := by
  have hne := (h 0 v (.self v)).2.1
  cases v <;> simp_all [isSymbol]

theorem element {b : Bracket} (h : v.Inert) (hrow : v.row? = some (b, items)) :
    ∀ x ∈ items, x.Inert :=
  fun _ hx n part hpart => h (n + 1) part (.element hrow hx hpart)

theorem elements (h : v.Inert) (hitems : v.elements? = some items) : ∀ x ∈ items, x.Inert := by
  cases v <;> cases hitems
  · exact h.element rfl
  · exact h.element rfl

theorem spliced?_none (h : v.Inert) : spliced? v = none := by
  unfold spliced?
  split
  · next marker forms hitems =>
    have hne := (h.elements hitems marker (List.mem_cons_self ..) 0 marker (.self marker)).2.2
    have hmarker : marker.isSymbol "splice-unquote" = false := by
      cases marker <;> simp_all [isSymbol]
    simp [hmarker]
  · rfl

end Inert
end Value

/-- With so many levels left the form has the value, with fewer it comes to the limit. The world stays
as it is. -/
def Takes (need : Nat) (form : Value) (scope : ScopeId) (w : World) (v : Value) : Prop :=
  ∀ levels, Evaluates levels form scope w
    (some (if need ≤ levels then .ok v else .error Cause.recursion.fault, w))

namespace Takes

variable {need need' : Nat} {form x y v : Value} {scope : ScopeId} {w : World} {items : List Value}

theorem gives (h : Takes need form scope w v) {levels : Nat} (hl : need ≤ levels) :
    Gives levels form scope w v w := by
  have := h levels
  rwa [if_pos hl] at this

theorem fails (h : Takes need form scope w v) {levels : Nat} (hl : levels < need) :
    Evaluates levels form scope w (some (.error Cause.recursion.fault, w)) := by
  have := h levels
  rwa [if_neg (Nat.not_le.mpr hl)] at this

theorem of_gives (h : ∀ levels, Gives (levels + 1) form scope w v w) : Takes 1 form scope w v := by
  intro levels
  cases levels with
  | zero => exact ⟨0, fun _ _ => rfl⟩
  | succ levels => exact h levels

/-- A call of `cons` needs one level more than its arguments. -/
theorem cons {natives : List Native} {forms : List SpecialForm} (h : w.heap.Means scope natives forms)
    (hcons : .cons ∈ natives) (hx : Takes need x scope w v) (hy : Takes need' y scope w (ofList items))
    (hpos : 0 < need) :
    Takes (max need need' + 1) (ofList [.sym "cons", x, y]) scope w (ofList (v :: items)) := by
  obtain ⟨note, hname⟩ := h.native .cons hcons
  have hhead : Takes 1 (.sym "cons") scope w (.native .cons note) :=
    of_gives fun _ => .symbol hname rfl
  intro levels
  cases levels with
  | zero => exact ⟨0, fun _ _ => rfl⟩
  | succ levels =>
    split
    · next hl =>
      obtain ⟨levels, rfl⟩ : ∃ n, levels = n + 1 := ⟨levels - 1, by omega⟩
      exact .cons hname (hx.gives (by omega)) (hy.gives (by omega))
    · next hl =>
      -- the first part that lacks levels fails, and it is the head if there are none
      by_cases hzero : levels < 1
      · exact .part_error [] rfl rfl hname (by simp) .nil (hhead.fails hzero)
      · have hheads := hhead.gives (Nat.not_lt.mp hzero)
        by_cases hlx : levels < need
        · exact .part_error [.sym "cons"] rfl rfl hname (by simp) (.cons hheads .nil) (hx.fails hlx)
        · refine .part_error [.sym "cons", x] rfl rfl hname (by simp)
            (.cons hheads (.cons (hx.gives (Nat.not_lt.mp hlx)) .nil)) (hy.fails (by omega))

end Takes

theorem Value.templateLevels_pos (v : Value) : 0 < v.templateLevels := by
  have hrow (vs : List Value) : 0 < rowLevels vs := by
    cases vs <;> simp [rowLevels]
  cases v with
  | list items | vec items =>
    rw [templateLevels]
    exact hrow items
  | _ => exact Nat.one_pos

section Templates

variable {natives : List Native} {forms : List SpecialForm} {scope : ScopeId} {w : World}

theorem takes_quoted (h : w.heap.Means scope natives forms) (hquote : .quote ∈ forms) {v : Value}
    (hv : Run.settle v = pure v) : Takes 1 v.quoted scope w v :=
  .of_gives fun _ => .quote (h.form .quote hquote) hv

mutual

/-- A template without anything to fill in takes its levels and has itself, rebuilt, for its value. -/
theorem takes_template (h : w.heap.Means scope natives forms) (hcons : .cons ∈ natives)
    (hquote : .quote ∈ forms) (v : Value) (hv : v.Inert) :
    Takes v.templateLevels v.template scope w v.rebuilt := by
  have hself := takes_quoted h hquote hv.settled
  cases v with
  | list items note =>
    cases items with
    | nil => exact hself
    | cons item items => exact takes_row h hcons hquote (item :: items) (hv.elements rfl)
  | vec items note =>
    cases items with
    | nil => exact hself
    | cons item items => exact takes_row h hcons hquote (item :: items) (hv.elements rfl)
  | _ => exact hself

theorem takes_row (h : w.heap.Means scope natives forms) (hcons : .cons ∈ natives)
    (hquote : .quote ∈ forms) (vs : List Value) (hvs : ∀ v ∈ vs, v.Inert) :
    Takes (rowLevels vs) (templateItems vs) scope w (ofList (rebuiltAll vs)) := by
  cases vs with
  | nil => exact takes_quoted h hquote rfl
  | cons v vs =>
    obtain ⟨hv, hvs⟩ := List.forall_mem_cons.mp hvs
    rw [templateItems_cons vs hv.not_unquote, hv.spliced?_none]
    exact .cons h hcons (takes_template h hcons hquote v hv) (takes_row h hcons hquote vs hvs)
      v.templateLevels_pos

end

theorem takes_quasiquote (h : w.heap.Means scope natives forms) (hcons : .cons ∈ natives)
    (hquote : .quote ∈ forms) (hquasi : .quasiquote ∈ forms) {v : Value} (hv : v.Inert) :
    Takes v.templateLevels (ofList [.sym "quasiquote", v]) scope w v.rebuilt := by
  intro levels
  cases levels with
  | zero => exact ⟨0, fun _ _ => by rw [if_neg (Nat.not_le.mpr v.templateLevels_pos)]; rfl⟩
  | succ levels =>
    exact .quasiquote (h.form .quasiquote hquasi) (takes_template h hcons hquote v hv (levels + 1))

end Templates

theorem Value.Readable.part {v part : Value} {n : Nat} (h : Readable v) (hpart : Part v n part) :
    Readable part := by
  induction hpart with
  | self => exact h
  | element found mem _ ih => exact ih (h.row found _ mem)

theorem Value.Readable.inert {v : Value} (h : Readable v)
    (hfree : ∀ n, ¬ Part v n (.sym "unquote") ∧ ¬ Part v n (.sym "splice-unquote")) : v.Inert := by
  intro n part hpart
  refine ⟨?_, ?_, ?_⟩
  · rintro kind payload rfl
    cases h.part hpart
  · rintro rfl
    exact (hfree n).1 hpart
  · rintro rfl
    exact (hfree n).2 hpart

section Global

variable {fuel : Nat} {files : Files} {input source : String} {clock : Int64} {global : ScopeId}
  {w : World} {f : Value}

theorem Session.takes_quasiquote
    (hnew : (newGlobal fuel).outcome (World.start files input clock) = some (.ok global, w))
    (hread : Value.read source = .ok (some f))
    (hfree : ∀ n, ¬ Part f n (.sym "unquote") ∧ ¬ Part f n (.sym "splice-unquote")) :
    Takes f.templateLevels (ofList [.sym "quasiquote", f]) global w f.rebuilt := by
  have hprelude := newGlobal_hasPrelude hnew
  have hmeans := hprelude.unrebound.means [.cons] [.quote, .quasiquote] fun form _ =>
    hprelude.standard.form form
  exact MiniLisp.takes_quasiquote hmeans (by decide) (by decide) (by decide)
    ((legible_of_read hread).readable.inert hfree)

/-- Quasiquoting what was read, in a new global scope, is quoting it as long as it needs no more levels
than there are: its vectors become lists, except for empty ones and for those inside of hash-maps, and
the world stays as it is. What needs more comes to the limit. -/
theorem quasiquote_data
    (hnew : (Session.newGlobal fuel).outcome (World.start files input clock) = some (.ok global, w))
    (hread : Value.read source = .ok (some f))
    (hfree : ∀ n, ¬ Part f n (.sym "unquote") ∧ ¬ Part f n (.sym "splice-unquote")) :
    Evaluates maxEvalDepth (ofList [.sym "quasiquote", f]) global w
      (some (if f.templateLevels ≤ maxEvalDepth then .ok f.rebuilt
        else .error Cause.recursion.fault, w)) :=
  Session.takes_quasiquote hnew hread hfree maxEvalDepth

end Global

/-- No symbol occurs in what is neither a symbol nor a container. -/
theorem Value.not_part_leaf {v : Value} {name : String} (hv : v.row? = none) (hne : v ≠ .sym name)
    (n : Nat) : ¬ Part v n (.sym name) := by
  intro h
  cases h with
  | self => exact hne rfl
  | element found => cases hv.symm.trans found

/-- A symbol occurs in a container only where it occurs in an element. -/
theorem Value.not_part_row {v : Value} {name : String} {b : Bracket} {row : List Value}
    (hv : v.row? = some (b, row)) (hrow : ∀ x ∈ row, ∀ n, ¬ Part x n (.sym name)) (n : Nat) :
    ¬ Part v n (.sym name) := by
  intro h
  cases h with
  | self => cases hv
  | element found mem part =>
    cases hv.symm.trans found
    exact hrow _ mem _ part

/-- Vectors become lists, except for the empty one and the one inside of the hash-map. -/
theorem quasiquote_data_vectors :
    ∃ global w, (Session.newGlobal 1).outcome (World.start Files.empty "" 0) =
        some (.ok global, w) ∧
      Value.read "([7 []] {:k [8]})" = .ok (some (ofList [ofVec [.int 7, ofVec []],
        ofEntries [(.kw "k", ofVec [.int 8])]])) ∧
      Evaluates maxEvalDepth (ofList [.sym "quasiquote", ofList [ofVec [.int 7, ofVec []],
          ofEntries [(.kw "k", ofVec [.int 8])]]]) global w
        (some (.ok (ofList [ofList [.int 7, ofVec []], ofEntries [(.kw "k", ofVec [.int 8])]]), w)) := by
  obtain ⟨global, w, hnew, -⟩ := Session.newGlobal_makes 0 Files.empty "" 0
  have hread : Value.read "([7 []] {:k [8]})" = .ok (some (ofList [ofVec [.int 7, ofVec []],
      ofEntries [(.kw "k", ofVec [.int 8])]])) := by
    refine read_of_tokens rfl ?_
    with_unfolding_all rfl
  have hfree (name : String) (n : Nat) : ¬ Part (ofList [ofVec [.int 7, ofVec []],
      ofEntries [(.kw "k", ofVec [.int 8])]]) n (.sym name) := by
    have hint (k : Int64) : ∀ n, ¬ Part (.int k) n (.sym name) := not_part_leaf rfl (by simp)
    refine not_part_row rfl (List.forall_mem_cons.mpr ⟨?_, List.forall_mem_singleton.mpr ?_⟩) n
    · refine not_part_row rfl (List.forall_mem_cons.mpr ⟨hint 7, List.forall_mem_singleton.mpr ?_⟩)
      exact not_part_row rfl (List.forall_mem_nil _)
    · refine not_part_row rfl (List.forall_mem_cons.mpr ⟨?_, List.forall_mem_singleton.mpr ?_⟩)
      · exact not_part_leaf rfl (by simp [Key.toValue])
      · exact not_part_row rfl (List.forall_mem_singleton.mpr (hint 8))
  exact ⟨global, w, hnew, hread, quasiquote_data hnew hread fun n => ⟨hfree _ n, hfree _ n⟩⟩

/-- A list of so many zeros. -/
def zeros (n : Nat) : Value :=
  ofList (List.replicate n (.int 0))

theorem zeros_legible (n : Nat) : (zeros n).Legible maxFormDepth := by
  refine Legible.ofList fun x hx => ?_
  rw [(List.mem_replicate.mp hx).2]
  exact Legible.leaf (.int 0) (by rw [bare]) rfl (by decide)

theorem zeros_read (n : Nat) :
    Value.read ((zeros n).print Heap.empty .readable) = .ok (some (zeros n)) := by
  have hzeros := zeros_legible n
  rw [read_print hzeros.readable, if_pos hzeros.shallow, hzeros.plain]

theorem zeros_free (n k : Nat) (name : String) : ¬ Part (zeros n) k (.sym name) := by
  refine not_part_row rfl (fun x hx => ?_) k
  rw [(List.mem_replicate.mp hx).2]
  exact not_part_leaf rfl (by simp)

/-- A list of two hundred elements is too long to be quasiquoted. -/
theorem quasiquote_data_meets_limit :
    ∃ source f global w, Value.read source = .ok (some f) ∧
      (∀ n, ¬ Part f n (.sym "unquote") ∧ ¬ Part f n (.sym "splice-unquote")) ∧
      (Session.newGlobal 1).outcome (World.start Files.empty "" 0) = some (.ok global, w) ∧
      Evaluates maxEvalDepth (ofList [.sym "quasiquote", f]) global w
        (some (.error Cause.recursion.fault, w)) := by
  obtain ⟨global, w, hnew, -⟩ := Session.newGlobal_makes 0 Files.empty "" 0
  have hfree := fun k => And.intro (zeros_free 200 k "unquote") (zeros_free 200 k "splice-unquote")
  have hlong : maxEvalDepth < (zeros 200).templateLevels := by
    refine Nat.lt_of_not_le fun hle => ?_
    have hlength := ((rowLevels_le_iff _).mp hle).1
    rw [List.length_replicate] at hlength
    exact absurd hlength (by decide)
  exact ⟨_, zeros 200, global, w, zeros_read 200, hfree, hnew,
    (Session.takes_quasiquote hnew (zeros_read 200) hfree).fails hlong⟩

end MiniLisp
