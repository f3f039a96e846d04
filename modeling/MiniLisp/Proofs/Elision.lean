import MiniLisp.Proofs.Printing

namespace MiniLisp.Value

def isNested : Value → Bool
  | list .. | vec .. | map .. | atom .. => true
  | _ => false

/-- What is printed in front of, between and behind the brackets of a nested value. -/
def enclosed? (heap : Heap) : Value → Option (List Char × List Value × List Char)
  | list items _ => some (['('], items, [')'])
  | vec items _ => some (['['], items, [']'])
  | map entries _ => some (['\x7b'], entries.flatMap fun e => [e.1.toValue, e.2], ['\x7d'])
  | atom cell _ => some ("(atom ".toList, [heap.cell cell], [')'])
  | _ => none

/-- What is printed in front of the payload of an error, and the payload. -/
def thrown? : Value → Option (List Char × Value)
  | error kind payload => some (kind.tag.toList ++ [':', ' '], payload)
  | caught _ payload => some ([], payload)
  | _ => none

/-- What is reached from a value, with the contents of cells in place of the cells. -/
inductive Unrolled where
  | scalar (v : Value)
  | enclosed (opening : List Char) (items : List Unrolled) (closing : List Char)
  | thrown (head : List Char) (payload : Unrolled)
  /-- Stands for something nested that is left out. -/
  | omitted

/-- A tree as text, whatever its depth. What stands in an error is for display. -/
def Unrolled.text (style : Style) : Unrolled → List Char
  | scalar v => scalarText style v
  | enclosed opening items closing =>
    opening ++ joinTexts [' '] (items.map (text style)) ++ closing
  | thrown head payload => head ++ text .display payload
  | omitted => ['.', '.', '.']

/-- To print `v` at depth `n`, the printer goes into `x` at the next depth. It does not go into what is
nested where the depth is cut. -/
inductive GoesInto (heap : Heap) (cut : Nat → Prop) (n : Nat) (v x : Value) : Prop where
  | element {opening closing : List Char} {items : List Value} (shown : ¬ cut n)
      (found : v.enclosed? heap = some (opening, items, closing)) (mem : x ∈ items)
  | payload {head : List Char} (found : v.thrown? = some (head, x))

/-- `Reached heap n v m w`: going on and on leads from `v` at depth `n` down to `w` at depth `m`. -/
inductive Reached (heap : Heap) : Nat → Value → Nat → Value → Prop where
  | self (n : Nat) (v : Value) : Reached heap n v n v
  | further {n m : Nat} {v w x : Value} (step : GoesInto heap (fun _ => False) n v x)
      (reached : Reached heap (n + 1) x m w) : Reached heap n v m w

/-- `Unrolls heap cut n v tree`: at depth `n` stands `v`, and `tree` is what is reached from it. What is
nested is left out where the depth is cut. -/
inductive Unrolls (heap : Heap) (cut : Nat → Prop) : Nat → Value → Unrolled → Prop where
  | scalar {n : Nat} {v : Value} (alone : v.enclosed? heap = none) (calm : v.thrown? = none) :
      Unrolls heap cut n v (.scalar v)
  | enclosed {n : Nat} {v : Value} {opening closing : List Char} {items : List Value}
      {tree : Value → Unrolled} (shown : ¬ cut n)
      (found : v.enclosed? heap = some (opening, items, closing))
      (elements : ∀ x ∈ items, Unrolls heap cut (n + 1) x (tree x)) :
      Unrolls heap cut n v (.enclosed opening (items.map tree) closing)
  | thrown {n : Nat} {v x : Value} {head : List Char} {tree : Unrolled}
      (found : v.thrown? = some (head, x)) (payload : Unrolls heap cut (n + 1) x tree) :
      Unrolls heap cut n v (.thrown head tree)
  | omitted {n : Nat} {v : Value} (deep : cut n) (nested : v.isNested = true) :
      Unrolls heap cut n v .omitted

theorem isNested_eq (v : Value) (heap : Heap) : v.isNested = (v.enclosed? heap).isSome := by
  cases v <;> rfl

theorem thrown?_of_isNested {v : Value} (h : v.isNested = true) : v.thrown? = none := by
  cases v <;> first | rfl | cases h

theorem isNested_of_enclosed {v : Value} {heap : Heap} {found : List Char × List Value × List Char}
    (h : v.enclosed? heap = some found) : v.isNested = true := by
  rw [isNested_eq v heap, h]
  rfl

theorem enclosed_or_thrown (v : Value) (heap : Heap) :
    (v.enclosed? heap = none ∧ v.thrown? = none) ∨
      (∃ opening items closing, v.enclosed? heap = some (opening, items, closing)) ∨
      ∃ head x, v.thrown? = some (head, x) := by
  cases v <;> simp [enclosed?, thrown?]

theorem text_scalar {v : Value} {heap : Heap} (ha : v.enclosed? heap = none)
    (hc : v.thrown? = none) (style : Style) (levels : Nat) :
    text heap style levels v = scalarText style v := by
  cases v with
  | list | vec | map | atom => cases ha
  | error | caught => cases hc
  | _ => cases levels <;> rfl

theorem text_enclosed {v : Value} {heap : Heap} {opening closing : List Char} {items : List Value}
    (h : v.enclosed? heap = some (opening, items, closing)) (style : Style) (levels : Nat) :
    text heap style (levels + 1) v =
      opening ++ joinTexts [' '] (items.map (text heap style levels)) ++ closing := by
  cases v <;> cases h
  case list => rfl
  case vec => rfl
  case map =>
    rw [← joinTexts_entries]
    rfl
  case atom =>
    rw [List.map_singleton, joinTexts_singleton]
    rfl

theorem text_thrown {v x : Value} {head : List Char} (h : v.thrown? = some (head, x)) (heap : Heap)
    (style : Style) (levels : Nat) :
    text heap style levels v = head ++ text heap .display (levels - 1) x := by
  cases v <;> cases h <;> cases levels <;> rfl

theorem text_isNested {v : Value} (h : v.isNested = true) (heap : Heap) (style : Style) :
    text heap style 0 v = ['.', '.', '.'] := by
  cases v <;> first | rfl | cases h

theorem sizeOf_thrown {v x : Value} {head : List Char} (h : v.thrown? = some (head, x)) :
    sizeOf x < sizeOf v := by
  cases v <;> cases h <;> simp only [error.sizeOf_spec, caught.sizeOf_spec] <;> omega

namespace Unrolls

variable {heap : Heap} {cut : Nat → Prop} {n : Nat} {v : Value} {tree other : Unrolled}

/-- There is one tree at most. -/
theorem unique (h : Unrolls heap cut n v tree) (h' : Unrolls heap cut n v other) :
    tree = other := by
  induction h generalizing other with
  | scalar alone calm =>
    cases h' with
    | scalar => rfl
    | enclosed _ found' => simp [alone] at found'
    | thrown found' => simp [calm] at found'
    | omitted _ nested' => simp [isNested_eq _ heap, alone] at nested'
  | enclosed shown found _ ih =>
    cases h' with
    | enclosed _ found' elements' =>
      rw [found] at found'
      cases found'
      exact congrArg (Unrolled.enclosed _ · _)
        (List.map_congr_left fun x hx => ih x hx (elements' x hx))
    | scalar alone' => simp [found] at alone'
    | thrown found' => simp [thrown?_of_isNested (isNested_of_enclosed found)] at found'
    | omitted deep' => exact absurd deep' shown
  | thrown found _ ih =>
    cases h' with
    | thrown found' payload' =>
      rw [found] at found'
      cases found'
      rw [ih payload']
    | scalar _ calm' => simp [found] at calm'
    | enclosed _ found' => simp [thrown?_of_isNested (isNested_of_enclosed found')] at found
    | omitted _ nested' => simp [thrown?_of_isNested nested'] at found
  | omitted deep nested =>
    cases h' with
    | omitted => rfl
    | scalar alone' => simp [isNested_eq _ heap, alone'] at nested
    | enclosed shown' => exact absurd deep shown'
    | thrown found' => simp [thrown?_of_isNested nested] at found'

theorem elements {opening closing before behind : List Char} {items : List Value}
    {trees : List Unrolled} (h : Unrolls heap cut n v (.enclosed before trees behind))
    (hfound : v.enclosed? heap = some (opening, items, closing)) :
    ∃ tree, trees = items.map tree ∧ ∀ x ∈ items, Unrolls heap cut (n + 1) x (tree x) := by
  cases h with
  | enclosed _ found elements =>
    rw [hfound] at found
    cases found
    exact ⟨_, rfl, elements⟩

theorem payload {x : Value} {head before : List Char}
    (h : Unrolls heap cut n v (.thrown before tree)) (hfound : v.thrown? = some (head, x)) :
    Unrolls heap cut (n + 1) x tree := by
  cases h with
  | thrown found payload =>
    rw [hfound] at found
    cases found
    exact payload

/-- A tree without anything left out has been cut nowhere. -/
theorem not_cut (h : Unrolls heap cut n v tree) (hwhole : Unrolls heap (fun _ => False) n v tree)
    {m : Nat} {w : Value} (hreached : Reached heap n v m w) (hnested : w.isNested = true) :
    ¬ cut m := by
  -- both derivations follow the path that leads down to the value
  induction hreached generalizing tree with
  | self n v =>
    cases h with
    | enclosed shown => exact shown
    | omitted => cases hwhole with | omitted deep => exact deep.elim
    | scalar alone => simp [isNested_eq _ heap, alone] at hnested
    | thrown found => simp [thrown?_of_isNested hnested] at found
  | further step _ ih =>
    cases step with
    | element _ found mem =>
      cases h with
      | enclosed _ found' elements =>
        obtain ⟨other, htrees, helements⟩ := hwhole.elements found
        rw [found] at found'
        cases found'
        rw [List.map_inj_left] at htrees
        exact ih (elements _ mem) (htrees _ mem ▸ helements _ mem) hnested
      | omitted => cases hwhole with | omitted deep => exact deep.elim
      | scalar alone => simp [alone] at found
      | thrown found' => simp [thrown?_of_isNested (isNested_of_enclosed found)] at found'
    | payload found =>
      cases h with
      | thrown found' payload =>
        have hpayload := hwhole.payload found
        rw [found] at found'
        cases found'
        exact ih payload hpayload hnested
      | scalar _ calm => simp [calm] at found
      | enclosed _ found' => simp [thrown?_of_isNested (isNested_of_enclosed found')] at found
      | omitted _ nested => simp [thrown?_of_isNested nested] at found

theorem whole (h : Unrolls heap cut n v tree)
    (hall : ∀ m w, Reached heap n v m w → w.isNested = true → ¬ cut m) :
    Unrolls heap (fun _ => False) n v tree := by
  induction h with
  | scalar alone calm => exact .scalar alone calm
  | enclosed shown found _ ih =>
    refine .enclosed id found ?_
    intro x hx
    exact ih x hx fun m w hreached => hall m w (.further (.element id found hx) hreached)
  | thrown found _ ih =>
    refine .thrown found (ih ?_)
    intro m w hreached
    exact hall m w (.further (.payload found) hreached)
  | omitted deep nested => exact absurd deep (hall _ _ (.self _ _) nested)

end Unrolls

/-- A step into something nested takes one of the depths that are left. Where none is left there are
only steps into payloads, which are smaller. -/
theorem goesInto_wellFounded (heap : Heap) (limit : Nat) :
    WellFounded fun next here : Nat × Value =>
      next.1 = here.1 + 1 ∧ GoesInto heap (limit ≤ ·) here.1 here.2 next.2 := by
  refine Subrelation.wf ?_
    (InvImage.wf (fun here => (limit - here.1, sizeOf here.2)) (Prod.lex Nat.lt_wfRel Nat.lt_wfRel).wf)
  intro next here ⟨hdepth, hstep⟩
  show Prod.Lex _ _ (limit - next.1, sizeOf next.2) (limit - here.1, sizeOf here.2)
  rw [hdepth]
  by_cases hcut : limit ≤ here.1
  · cases hstep with
    | element shown => exact absurd hcut shown
    | payload found =>
      rw [Nat.sub_eq_zero_of_le hcut, Nat.sub_eq_zero_of_le (Nat.le_succ_of_le hcut)]
      exact .right _ (sizeOf_thrown found)
  · exact .left _ _ (Nat.sub_succ_lt_self _ _ (Nat.lt_of_not_le hcut))

/-- Cut off at a depth, what is reached from a value is a finite tree, and the printer writes it. -/
theorem exists_unrolled (heap : Heap) (limit n : Nat) (v : Value) :
    ∃ tree, Unrolls heap (limit ≤ ·) n v tree ∧
      ∀ style, tree.text style = text heap style (limit - n) v := by
  induction hhere : (n, v) using (goesInto_wellFounded heap limit).induction generalizing n v with
  | h here ih =>
    subst hhere
    rcases v.enclosed_or_thrown heap with
      ⟨halone, hcalm⟩ | ⟨opening, items, closing, hfound⟩ | ⟨head, x, hfound⟩
    · refine ⟨.scalar v, .scalar halone hcalm, ?_⟩
      intro style
      rw [text_scalar halone hcalm, Unrolled.text]
    · by_cases hn : limit ≤ n
      · have hnested : v.isNested = true := isNested_of_enclosed hfound
        refine ⟨.omitted, .omitted hn hnested, ?_⟩
        intro style
        rw [Nat.sub_eq_zero_of_le hn, text_isNested hnested, Unrolled.text]
      · have hparts : ∀ x, ∃ tree, x ∈ items → Unrolls heap (limit ≤ ·) (n + 1) x tree ∧
            ∀ style, tree.text style = text heap style (limit - (n + 1)) x := by
          intro x
          by_cases hx : x ∈ items
          · obtain ⟨tree, htree⟩ := ih (n + 1, x) ⟨rfl, .element hn hfound hx⟩ (n + 1) x rfl
            exact ⟨tree, fun _ => htree⟩
          · exact ⟨.omitted, fun h => absurd h hx⟩
        obtain ⟨tree, htree⟩ := Classical.skolem.mp hparts
        refine ⟨.enclosed opening (items.map tree) closing,
          .enclosed hn hfound fun x hx => (htree x hx).1, ?_⟩
        intro style
        have hlevels : limit - n = limit - (n + 1) + 1 := by
          omega
        have hitems : (items.map tree).map (Unrolled.text style) =
            items.map (text heap style (limit - (n + 1))) := by
          rw [List.map_map]
          exact List.map_congr_left fun x hx => (htree x hx).2 style
        rw [hlevels, text_enclosed hfound, Unrolled.text, hitems]
    · obtain ⟨tree, htree, htext⟩ := ih (n + 1, x) ⟨rfl, .payload hfound⟩ (n + 1) x rfl
      refine ⟨.thrown head tree, .thrown hfound htree, ?_⟩
      intro style
      rw [text_thrown hfound, Unrolled.text, htext, Nat.sub_sub]

/-- The printer stops at every value, also where atoms hold themselves, and leaves out exactly what is
nested at the limit or deeper. What it writes is one finite tree, printed to the end, and that tree is
the whole of the value if nothing nested is reached so deep. -/
theorem print_elides_by_depth (heap : Heap) :
    (WellFounded fun next here : Nat × Value =>
      next.1 = here.1 + 1 ∧ GoesInto heap (512 ≤ ·) here.1 here.2 next.2) ∧
    ∀ v : Value, ∃ tree, (∀ other, Unrolls heap (512 ≤ ·) 0 v other ↔ other = tree) ∧
      (∀ style, v.print heap style = String.ofList (tree.text style)) ∧
      (Unrolls heap (fun _ => False) 0 v tree ↔
        ∀ n w, Reached heap 0 v n w → w.isNested = true → n < 512) := by
  refine ⟨goesInto_wellFounded heap 512, ?_⟩
  intro v
  obtain ⟨tree, htree, htext⟩ := exists_unrolled heap 512 0 v
  refine ⟨tree, ?_, ?_, ?_⟩
  · intro other
    constructor
    · intro hother
      exact hother.unique htree
    · rintro rfl
      exact htree
  · intro style
    rw [htext]
    rfl
  · constructor
    · intro hwhole n w hreached hnested
      exact Nat.lt_of_not_le (htree.not_cut hwhole hreached hnested)
    · intro hall
      exact htree.whole fun n w hreached hnested => Nat.not_le_of_lt (hall n w hreached hnested)

end MiniLisp.Value
