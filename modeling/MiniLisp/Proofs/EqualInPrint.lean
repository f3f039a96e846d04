import MiniLisp.Proofs.Equality
import MiniLisp.Proofs.Printing

namespace MiniLisp

theorem Key.toValue_bare (key : Key) : key.toValue.bare = key.toValue := by
  cases key <;> simp only [toValue, Value.bare]

namespace Value

theorem row?_bare {v : Value} {b : Bracket} {row : List Value} (h : v.row? = some (b, row)) :
    v.bare.row? = some (b, row.map bare) := by
  cases v <;> cases h
  · simp [bare, row?]
  · simp [bare, row?]
  · simp [bare, row?, List.flatMap_map, List.map_flatMap, Key.toValue_bare]

theorem elidedText_bare (style : Style) (v : Value) :
    elidedText style v.bare = elidedText style v := by
  induction v using bare.induct generalizing style with
  | case13 kind payload ih =>
    rw [bare]
    exact congrArg (scalarText style (error kind payload) ++ ·) (ih .display)
  | case14 kind payload ih =>
    rw [bare]
    exact ih .display
  | case11 id expander note => cases expander <;> (rw [bare]; rfl)
  | _ => rw [bare] <;> rfl

/-- Metadata is not printed, at any depth. -/
theorem text_bare (heap : Heap) (style : Style) (levels : Nat) (v : Value) :
    text heap style levels v.bare = text heap style levels v := by
  induction levels generalizing style v with
  | zero => exact elidedText_bare style v
  | succ levels ih =>
    cases hrow : v.row? with
    | some found =>
      obtain ⟨b, row⟩ := found
      rw [text_row hrow, text_row (row?_bare hrow), List.map_map]
      simp only [Function.comp_def, ih]
    | none =>
      cases v with
      | list | vec | map => cases hrow
      | error kind payload =>
        rw [bare]
        exact congrArg (scalarText style (error kind payload) ++ ·) (ih .display payload)
      | caught kind payload =>
        rw [bare]
        exact ih .display payload
      | fn _ expander => cases expander <;> (rw [bare]; rfl)
      -- an atom among them: the printer goes on in the same cell, whatever that holds
      | _ => rw [bare] <;> rfl

/-- Equal values have the same text, whatever their metadata is and however their hash-maps were made,
also where atoms hold themselves and where the text is cut off. -/
theorem print_eq_of_same {a b : Value} (h : a.same b = true) (heap : Heap) (style : Style) :
    a.print heap style = b.print heap style := by
  rw [print, print, ← text_bare, (same_iff a b).mp h, text_bare]

theorem print_eq_of_same_entries :
    let heap := (Heap.empty.newCell (ofVec [atom ⟨0⟩ nil])).1
    let f := fn ⟨0⟩ false nil
    let a := map (Entries.insert (.kw "k") (list [f] (int 1)) [(.str "s", atom ⟨0⟩ nil)]) nil
    let b := map (Entries.insert (.str "s") (atom ⟨0⟩ (int 2)) [(.kw "k", list [f] nil)]) (int 3)
    a.same b = true ∧ ∀ style, a.print heap style = b.print heap style := by
  intro heap f a b
  have ha : a = map [(.str "s", atom ⟨0⟩ nil), (.kw "k", list [f] (int 1))] nil := rfl
  have hb : b = map [(.str "s", atom ⟨0⟩ (int 2)), (.kw "k", list [f] nil)] (int 3) := rfl
  have hsame : a.same b = true := by
    rw [same_iff, ha, hb]
    simp [bare]
  exact ⟨hsame, print_eq_of_same hsame heap⟩

end Value
end MiniLisp
