import MiniLisp.Proofs.Clean
import MiniLisp.Value.Template

namespace MiniLisp.Value

/-- Code in which error values stand at most where evaluating it comes upon them. -/
inductive Safe : Value → Prop
  | clean {v} (h : Clean v) : Safe v
  | error {kind payload} (h : Clean payload) : Safe (.error kind payload)
  | join {name a b} (hn : name = "cons" ∨ name = "concat") (ha : Safe a) (hb : Safe b) :
      Safe (ofList [sym name, a, b])

theorem quoted_clean {v : Value} (h : Clean v) : Clean v.quoted := by
  simp [quoted, h]

theorem spliced_clean {part : Value} (h : Clean part) {forms : List Value}
    (hf : spliced? part = some forms) : ∀ v ∈ forms, Clean v := by
  unfold spliced? at hf
  split at hf
  · next marker rest hitems =>
    split at hf
    · cases hf
      exact (List.forall_mem_cons.mp (h.elements hitems)).2
    · cases hf
  · cases hf

theorem wrongMarker_safe (name : String) (forms : List Value) : Safe (wrongMarker name forms) :=
  .error (Clean.str _)

theorem templateItems_cons {part : Value} (parts : List Value)
    (hq : part.isSymbol "unquote" = false) :
    templateItems (part :: parts) =
      match spliced? part with
      | some [form] => ofList [sym "concat", form, templateItems parts]
      | some forms => wrongMarker "splice-unquote" forms
      | none => ofList [sym "cons", template part, templateItems parts] := by
  rw [templateItems.eq_def]
  simp only [hq]
  rfl

mutual

/-- Filling in a clean template is safe. -/
theorem template_safe (v : Value) (h : Clean v) : Safe v.template := by
  cases v with
  | list items note =>
    rw [template]
    split
    · exact .clean (quoted_clean h)
    · exact templateItems_safe items (clean_list.mp h).1
  | vec items note =>
    rw [template]
    split
    · exact .clean (quoted_clean h)
    · exact templateItems_safe items (clean_vec.mp h).1
  | _ => exact .clean (quoted_clean h)

theorem templateItems_safe (items : List Value) (h : ∀ v ∈ items, Clean v) :
    Safe (templateItems items) := by
  cases items with
  | nil => exact .clean (quoted_clean (by simp))
  | cons part parts =>
    obtain ⟨hpart, hparts⟩ := List.forall_mem_cons.mp h
    by_cases hq : part.isSymbol "unquote" = true
    · match parts with
      | [form] =>
        simp only [templateItems, hq, if_true]
        exact .clean (hparts form (by simp))
      | [] | _ :: _ :: _ =>
        simp only [templateItems, hq, if_true]
        exact wrongMarker_safe _ _
    · rw [templateItems_cons parts (Bool.eq_false_iff.mpr hq)]
      have hrest := templateItems_safe parts hparts
      split
      · next form hforms =>
        exact .join (.inr rfl) (.clean (spliced_clean hpart hforms form (by simp))) hrest
      · exact wrongMarker_safe _ _
      · exact .join (.inl rfl) (template_safe part hpart) hrest

end

end MiniLisp.Value
