import MiniLisp.Proofs.Equality
import MiniLisp.Proofs.Matching
import MiniLisp.Proofs.Printing
import MiniLisp.Proofs.Template

namespace MiniLisp

variable {F : Frame} {ρ : Matching} {heap heap' : Heap} {a a' b b' v v' : Value}

theorem FnId.eq_iff_index {id id' : FnId} : id = id' ↔ id.index = id'.index :=
  ⟨congrArg index, fun h => by cases id; cases id'; cases h; rfl⟩

theorem CellId.eq_iff_index {id id' : CellId} : id = id' ↔ id.index = id'.index :=
  ⟨congrArg index, fun h => by cases id; cases id'; cases h; rfl⟩

namespace Value

/-- Comparing with this value comes to the same as comparing with the one it matches. -/
def Comparable (ρ : Matching) (a a' : Value) : Prop :=
  ∀ {b b' : Value}, b.Matches ρ b' → (a.bare = b.bare ↔ a'.bare = b'.bare)

theorem comparable_row {xs ys us vs : List Value} (h : List.Forall₂ (Comparable ρ) xs ys)
    (huv : Row.Matches ρ us vs) : xs.map bare = us.map bare ↔ ys.map bare = vs.map bare := by
  induction h generalizing us vs with
  | nil => cases huv <;> simp
  | cons hxy _ ih =>
    cases huv with
    | nil => simp
    | cons huv hrest =>
      simp only [List.map_cons, List.cons.injEq]
      exact and_congr (hxy huv) (ih hrest)

theorem comparable_entries {es fs us vs : List (Key × Value)}
    (h : List.Forall₂ (fun e f => e.1 = f.1 ∧ Comparable ρ e.2 f.2) es fs)
    (huv : Entries.Matches ρ us vs) :
    (es.map fun e => (e.1, bare e.2)) = (us.map fun e => (e.1, bare e.2)) ↔
      (fs.map fun e => (e.1, bare e.2)) = vs.map fun e => (e.1, bare e.2) := by
  induction h generalizing us vs with
  | nil => cases huv <;> simp
  | cons hef _ ih =>
    cases huv with
    | nil => simp
    | cons huv hrest =>
      simp only [List.map_cons, List.cons.injEq, Prod.mk.injEq, hef.1, huv.1]
      exact and_congr (and_congr_right fun _ => hef.2 huv.2) (ih hrest)

theorem Matches.comparable (h : Matches ρ a a') : Comparable ρ a a' := by
  induction h with
  | list length _ _ elements _ =>
    intro b b' hb
    cases hb with
    | list length' elements' metadata =>
      simp only [bare, Value.list.injEq, and_true]
      exact comparable_row (List.forall₂_iff_zip.mpr ⟨length, elements _ _⟩)
        (matches_list.mp (.list length' elements' metadata)).1
    | _ => simp [bare]
  | vec length _ _ elements _ =>
    intro b b' hb
    cases hb with
    | vec length' elements' metadata =>
      simp only [bare, Value.vec.injEq, and_true]
      exact comparable_row (List.forall₂_iff_zip.mpr ⟨length, elements _ _⟩)
        (matches_vec.mp (.vec length' elements' metadata)).1
    | _ => simp [bare]
  | map length keys _ _ values _ =>
    intro b b' hb
    cases hb with
    | map length' keys' values' metadata =>
      simp only [bare, Value.map.injEq, and_true]
      exact comparable_entries
        (List.forall₂_iff_zip.mpr ⟨length, fun h => ⟨keys _ _ h, values _ _ h⟩⟩)
        (matches_map.mp (.map length' keys' values' metadata)).1
    | _ => simp [bare]
  | fn expander place =>
    intro b b' hb
    cases hb with
    | fn expander' place' =>
      simp only [bare, Value.fn.injEq, and_true, FnId.eq_iff_index]
      exact and_congr_left fun _ => ρ.closures.unique place place'
    | _ => simp [bare]
  | atom place =>
    intro b b' hb
    cases hb with
    | atom place' =>
      simp only [bare, Value.atom.injEq, and_true, CellId.eq_iff_index]
      exact ρ.cells.unique place place'
    | _ => simp [bare]
  | error kind _ ih =>
    intro b b' hb
    cases hb with
    | error kind' payload =>
      simp only [bare, Value.error.injEq]
      exact and_congr_right fun _ => ih payload
    | _ => simp [bare]
  | caught kind _ ih =>
    intro b b' hb
    cases hb with
    | caught kind' payload =>
      simp only [bare, Value.caught.injEq]
      exact and_congr_right fun _ => ih payload
    | _ => simp [bare]
  | _ =>
    intro b b' hb
    cases hb <;> simp [bare]

/-- Equality tells the same of matching values. -/
theorem Matches.same (ha : Matches ρ a a') (hb : Matches ρ b b') : a.same b = a'.same b' := by
  rw [Bool.eq_iff_iff, same_iff, same_iff]
  exact ha.comparable hb

theorem Matches.scalarText (h : Matches ρ v v') (style : Style) :
    scalarText style v = Value.scalarText style v' := by
  cases h with
  | fn expander => cases expander <;> rfl
  | _ => rfl

theorem Matches.elidedText (h : Matches ρ v v') (style : Style) :
    elidedText style v = Value.elidedText style v' := by
  induction h generalizing style with
  | fn expander place metadata => exact (fn expander place metadata).scalarText style
  | error kind payload ih =>
    rw [Value.elidedText, Value.elidedText, ih, (error kind payload).scalarText]
  | caught kind _ ih => rw [Value.elidedText, Value.elidedText, ih]
  | _ => rfl

theorem map_eq_of_row {f g : Value → List Char} {xs ys : List Value} (h : Row.Matches ρ xs ys)
    (hfg : ∀ x y, x.Matches ρ y → f x = g y) : xs.map f = ys.map g := by
  rw [← List.forall₂_eq_eq_eq, List.forall₂_map_left_iff, List.forall₂_map_right_iff]
  exact h.imp hfg

theorem row_of_entries {es fs : List (Key × Value)} (h : Entries.Matches ρ es fs) :
    Row.Matches ρ (es.flatMap fun e => [e.1.toValue, e.2])
      (fs.flatMap fun e => [e.1.toValue, e.2]) := by
  induction h with
  | nil => exact .nil
  | @cons e f es fs hef _ ih =>
    obtain ⟨k, x⟩ := e
    obtain ⟨k', y⟩ := f
    obtain ⟨rfl, hxy⟩ := hef
    exact .cons (matches_toValue k) (.cons hxy ih)

/-- Matching containers are written between the same brackets, with matching elements. -/
theorem Matches.row? (h : Matches ρ v v') :
    Option.Rel (fun r r' => r.1 = r'.1 ∧ Row.Matches ρ r.2 r'.2) v.row? v'.row? := by
  cases h with
  | list length elements metadata =>
    exact .some ⟨rfl, (matches_list.mp (.list length elements metadata)).1⟩
  | vec length elements metadata =>
    exact .some ⟨rfl, (matches_vec.mp (.vec length elements metadata)).1⟩
  | map length keys values metadata =>
    exact .some ⟨rfl, row_of_entries (matches_map.mp (.map length keys values metadata)).1⟩
  | _ => exact .none

end Value

namespace Heap.Matches

open Value

/-- Matching values print alike. -/
theorem text (h : heap.Matches F ρ heap') (hv : v.Matches ρ v') (style : Style) (levels : Nat) :
    Value.text heap style levels v = Value.text heap' style levels v' := by
  induction levels generalizing v v' style with
  | zero => exact hv.elidedText style
  | succ levels ih =>
    rcases hv.row?.split with ⟨hr, hr'⟩ | ⟨⟨b, row⟩, ⟨_, row'⟩, hr, hr', rfl, hrow⟩
    · have hscalar := hv.scalarText style
      cases hv with
      | list | vec | map => cases hr
      | atom place =>
        exact congrArg (fun held => "(atom ".toList ++ held ++ [')']) (ih (h.cell place) style)
      | error kind payload => exact congrArg₂ (· ++ ·) hscalar (ih payload .display)
      | caught kind payload => exact ih payload .display
      | _ => exact hscalar
    · rw [text_row hr, text_row hr', map_eq_of_row hrow fun x y hxy => ih hxy style]

theorem print (h : heap.Matches F ρ heap') (hv : v.Matches ρ v') (style : Style) :
    v.print heap style = v'.print heap' style :=
  congrArg String.ofList (h.text hv style maxFormDepth)

theorem printAll (h : heap.Matches F ρ heap') {vs vs' : List Value} (hvs : Row.Matches ρ vs vs')
    (style : Style) (sep : String) :
    Value.printAll heap style sep vs = Value.printAll heap' style sep vs' := by
  rw [Value.printAll, Value.printAll]
  rw [map_eq_of_row hvs fun x y hxy => h.text hxy style maxFormDepth]

end Heap.Matches

namespace Value

theorem matches_quoted (h : Matches ρ v v') : Matches ρ v.quoted v'.quoted :=
  matches_ofList.mpr (.cons (.sym _) (.cons h .nil))

theorem Matches.spliced? (h : Matches ρ v v') :
    Option.Rel (Row.Matches ρ) (spliced? v) (Value.spliced? v') := by
  unfold Value.spliced?
  rcases h.elements?.split with ⟨hv, hv'⟩ | ⟨xs, ys, hv, hv', hxy⟩
  · rw [hv, hv']
    exact .none
  · rw [hv, hv']
    cases hxy with
    | nil => exact .none
    | cons hmarker hforms =>
      simp only [hmarker.isSymbol]
      split
      · exact .some hforms
      · exact .none

theorem templateItems_unquote {part : Value} (hq : part.isSymbol "unquote" = true)
    (parts : List Value) : templateItems (part :: parts) =
      match parts with
      | [form] => form
      | _ => wrongMarker "unquote" parts := by
  rw [templateItems.eq_def]
  simp only [hq]
  rfl

theorem matches_wrongMarker (name : String) {xs ys : List Value} (h : Row.Matches ρ xs ys) :
    Matches ρ (wrongMarker name xs) (wrongMarker name ys) := by
  rw [wrongMarker, wrongMarker, h.length_eq]
  exact .error _ (.str _)

mutual

/-- Templates that match become forms that match. -/
theorem template_matches (v v' : Value) (h : Matches ρ v v') : Matches ρ v.template v'.template := by
  cases v with
  | list items note =>
    cases h with
    | list length elements metadata =>
      have h : Matches ρ (.list items note) (.list _ _) := .list length elements metadata
      have hitems := (matches_list.mp h).1
      rw [template, template, hitems.isEmpty_eq]
      split
      · exact matches_quoted h
      · exact templateItems_matches items _ hitems
  | vec items note =>
    cases h with
    | vec length elements metadata =>
      have h : Matches ρ (.vec items note) (.vec _ _) := .vec length elements metadata
      have hitems := (matches_vec.mp h).1
      rw [template, template, hitems.isEmpty_eq]
      split
      · exact matches_quoted h
      · exact templateItems_matches items _ hitems
  | _ =>
    have hquoted := matches_quoted h
    cases h
    exact hquoted

theorem templateItems_matches (xs ys : List Value) (h : Row.Matches ρ xs ys) :
    Matches ρ (templateItems xs) (templateItems ys) := by
  cases xs with
  | nil =>
    cases h
    exact matches_quoted (matches_ofList.mpr .nil)
  | cons part parts =>
    cases h with
    | @cons _ part' _ parts' hpart hparts =>
      have hmarker := hpart.isSymbol "unquote"
      by_cases hq : part.isSymbol "unquote" = true
      · have hq' : part'.isSymbol "unquote" = true := hmarker ▸ hq
        rw [templateItems_unquote hq parts, templateItems_unquote hq' parts']
        cases hparts with
        | nil => exact matches_wrongMarker _ .nil
        | cons hform hmore =>
          cases hmore with
          | nil => exact hform
          | cons hnext hmore => exact matches_wrongMarker _ (.cons hform (.cons hnext hmore))
      · have hq' : part'.isSymbol "unquote" = false := hmarker ▸ Bool.eq_false_iff.mpr hq
        rw [templateItems_cons parts (Bool.eq_false_iff.mpr hq), templateItems_cons parts' hq']
        have hrest := templateItems_matches parts parts' hparts
        rcases hpart.spliced?.split with ⟨hs, hs'⟩ | ⟨forms, forms', hs, hs', hforms⟩
        · rw [hs, hs']
          exact matches_ofList.mpr (.cons (.sym _) (.cons (template_matches part part' hpart)
            (.cons hrest .nil)))
        · rw [hs, hs']
          cases hforms with
          | nil => exact matches_wrongMarker _ .nil
          | cons hform hmore =>
            cases hmore with
            | nil => exact matches_ofList.mpr (.cons (.sym _) (.cons hform (.cons hrest .nil)))
            | cons hnext hmore => exact matches_wrongMarker _ (.cons hform (.cons hnext hmore))

end

end Value
end MiniLisp
