import MiniLisp.Proofs.Equality
import MiniLisp.Proofs.Printing

namespace MiniLisp

namespace Entries

theorem Ascending.mapValues {κ ν μ : Type} [Ord κ] {es : Entries κ ν} (h : Ascending es)
    (f : ν → μ) : Ascending (es.map fun e => (e.1, f e.2)) :=
  List.pairwise_map.mpr h

end Entries

namespace Value

theorem toKey_toValue (key : Key) : key.toValue.toKey = .ok key := by
  cases key <;> rfl

/-- Entries in ascending order are entered as they stand. -/
theorem insertAll_ascending {m es : Entries Key Value} (h : Entries.Ascending (m ++ es)) :
    insertAll m (es.flatMap fun e => [e.1.toValue, e.2]) = .ok (m ++ es) := by
  induction es generalizing m with
  | nil => simp [insertAll]
  | cons e es ih =>
    have habove : ∀ f ∈ m, compare f.1 e.1 = .lt := fun f hf =>
      (List.pairwise_append.mp h).2.2 f hf e (List.mem_cons_self ..)
    have hnext : Entries.Ascending ((m ++ [e]) ++ es) := by simpa using h
    simp only [List.flatMap_cons, List.cons_append, List.nil_append, insertAll, toKey_toValue]
    exact (congrArg (insertAll · _) (Entries.insert_above e.2 habove)).trans
      ((ih hnext).trans (by simp))

theorem insertPairs_ascending {es : Entries Key Value} (h : Entries.Ascending es) :
    insertPairs [] (es.flatMap fun e => [e.1.toValue, e.2]) = .ok es := by
  have heven : (es.flatMap fun e => [e.1.toValue, e.2]).length % 2 = 0 := by
    induction es with
    | nil => rfl
    | cons e es ih =>
      have := ih (List.pairwise_cons.mp h).2
      simp only [List.flatMap_cons, List.length_append, List.length_cons, List.length_nil]
      omega
  simp only [insertPairs, heven, Nat.zero_ne_one, if_false]
  exact insertAll_ascending h

/-- The elements of a container, without metadata, make up the container without metadata. -/
theorem ofBracket_row {v : Value} (h : Readable v) {b : Bracket} {row : List Value}
    (hr : v.row? = some (b, row)) : ofBracket b (row.map bare) = .ok v.bare := by
  cases h <;> cases hr
  case list.refl elements => simp [ofBracket, bare, ofList]
  case vec.refl elements => simp [ofBracket, bare, ofVec]
  case map.refl entries note ascending keys values =>
    have hrow : (entries.flatMap fun e => [e.1.toValue, e.2]).map bare =
        (entries.map fun e => (e.1, bare e.2)).flatMap fun e => [e.1.toValue, e.2] := by
      have hkey : ∀ key : Key, key.toValue.bare = key.toValue := by
        rintro (text | name) <;> simp [Key.toValue, bare]
      simp [List.map_flatMap, List.flatMap_map, hkey]
    rw [hrow, ofBracket, insertPairs_ascending (ascending.mapValues bare)]
    simp [Except.map, bare, ofEntries]

/-- What comes after a step of the reading. -/
def resume : Reading → List Token → Except Fault (Value × List Token)
  | .more stack, ts => readOn stack ts
  | .done v, ts => .ok (v, ts)

theorem readOn_cons {stack : List Pending} {t : Token} {ts : List Token} {r : Reading}
    (h : feed stack t = .ok r) : readOn stack (t :: ts) = resume r ts := by
  rw [readOn, h]
  cases r <;> rfl

theorem readOn_error {stack : List Pending} {t : Token} {ts : List Token} {f : Fault}
    (h : feed stack t = .error f) : readOn stack (t :: ts) = .error f := by
  rw [readOn, h]

theorem feed_start {stack : List Pending} {t : Token} (h : ∀ b, t ≠ .closing b) :
    feed stack t = start stack t := by
  unfold feed
  split
  · exact absurd rfl (h _)
  · rfl

theorem scalarToken_ne_closing (v : Value) (b : Bracket) : scalarToken v ≠ .closing b := by
  unfold scalarToken
  split <;> simp

theorem start_deep {stack : List Pending} (h : maxFormDepth ≤ stack.length) (t : Token) :
    start stack t = .error Cause.nesting.fault :=
  if_pos h

theorem ofWord_nil : ofWord "nil".toList = .ok nil := by
  with_unfolding_all rfl

theorem ofWord_true : ofWord "true".toList = .ok (bool true) := by
  with_unfolding_all rfl

theorem ofWord_false : ofWord "false".toList = .ok (bool false) := by
  with_unfolding_all rfl

theorem ofWord_int (n : Int64) : ofWord (Decimal.render n.toInt) = .ok (int n) := by
  have hn : integer? n.toInt = some n := integer?_eq_some_iff.mpr rfl
  simp only [ofWord, Decimal.parse?_render, hn]

/-- The token of a scalar is read as the scalar. -/
theorem start_scalar {v : Value} (h : Readable v) (hv : v.row? = none) {stack : List Pending}
    (hs : stack.length < maxFormDepth) :
    start stack (scalarToken v) = .ok (complete v.bare stack) := by
  have hs : ¬ maxFormDepth ≤ stack.length := Nat.not_le.mpr hs
  have word (cs : List Char) (hw : ofWord cs = .ok v.bare) :
      start stack (.word cs) = .ok (complete v.bare stack) := by
    simp only [start, if_neg hs, hw, Except.map]
  cases h with
  | nil => exact word _ (by rw [bare]; exact ofWord_nil)
  | bool b =>
    cases b with
    | true => exact word _ (by rw [bare]; exact ofWord_true)
    | false => exact word _ (by rw [bare]; exact ofWord_false)
  | int n => exact word _ (by rw [bare]; exact ofWord_int n)
  | sym _ symbol => exact word _ (by rw [bare]; exact symbol)
  | kw _ => exact word _ (by rw [bare]; exact ofWord_keyword _)
  | str text =>
    have hd : Quoted.decode (Quoted.encode text.toList ++ [Quoted.mark]) = some text.toList :=
      Quoted.decode_encode text.toList []
    simp only [start, if_neg hs, scalarToken, hd, String.ofList_toList, bare]
  | list | vec | map => cases hv

/-- The elements of a container are read one after the other into the innermost open bracket. -/
theorem readOn_row {levels : Nat} (b : Bracket) (stack : List Pending) (row : List Value)
    (h : ∀ x ∈ row, ∀ acc ts, readOn (.seq b acc :: stack) (tokens levels x ++ ts) =
      if fits levels x then resume (complete x.bare (.seq b acc :: stack)) ts
      else .error Cause.nesting.fault)
    (acc : List Value) (ts : List Token) :
    readOn (.seq b acc :: stack) (row.flatMap (tokens levels) ++ ts) =
      if row.all (fits levels) then readOn (.seq b ((row.map bare).reverse ++ acc) :: stack) ts
      else .error Cause.nesting.fault := by
  induction row generalizing acc with
  | nil => rfl
  | cons x row ih =>
    rw [List.flatMap_cons, List.append_assoc, h x (List.mem_cons_self ..)]
    by_cases hx : fits levels x = true
    · rw [if_pos hx]
      simp only [complete, resume]
      rw [ih fun y hy => h y (List.mem_cons_of_mem _ hy)]
      simp [hx]
    · simp [hx]

/-- The tokens of a printed value are read as the value without its metadata if it fits into the
levels that are left; otherwise the reading fails where the value gets too deep. -/
theorem readOn_tokens {v : Value} (h : Readable v) {levels : Nat} {stack : List Pending}
    (hs : stack.length + levels = maxFormDepth) (ts : List Token) :
    readOn stack (tokens levels v ++ ts) =
      if fits levels v then resume (complete v.bare stack) ts
      else .error Cause.nesting.fault := by
  induction levels generalizing v stack ts with
  | zero =>
    refine readOn_error ?_
    rw [feed_start (scalarToken_ne_closing v), start_deep (Nat.le_of_eq hs.symm)]
  | succ levels ih =>
    have hlt : stack.length < maxFormDepth := by omega
    cases hv : v.row? with
    | none =>
      rw [fits_leaf hv, tokens, hv, if_pos rfl]
      refine readOn_cons ?_
      rw [feed_start (scalarToken_ne_closing v), start_scalar h hv hlt]
    | some found =>
      obtain ⟨b, row⟩ := found
      have hopen : feed stack (.opening b) = .ok (.more (.seq b [] :: stack)) := by
        rw [feed_start (by simp), start, if_neg (Nat.not_le.mpr hlt)]
      have hrow := readOn_row b stack row
        (fun x hx acc ts => ih (h.row hv x hx) (by simp only [List.length_cons]; omega) ts)
        [] (.closing b :: ts)
      have hclose : feed (.seq b (row.map bare).reverse :: stack) (.closing b) =
          .ok (complete v.bare stack) := by
        simp [feed, ofBracket_row h hv, Except.map]
      rw [tokens, hv]
      simp only [List.cons_append, List.append_assoc, List.nil_append]
      rw [readOn_cons hopen, resume, hrow, fits_succ hv, List.append_nil, readOn_cons hclose]

theorem tokens_ne_nil (levels : Nat) (v : Value) : tokens levels v ≠ [] := by
  cases levels with
  | zero => exact List.cons_ne_nil _ _
  | succ levels =>
    rw [tokens]
    split
    · exact List.cons_ne_nil _ _
    · exact List.cons_ne_nil _ _

theorem ofTokens_ne_nil {ts : List Token} (h : ts ≠ []) :
    ofTokens ts = (readOn [] ts).map fun r => some r.1 := by
  cases ts with
  | nil => exact absurd rfl h
  | cons t ts => rfl

theorem read_of_tokens {source : String} {cs : List Char} {result : Except Fault (Option Value)}
    (hs : String.ofList cs = source) (h : ofTokens (Token.scan cs) = result) :
    read source = result := by
  rw [read, ← hs, String.toList_ofList]
  exact h

/-- Reading the text of a value with a written form. -/
theorem read_print {v : Value} (h : Readable v) (heap : Heap) :
    read (v.print heap .readable) =
      if fits maxFormDepth v then .ok (some v.bare) else .error Cause.nesting.fault := by
  have hscan : Token.scan (text heap .readable maxFormDepth v) = tokens maxFormDepth v := by
    have := scan_text h heap maxFormDepth endsWord_nil
    simpa [Token.scan_nil] using this
  have hread := readOn_tokens h (show [].length + maxFormDepth = maxFormDepth from Nat.zero_add _) []
  rw [List.append_nil] at hread
  rw [read, print, String.toList_ofList, hscan, ofTokens_ne_nil (tokens_ne_nil _ _), hread]
  split <;> rfl

end Value
end MiniLisp
