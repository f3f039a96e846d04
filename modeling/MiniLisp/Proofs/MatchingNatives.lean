import MiniLisp.Proofs.CleanNatives
import MiniLisp.Proofs.MatchingRuns

namespace MiniLisp

open Value

variable {ρ : Matching} {α β : Type} {v v' : Value} {args args' : List Value}

theorem Arity.check_matches (arity : Arity) (name : String) {count count' : Nat} (h : count = count') :
    Result.Matches ρ Eq (arity.check name count) (arity.check name count') := by
  subst h
  rw [check]
  split
  · exact .ok rfl
  · exact .raise _

theorem Row.Matches.getElem? {xs ys : List Value} (h : Row.Matches ρ xs ys) (i : Nat) :
    Option.Rel (Value.Matches ρ) xs[i]? ys[i]? := by
  induction h generalizing i with
  | nil => exact .none
  | cons hxy _ ih =>
    cases i with
    | zero => exact .some hxy
    | succ i => simpa using ih i

theorem toKey_matches (h : v.Matches ρ v') : Result.Matches ρ Eq v.toKey v'.toKey := by
  rw [toKey, toKey, ← h.key?, ← h.typeName]
  split
  · exact .ok rfl
  · exact .raise _

theorem insertAll_matches {es fs : Entries Key Value} (he : Entries.Matches ρ es fs)
    (h : Row.Matches ρ args args') :
    Result.Matches ρ (Entries.Matches ρ) (insertAll es args) (insertAll fs args') := by
  induction es, args using insertAll.induct generalizing fs args' with
  | case1 es key value rest ih =>
    rcases h with _ | ⟨hkey, _ | ⟨hvalue, hrest⟩⟩
    rw [insertAll, insertAll]
    refine .bind (toKey_matches hkey) ?_
    rintro k _ rfl
    exact ih k (he.insert k hvalue) hrest
  | case2 es row hrow =>
    rcases h with _ | ⟨hkey, _ | ⟨hvalue, hrest⟩⟩
    · exact .ok he
    · exact .ok he
    · exact absurd rfl (hrow _ _ _)

theorem insertPairs_matches {es fs : Entries Key Value} (he : Entries.Matches ρ es fs)
    (h : Row.Matches ρ args args') :
    Result.Matches ρ (Entries.Matches ρ) (insertPairs es args) (insertPairs fs args') := by
  rw [insertPairs, insertPairs, h.length_eq]
  split
  · exact .raise _
  · exact insertAll_matches he h

namespace Native

variable {P : α → β → Prop} {op : Native}

theorem wrongCount_matches (op : Native) (h : Row.Matches ρ args args') :
    Result.Matches ρ P (op.wrongCount args) (op.wrongCount args') := by
  rw [wrongCount, wrongCount, h.length_eq]
  exact .raise _

theorem wrongOperand_matches (expected : String) (h : v.Matches ρ v') :
    Result.Matches ρ P (op.wrongOperand expected v) (op.wrongOperand expected v') := by
  rw [wrongOperand, wrongOperand, h.typeName]
  exact .raise _

theorem wrongType_matches (expected : String) (h : v.Matches ρ v') :
    Result.Matches ρ P (op.wrongType expected v) (op.wrongType expected v') := by
  rw [wrongType, wrongType, h.typeName]
  exact .raise _

theorem read_matches (source : String) :
    Result.Matches ρ (Option.Rel (Value.Matches ρ)) (Value.read source) (Value.read source) := by
  cases hr : Value.read source with
  | ok v? =>
    cases v? with
    | none => exact .ok .none
    | some v => exact .ok (.some (matches_of_read hr))
  | error fault =>
    obtain ⟨cause, rfl⟩ := read_raised source fault hr
    exact .raise cause

theorem integer_matches (h : v.Matches ρ v') :
    Result.Matches ρ Eq (op.integer v) (op.integer v') := by
  have hv := h
  cases h with
  | int n => exact .ok rfl
  | _ => exact wrongOperand_matches _ hv

theorem text_matches (h : v.Matches ρ v') : Result.Matches ρ Eq (op.text v) (op.text v') := by
  have hv := h
  cases h with
  | str text => exact .ok rfl
  | _ => exact wrongOperand_matches _ hv

theorem elements_matches (h : v.Matches ρ v') :
    Result.Matches ρ (Row.Matches ρ) (op.elements v) (op.elements v') := by
  rw [elements, elements]
  rcases h.elements?.split with ⟨he, he'⟩ | ⟨xs, ys, he, he', hxy⟩
  · rw [he, he']
    exact wrongOperand_matches _ h
  · rw [he, he']
    exact .ok hxy

theorem elementsOrNil_matches (h : v.Matches ρ v') :
    Result.Matches ρ (Row.Matches ρ) (op.elementsOrNil v) (op.elementsOrNil v') := by
  have helements : Result.Matches ρ (Row.Matches ρ) (op.elements v) (op.elements v') :=
    elements_matches h
  cases h with
  | nil => exact .ok .nil
  | _ => exact helements

theorem entries_matches (h : v.Matches ρ v') :
    Result.Matches ρ (Entries.Matches ρ) (op.entries v) (op.entries v') := by
  have hv := h
  cases h with
  | map => exact .ok (matches_map.mp hv).1
  | _ => exact wrongType_matches _ hv

theorem cell_matches (h : v.Matches ρ v') :
    Result.Matches ρ (fun id id' => ρ.cells.pairs id.index id'.index) (op.cell v) (op.cell v') := by
  have hv := h
  cases h with
  | atom place => exact .ok place
  | _ => exact wrongType_matches _ hv

theorem callable_matches (h : v.Matches ρ v') :
    Result.Matches ρ Eq (op.callable v) (op.callable v') := by
  have hv := h
  cases h with
  | native => exact .ok rfl
  | fn => exact .ok rfl
  | _ => exact wrongType_matches _ hv

theorem callArguments_matches (h : v.Matches ρ v') :
    Result.Matches ρ (Row.Matches ρ) (op.callArguments v) (op.callArguments v') := by
  rw [callArguments, callArguments]
  rcases h.elements?.split with ⟨he, he'⟩ | ⟨xs, ys, he, he', hxy⟩
  · rw [he, he']
    exact wrongType_matches _ h
  · rw [he, he']
    exact .ok hxy

/-- A computation on integers alone. -/
theorem refl_of_raised {r : Except Fault α} (h : Raised r) : Result.Matches ρ Eq r r := by
  cases r with
  | ok a => exact .ok rfl
  | error fault =>
    obtain ⟨cause, rfl⟩ := h fault rfl
    exact .raise cause

theorem exact_raised (op : Native) (n : Int) : Raised (op.exact n) := by
  unfold Native.exact
  split
  · exact .ok _
  · exact .raise _

theorem combine_raised (op : Native) (a b : Int64) : Raised (op.combine a b) := by
  unfold combine
  split
  · exact exact_raised _ _
  · exact exact_raised _ _
  · exact exact_raised _ _
  · unfold quotient
    split
    · exact .raise _
    · exact .bind (exact_raised _ _) fun _ => .ok _

theorem accumulate_matches (reached : Int64) (h : Row.Matches ρ args args') :
    Result.Matches ρ Eq (op.accumulate reached args) (op.accumulate reached args') := by
  induction h generalizing reached with
  | nil => exact .ok rfl
  | cons hxy _ ih =>
    rw [accumulate, accumulate]
    refine .bind (integer_matches hxy) ?_
    rintro n _ rfl
    refine .bind (refl_of_raised (combine_raised op reached n)) ?_
    rintro r _ rfl
    exact ih r

theorem total_matches (start : Int64) (h : Row.Matches ρ args args') :
    Result.Matches ρ (Value.Matches ρ) (op.total start args) (op.total start args') := by
  refine .bind (accumulate_matches start h) ?_
  rintro n _ rfl
  exact .ok (.int n)

theorem reduction_matches (h : Row.Matches ρ args args') :
    Result.Matches ρ (Value.Matches ρ) (op.reduction args) (op.reduction args') := by
  have hargs := h
  rcases h with _ | ⟨ha, _ | ⟨hb, hmore⟩⟩
  · exact total_matches 0 hargs
  · exact total_matches 0 hargs
  · refine .bind (integer_matches ha) ?_
    rintro n _ rfl
    exact total_matches n (.cons hb hmore)

theorem comparison_matches (h : Row.Matches ρ args args') :
    Result.Matches ρ (Value.Matches ρ) (op.comparison args) (op.comparison args') := by
  refine .bind (.mapM h fun _ _ => integer_matches) fun ns ms hns => ?_
  rw [List.forall₂_eq_eq_eq] at hns
  subst hns
  exact .ok (.bool _)

theorem runPredicate_matches (h : Row.Matches ρ args args') :
    Result.Matches ρ (Value.Matches ρ) (op.runPredicate args) (op.runPredicate args') := by
  rcases h with _ | ⟨hv, _ | ⟨hnext, hmore⟩⟩
  · exact .ok (.bool _)
  · have hsame : ∀ {a b}, a.Matches ρ b → op.recognizes a = op.recognizes b := by
      intro a b hab
      cases hab <;> cases op <;> rfl
    rw [runPredicate, runPredicate, hsame hv]
    exact .ok (.bool _)
  · exact .ok (.bool _)

theorem allSame_eq {a a' : Value} (ha : a.Matches ρ a') (h : Row.Matches ρ args args') :
    (args.all fun b => b.same a) = args'.all fun b => b.same a' := by
  induction h with
  | nil => rfl
  | cons hb _ ih => rw [List.all_cons, List.all_cons, hb.same ha, ih]

theorem runEqual_matches (h : Row.Matches ρ args args') :
    Result.Matches ρ (Value.Matches ρ) (runEqual args) (runEqual args') := by
  have hargs := h
  rcases h with _ | ⟨ha, hothers⟩
  · exact wrongCount_matches _ hargs
  · rw [runEqual, runEqual, allSame_eq ha hothers]
    exact .ok (.bool _)

theorem runCons_matches (h : Row.Matches ρ args args') :
    Result.Matches ρ (Value.Matches ρ) (runCons args) (runCons args') := by
  have hargs := h
  rcases h with _ | ⟨hhead, _ | ⟨htail, _ | _⟩⟩
  case cons.cons.nil =>
    exact .bind (elementsOrNil_matches htail) fun _ _ hitems =>
      .ok (matches_ofList.mpr (.cons hhead hitems))
  all_goals exact wrongCount_matches _ hargs

theorem runConcat_matches (h : Row.Matches ρ args args') :
    Result.Matches ρ (Value.Matches ρ) (runConcat args) (runConcat args') :=
  .bind (.mapM h fun _ _ => elementsOrNil_matches) fun _ _ hrows =>
    .ok (matches_ofList.mpr (List.rel_flatten hrows))

theorem runConj_matches (h : Row.Matches ρ args args') :
    Result.Matches ρ (Value.Matches ρ) (runConj args) (runConj args') := by
  have hargs := h
  rcases h with _ | ⟨hv, hnew⟩
  · exact wrongCount_matches _ hargs
  · have hv' := hv
    cases hv with
    | list =>
      exact .ok (matches_ofList.mpr
        (List.rel_append (List.rel_reverse hnew) (matches_list.mp hv').1))
    | vec => exact .ok (matches_ofVec.mpr (List.rel_append (matches_vec.mp hv').1 hnew))
    | _ => exact wrongOperand_matches _ hv'

theorem runNth_matches (h : Row.Matches ρ args args') :
    Result.Matches ρ (Value.Matches ρ) (runNth args) (runNth args') := by
  have hargs := h
  rcases h with _ | ⟨hxs, _ | ⟨hindex, _ | _⟩⟩
  case cons.cons.nil =>
    refine .bind (elements_matches hxs) fun items items' hitems => .bind (integer_matches hindex) ?_
    rintro i _ rfl
    by_cases hi : i.toInt < 0
    · simp only [hi, if_true]
      exact .raise _
    · simp only [hi, if_false]
      rcases (hitems.getElem? i.toInt.toNat).split with ⟨hv, hv'⟩ | ⟨v, v', hv, hv', hvv⟩
      · rw [hv, hv']
        exact .raise _
      · rw [hv, hv']
        exact .ok hvv
  all_goals exact wrongCount_matches _ hargs

theorem runFirst_matches (h : Row.Matches ρ args args') :
    Result.Matches ρ (Value.Matches ρ) (runFirst args) (runFirst args') := by
  have hargs := h
  rcases h with _ | ⟨hxs, _ | _⟩
  case cons.nil =>
    exact .bind (elementsOrNil_matches hxs) fun _ _ hitems => .ok (Row.Matches.headD hitems)
  all_goals exact wrongCount_matches _ hargs

theorem runRest_matches (h : Row.Matches ρ args args') :
    Result.Matches ρ (Value.Matches ρ) (runRest args) (runRest args') := by
  have hargs := h
  rcases h with _ | ⟨hxs, _ | _⟩
  case cons.nil =>
    exact .bind (elementsOrNil_matches hxs) fun _ _ hitems =>
      .ok (matches_ofList.mpr (Row.Matches.tail hitems))
  all_goals exact wrongCount_matches _ hargs

theorem runIsEmpty_matches (h : Row.Matches ρ args args') :
    Result.Matches ρ (Value.Matches ρ) (runIsEmpty args) (runIsEmpty args') := by
  have hargs := h
  rcases h with _ | ⟨hxs, _ | _⟩
  case cons.nil =>
    refine .bind (elementsOrNil_matches hxs) fun _ _ hitems => ?_
    rw [Row.Matches.isEmpty_eq hitems]
    exact .ok (.bool _)
  all_goals exact wrongCount_matches _ hargs

theorem runCount_matches (h : Row.Matches ρ args args') :
    Result.Matches ρ (Value.Matches ρ) (runCount args) (runCount args') := by
  have hargs := h
  rcases h with _ | ⟨hxs, _ | _⟩
  case cons.nil =>
    refine .bind (elementsOrNil_matches hxs) fun items items' hitems => ?_
    rw [List.Forall₂.length_eq hitems]
    refine .bind (refl_of_raised (exact_raised .count _)) ?_
    rintro n _ rfl
    exact .ok (.int n)
  all_goals exact wrongCount_matches _ hargs

theorem runSeq_many (v w : Value) (more : List Value) :
    runSeq (v :: w :: more) = seq.wrongCount (v :: w :: more) := by
  cases v with
  | list items => cases items <;> rfl
  | vec items => cases items <;> rfl
  | _ => rfl

theorem runSeq_matches (h : Row.Matches ρ args args') :
    Result.Matches ρ (Value.Matches ρ) (runSeq args) (runSeq args') := by
  have hargs := h
  rcases h with _ | ⟨hv, _ | _⟩
  · exact wrongCount_matches _ hargs
  · have hv' := hv
    cases hv with
    | nil => exact .ok .nil
    | list =>
      rcases (matches_list.mp hv').1 with _ | _
      · exact .ok .nil
      · exact .ok hv'
    | vec =>
      have hitems := (matches_vec.mp hv').1
      rcases (matches_vec.mp hv').1 with _ | _
      · exact .ok .nil
      · exact .ok (matches_ofList.mpr hitems)
    | str s =>
      simp only [runSeq]
      split
      · exact .ok .nil
      · refine .ok (matches_ofList.mpr (List.forall₂_same.mpr fun v hv => ?_))
        obtain ⟨c, -, rfl⟩ := List.mem_map.mp hv
        exact .str _
    | _ => exact wrongOperand_matches _ hv'
  · rw [runSeq_many, runSeq_many]
    exact wrongCount_matches _ hargs

theorem runHashMap_matches (h : Row.Matches ρ args args') :
    Result.Matches ρ (Value.Matches ρ) (runHashMap args) (runHashMap args') :=
  .bind (insertPairs_matches .nil h) fun _ _ hentries => .ok (matches_ofEntries.mpr hentries)

theorem runAssoc_matches (h : Row.Matches ρ args args') :
    Result.Matches ρ (Value.Matches ρ) (runAssoc args) (runAssoc args') := by
  have hargs := h
  rcases h with _ | ⟨hm, hpairs⟩
  · exact wrongCount_matches _ hargs
  · exact .bind (entries_matches hm) fun _ _ hentries =>
      .bind (insertPairs_matches hentries hpairs) fun _ _ hall => .ok (matches_ofEntries.mpr hall)

theorem eraseAll_matches {es fs : Entries Key Value} (h : Entries.Matches ρ es fs) (keys : List Key) :
    Entries.Matches ρ (keys.foldl (fun es k => Entries.erase k es) es)
      (keys.foldl (fun es k => Entries.erase k es) fs) := by
  induction keys generalizing es fs with
  | nil => exact h
  | cons key keys ih => exact ih (h.erase key)

theorem keysOf_eq {ks ks' : List Value} (h : Row.Matches ρ ks ks') :
    ks.filterMap Value.key? = ks'.filterMap Value.key? := by
  induction h with
  | nil => rfl
  | cons hk _ ih => rw [List.filterMap_cons, List.filterMap_cons, hk.key?, ih]

theorem runDissoc_matches (h : Row.Matches ρ args args') :
    Result.Matches ρ (Value.Matches ρ) (runDissoc args) (runDissoc args') := by
  have hargs := h
  rcases h with _ | ⟨hm, hks⟩
  · exact wrongCount_matches _ hargs
  · refine .bind (entries_matches hm) fun _ _ hentries => ?_
    rw [keysOf_eq hks]
    exact .ok (matches_ofEntries.mpr (eraseAll_matches hentries _))

theorem found_matches {es fs : Entries Key Value} (h : Entries.Matches ρ es fs)
    (hv : v.Matches ρ v') : Option.Rel (Value.Matches ρ) (v.key?.bind fun k => Entries.find? k es)
      (v'.key?.bind fun k => Entries.find? k fs) := by
  rw [hv.key?]
  cases v'.key? with
  | none => exact .none
  | some key => exact h.find? key

theorem runGet_matches (h : Row.Matches ρ args args') :
    Result.Matches ρ (Value.Matches ρ) (runGet args) (runGet args') := by
  have hargs := h
  rcases h with _ | ⟨hm, _ | ⟨hkey, _ | _⟩⟩
  · exact wrongCount_matches _ hargs
  · cases hm <;> exact wrongCount_matches _ hargs
  · have hm' := hm
    cases hm with
    | nil => exact .ok .nil
    | _ =>
      refine .bind (entries_matches hm') fun _ _ hentries => ?_
      rcases (found_matches hentries hkey).split with ⟨hv, hv'⟩ | ⟨v, v', hv, hv', hvv⟩
      · rw [hv, hv']
        exact .ok .nil
      · rw [hv, hv']
        exact .ok hvv
  · cases hm <;> exact wrongCount_matches _ hargs

theorem runContains_matches (h : Row.Matches ρ args args') :
    Result.Matches ρ (Value.Matches ρ) (runContains args) (runContains args') := by
  have hargs := h
  rcases h with _ | ⟨hm, _ | ⟨hkey, _ | _⟩⟩
  case cons.cons.nil =>
    refine .bind (entries_matches hm) fun _ _ hentries => ?_
    rcases (found_matches hentries hkey).split with ⟨hv, hv'⟩ | ⟨v, v', hv, hv', hvv⟩
    · rw [hv, hv']
      exact .ok (.bool _)
    · rw [hv, hv']
      exact .ok (.bool _)
  all_goals exact wrongCount_matches _ hargs

theorem runKeys_matches (h : Row.Matches ρ args args') :
    Result.Matches ρ (Value.Matches ρ) (runKeys args) (runKeys args') := by
  have hargs := h
  rcases h with _ | ⟨hm, _ | _⟩
  case cons.nil =>
    refine .bind (entries_matches hm) fun _ _ hentries => .ok (matches_ofList.mpr ?_)
    rw [Row.Matches, List.forall₂_map_left_iff, List.forall₂_map_right_iff]
    refine hentries.imp ?_
    rintro ⟨k, _⟩ ⟨_, _⟩ ⟨rfl, -⟩
    exact matches_toValue k
  all_goals exact wrongCount_matches _ hargs

theorem runVals_matches (h : Row.Matches ρ args args') :
    Result.Matches ρ (Value.Matches ρ) (runVals args) (runVals args') := by
  have hargs := h
  rcases h with _ | ⟨hm, _ | _⟩
  case cons.nil =>
    refine .bind (entries_matches hm) fun _ _ hentries => .ok (matches_ofList.mpr ?_)
    rw [Row.Matches, List.forall₂_map_left_iff, List.forall₂_map_right_iff]
    exact hentries.imp fun e f hef => hef.2
  all_goals exact wrongCount_matches _ hargs

theorem runSymbol_matches (h : Row.Matches ρ args args') :
    Result.Matches ρ (Value.Matches ρ) (runSymbol args) (runSymbol args') := by
  have hargs := h
  rcases h with _ | ⟨hv, _ | _⟩
  · exact wrongCount_matches _ hargs
  · have hv' := hv
    cases hv with
    | str s => exact .ok (.sym s)
    | _ => exact wrongType_matches _ hv'
  · cases hv <;> exact wrongCount_matches _ hargs

theorem runKeyword_matches (h : Row.Matches ρ args args') :
    Result.Matches ρ (Value.Matches ρ) (runKeyword args) (runKeyword args') := by
  have hargs := h
  rcases h with _ | ⟨hv, _ | _⟩
  · exact wrongCount_matches _ hargs
  · have hv' := hv
    cases hv with
    | kw name => exact .ok (.kw name)
    | str s =>
      have hself : (ofKeywordName s).Matches ρ (ofKeywordName s) := by
        unfold ofKeywordName
        split <;> exact .kw _
      exact .ok hself
    | _ => exact wrongType_matches _ hv'
  · cases hv <;> exact wrongCount_matches _ hargs

theorem runReadString_matches (h : Row.Matches ρ args args') :
    Result.Matches ρ (Value.Matches ρ) (runReadString args) (runReadString args') := by
  have hargs := h
  rcases h with _ | ⟨hv, _ | _⟩
  case cons.nil =>
    refine .bind (text_matches hv) ?_
    rintro source _ rfl
    refine .bind (read_matches source) fun v? v?' hread => ?_
    cases hread with
    | none => exact .ok .nil
    | some hv => exact .ok hv
  all_goals exact wrongCount_matches _ hargs

theorem runThrow_matches (h : Row.Matches ρ args args') :
    Result.Matches ρ (Value.Matches ρ) (runThrow args) (runThrow args') := by
  have hargs := h
  rcases h with _ | ⟨hv, _ | _⟩
  case cons.nil => exact .error ⟨rfl, hv⟩
  all_goals exact wrongCount_matches _ hargs

theorem runMetadata_matches (hn : ρ.notes) (h : Row.Matches ρ args args') :
    Result.Matches ρ (Value.Matches ρ) (runMetadata args) (runMetadata args') := by
  have hargs := h
  rcases h with _ | ⟨hv, _ | _⟩
  case cons.nil => exact .ok (hv.note hn)
  all_goals exact wrongCount_matches _ hargs

theorem runWithMeta_matches (h : Row.Matches ρ args args') :
    Result.Matches ρ (Value.Matches ρ) (runWithMeta args) (runWithMeta args') := by
  have hargs := h
  rcases h with _ | ⟨hv, _ | ⟨hnote, _ | _⟩⟩
  case cons.cons.nil => exact .ok (hv.withNote hnote)
  all_goals exact wrongCount_matches _ hargs

/-- A native that computes makes matching values of matching arguments, unless it hands out metadata
that need not match. -/
theorem compute_matches {f : List Value → Except Fault Value} (hop : op.behaviour = .compute f)
    (hn : op = .metadata → ρ.notes) (h : Row.Matches ρ args args') :
    Result.Matches ρ (Value.Matches ρ) (f args) (f args') := by
  cases op <;> cases hop
  case add => exact total_matches 0 h
  case sub => exact reduction_matches h
  case mul => exact total_matches 1 h
  case div => exact reduction_matches h
  case equal => exact runEqual_matches h
  case less => exact comparison_matches h
  case lessEqual => exact comparison_matches h
  case greater => exact comparison_matches h
  case greaterEqual => exact comparison_matches h
  case list => exact .ok (matches_ofList.mpr h)
  case vector => exact .ok (matches_ofVec.mpr h)
  case cons => exact runCons_matches h
  case concat => exact runConcat_matches h
  case conj => exact runConj_matches h
  case nth => exact runNth_matches h
  case first => exact runFirst_matches h
  case rest => exact runRest_matches h
  case isEmpty => exact runIsEmpty_matches h
  case count => exact runCount_matches h
  case seq => exact runSeq_matches h
  case hashMap => exact runHashMap_matches h
  case assoc => exact runAssoc_matches h
  case dissoc => exact runDissoc_matches h
  case get => exact runGet_matches h
  case contains => exact runContains_matches h
  case keys => exact runKeys_matches h
  case vals => exact runVals_matches h
  case symbol => exact runSymbol_matches h
  case keyword => exact runKeyword_matches h
  case readString => exact runReadString_matches h
  case throw => exact runThrow_matches h
  case metadata => exact runMetadata_matches (hn rfl) h
  case withMeta => exact runWithMeta_matches h
  all_goals exact runPredicate_matches h

end Native
end MiniLisp
