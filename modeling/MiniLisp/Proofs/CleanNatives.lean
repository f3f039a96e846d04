import MiniLisp.Native.Behaviour
import MiniLisp.Proofs.Clean

namespace MiniLisp

open Value

variable {α β : Type}

/-- The result has the property, or is a failure whose description is clean. -/
def Sound (property : α → Prop) : Except Fault α → Prop
  | .ok a => property a
  | .error fault => fault.payload.Clean

namespace Sound

variable {P : α → Prop} {Q : β → Prop}

theorem raise (cause : Cause) : Sound P (cause.raise : Except Fault α) :=
  Clean.str _

theorem bind {r : Except Fault α} {f : α → Except Fault β} (h : Sound P r)
    (hf : ∀ a, P a → Sound Q (f a)) : Sound Q (r >>= f) := by
  cases r with
  | ok a => exact hf a h
  | error fault => exact h

theorem mapM {f : α → Except Fault β} {xs : List α} (h : ∀ x ∈ xs, Sound Q (f x)) :
    Sound (fun ys => ∀ y ∈ ys, Q y) (xs.mapM f) := by
  induction xs with
  | nil => exact List.forall_mem_nil _
  | cons x xs ih =>
    rw [List.mapM_cons]
    refine bind (h x List.mem_cons_self) fun y hy => ?_
    refine bind (ih fun x hx => h x (List.mem_cons_of_mem _ hx)) fun ys hys => ?_
    exact List.forall_mem_cons.mpr ⟨hy, hys⟩

end Sound

/-- If the computation fails, it does so for one of the interpreter's own causes. -/
def Raised (r : Except Fault α) : Prop :=
  ∀ fault, r = .error fault → ∃ cause : Cause, fault = cause.fault

namespace Raised

variable {r : Except Fault α}

theorem ok (a : α) : Raised (.ok a) := by
  intro fault h
  cases h

theorem raise (cause : Cause) : Raised (cause.raise : Except Fault α) := by
  intro fault h
  cases h
  exact ⟨cause, rfl⟩

theorem bind {f : α → Except Fault β} (h : Raised r) (hf : ∀ a, Raised (f a)) : Raised (r >>= f) := by
  cases r with
  | ok a => exact hf a
  | error fault =>
    intro fault' heq
    cases heq
    exact h fault rfl

theorem map (h : Raised r) (f : α → β) : Raised (r.map f) := by
  cases r with
  | ok a => exact ok (f a)
  | error fault =>
    intro fault' heq
    cases heq
    exact h fault rfl

end Raised

theorem Arity.check_sound (arity : Arity) (name : String) (count : Nat) :
    Sound (fun _ => True) (arity.check name count) := by
  rw [check]
  split
  · exact trivial
  · exact .raise _

namespace Native

variable {op : Native} {v : Value} {args : List Value}

theorem integer_sound : Sound (fun _ => True) (op.integer v) := by
  unfold integer
  split
  · exact trivial
  · exact .raise _

theorem text_sound : Sound (fun _ => True) (op.text v) := by
  unfold text
  split
  · exact trivial
  · exact .raise _

theorem cell_sound : Sound (fun _ => True) (op.cell v) := by
  unfold cell
  split
  · exact trivial
  · exact .raise _

theorem callable_sound : Sound (fun _ => True) (op.callable v) := by
  unfold callable
  split
  · exact trivial
  · exact trivial
  · exact .raise _

theorem elements_sound (h : v.Clean) :
    Sound (fun items => ∀ x ∈ items, x.Clean) (op.elements v) := by
  unfold elements
  split
  · next items hitems => exact h.elements hitems
  · exact .raise _

theorem callArguments_sound (h : v.Clean) :
    Sound (fun items => ∀ x ∈ items, x.Clean) (op.callArguments v) := by
  unfold callArguments
  split
  · next items hitems => exact h.elements hitems
  · exact .raise _

theorem elementsOrNil_sound (h : v.Clean) :
    Sound (fun items => ∀ x ∈ items, x.Clean) (op.elementsOrNil v) := by
  unfold elementsOrNil
  split
  · exact List.forall_mem_nil _
  · exact elements_sound h

theorem entries_sound (h : v.Clean) :
    Sound (fun entries => ∀ e ∈ entries, e.2.Clean) (op.entries v) := by
  unfold entries
  split
  · exact (clean_map.mp h).1
  · exact .raise _

theorem exact_sound (n : Int) : Sound (fun _ => True) (op.exact n) := by
  unfold Native.exact
  split
  · exact trivial
  · exact .raise _

theorem combine_sound (a b : Int64) : Sound (fun _ => True) (op.combine a b) := by
  unfold combine
  split
  · exact exact_sound _
  · exact exact_sound _
  · exact exact_sound _
  · unfold quotient
    split
    · exact .raise _
    · exact .bind (exact_sound _) fun _ _ => trivial

theorem accumulate_sound (reached : Int64) : Sound (fun _ => True) (op.accumulate reached args) := by
  induction args generalizing reached with
  | nil => exact trivial
  | cons arg args ih =>
    exact .bind integer_sound fun n _ => .bind (combine_sound reached n) fun r _ => ih r

theorem total_sound (start : Int64) : Sound Clean (op.total start args) :=
  .bind (accumulate_sound start) fun n _ => Clean.int n

theorem reduction_sound : Sound Clean (op.reduction args) := by
  unfold reduction
  split
  · exact .bind integer_sound fun n _ => total_sound n
  · exact total_sound 0

theorem comparison_sound : Sound Clean (op.comparison args) :=
  .bind (.mapM fun _ _ => integer_sound) fun ns _ => Clean.bool (op.holdsAlong ns)

theorem runPredicate_sound : Sound Clean (op.runPredicate args) := by
  unfold runPredicate
  split
  · exact Clean.bool _
  · exact Clean.bool _

theorem runEqual_sound : Sound Clean (runEqual args) := by
  unfold runEqual
  split
  · exact Clean.bool _
  · exact .raise _

theorem runCons_sound (h : ∀ v ∈ args, v.Clean) : Sound Clean (runCons args) := by
  unfold runCons
  split
  · simp only [List.forall_mem_cons] at h
    exact .bind (elementsOrNil_sound h.2.1) fun items hitems =>
      clean_ofList.mpr (List.forall_mem_cons.mpr ⟨h.1, hitems⟩)
  · exact .raise _

theorem runConcat_sound (h : ∀ v ∈ args, v.Clean) : Sound Clean (runConcat args) := by
  refine .bind (.mapM fun v hv => elementsOrNil_sound (h v hv)) fun rows hrows => ?_
  refine clean_ofList.mpr fun v hv => ?_
  obtain ⟨row, hrow, hv⟩ := List.mem_flatten.mp hv
  exact hrows row hrow v hv

theorem runConj_sound (h : ∀ v ∈ args, v.Clean) : Sound Clean (runConj args) := by
  unfold runConj
  split
  · simp only [List.forall_mem_cons, clean_list] at h
    refine clean_ofList.mpr fun v hv => ?_
    rcases List.mem_append.mp hv with hv | hv
    · exact h.2 v (List.mem_reverse.mp hv)
    · exact h.1.1 v hv
  · simp only [List.forall_mem_cons, clean_vec] at h
    refine clean_ofVec.mpr fun v hv => ?_
    rcases List.mem_append.mp hv with hv | hv
    · exact h.1.1 v hv
    · exact h.2 v hv
  · exact .raise _
  · exact .raise _

theorem runNth_sound (h : ∀ v ∈ args, v.Clean) : Sound Clean (runNth args) := by
  unfold runNth
  split
  · simp only [List.forall_mem_cons] at h
    refine .bind (elements_sound h.1) fun items hitems => .bind integer_sound fun i _ => ?_
    split
    · next v hv =>
      split at hv
      · cases hv
      · exact hitems v (List.mem_of_getElem? hv)
    · exact .raise _
  · exact .raise _

theorem runFirst_sound (h : ∀ v ∈ args, v.Clean) : Sound Clean (runFirst args) := by
  unfold runFirst
  split
  · simp only [List.forall_mem_cons] at h
    refine .bind (elementsOrNil_sound h.1) fun items hitems => ?_
    cases items with
    | nil => exact Clean.nil
    | cons v items => exact hitems v List.mem_cons_self
  · exact .raise _

theorem runRest_sound (h : ∀ v ∈ args, v.Clean) : Sound Clean (runRest args) := by
  unfold runRest
  split
  · simp only [List.forall_mem_cons] at h
    exact .bind (elementsOrNil_sound h.1) fun items hitems =>
      clean_ofList.mpr fun v hv => hitems v (List.mem_of_mem_tail hv)
  · exact .raise _

theorem runIsEmpty_sound (h : ∀ v ∈ args, v.Clean) : Sound Clean (runIsEmpty args) := by
  unfold runIsEmpty
  split
  · simp only [List.forall_mem_cons] at h
    exact .bind (elementsOrNil_sound h.1) fun items _ => Clean.bool _
  · exact .raise _

theorem runCount_sound (h : ∀ v ∈ args, v.Clean) : Sound Clean (runCount args) := by
  unfold runCount
  split
  · simp only [List.forall_mem_cons] at h
    exact .bind (elementsOrNil_sound h.1) fun items _ => .bind (exact_sound _) fun n _ => Clean.int n
  · exact .raise _

theorem runSeq_sound (h : ∀ v ∈ args, v.Clean) : Sound Clean (runSeq args) := by
  unfold runSeq
  split
  · exact Clean.nil
  · exact Clean.nil
  · exact Clean.nil
  · exact (List.forall_mem_cons.mp h).1
  · exact clean_ofList.mpr (clean_vec.mp (List.forall_mem_cons.mp h).1).1
  · split
    · exact Clean.nil
    · refine clean_ofList.mpr fun v hv => ?_
      obtain ⟨c, -, rfl⟩ := List.mem_map.mp hv
      exact Clean.str _
  · exact .raise _
  · exact .raise _

theorem toKey_sound : Sound (fun _ => True) v.toKey := by
  unfold toKey
  split
  · exact trivial
  · exact .raise _

theorem insertAll_sound {P : Value → Prop} {entries : Entries Key Value}
    (he : ∀ e ∈ entries, P e.2) (h : ∀ v ∈ args, P v) :
    Sound (fun entries => ∀ e ∈ entries, P e.2) (insertAll entries args) := by
  induction entries, args using insertAll.induct with
  | case1 entries key value rest ih =>
    simp only [List.forall_mem_cons] at h
    exact .bind toKey_sound fun k _ => ih k (Entries.insert_values he h.2.1) h.2.2
  | case2 entries row hrow =>
    rw [insertAll]
    · exact he
    · exact hrow

theorem insertPairs_sound {P : Value → Prop} {entries : Entries Key Value}
    (he : ∀ e ∈ entries, P e.2) (h : ∀ v ∈ args, P v) :
    Sound (fun entries => ∀ e ∈ entries, P e.2) (insertPairs entries args) := by
  unfold insertPairs
  split
  · exact .raise _
  · exact insertAll_sound he h

theorem runHashMap_sound (h : ∀ v ∈ args, v.Clean) : Sound Clean (runHashMap args) :=
  .bind (insertPairs_sound (List.forall_mem_nil _) h) fun _ hentries => clean_ofEntries.mpr hentries

theorem runAssoc_sound (h : ∀ v ∈ args, v.Clean) : Sound Clean (runAssoc args) := by
  unfold runAssoc
  split
  · simp only [List.forall_mem_cons] at h
    refine .bind (entries_sound h.1) fun entries hentries => ?_
    exact .bind (insertPairs_sound hentries h.2) fun _ hentries => clean_ofEntries.mpr hentries
  · exact .raise _

theorem eraseAll_clean {entries : Entries Key Value} (h : ∀ e ∈ entries, e.2.Clean)
    (keys : List Key) : ∀ e ∈ keys.foldl (fun es k => Entries.erase k es) entries, e.2.Clean := by
  induction keys generalizing entries with
  | nil => exact h
  | cons k keys ih => exact ih fun e he => h e ((Entries.erase_sublist k _).subset he)

theorem runDissoc_sound (h : ∀ v ∈ args, v.Clean) : Sound Clean (runDissoc args) := by
  unfold runDissoc
  split
  · simp only [List.forall_mem_cons] at h
    exact .bind (entries_sound h.1) fun entries hentries =>
      clean_ofEntries.mpr (eraseAll_clean hentries _)
  · exact .raise _

theorem runGet_sound (h : ∀ v ∈ args, v.Clean) : Sound Clean (runGet args) := by
  unfold runGet
  split
  · exact Clean.nil
  · next m key _ =>
    simp only [List.forall_mem_cons] at h
    refine .bind (entries_sound h.1) fun entries hentries => ?_
    cases hfound : key.key?.bind fun k => Entries.find? k entries with
    | none => exact Clean.nil
    | some v =>
      obtain ⟨k, -, hk⟩ := Option.bind_eq_some_iff.mp hfound
      exact hentries _ (Entries.mem_of_find? hk)
  · exact .raise _

theorem runContains_sound (h : ∀ v ∈ args, v.Clean) : Sound Clean (runContains args) := by
  unfold runContains
  split
  · simp only [List.forall_mem_cons] at h
    exact .bind (entries_sound h.1) fun entries _ => Clean.bool _
  · exact .raise _

theorem runKeys_sound (h : ∀ v ∈ args, v.Clean) : Sound Clean (runKeys args) := by
  unfold runKeys
  split
  · simp only [List.forall_mem_cons] at h
    refine .bind (entries_sound h.1) fun entries _ => clean_ofList.mpr fun v hv => ?_
    obtain ⟨e, -, rfl⟩ := List.mem_map.mp hv
    exact clean_toValue e.1
  · exact .raise _

theorem runVals_sound (h : ∀ v ∈ args, v.Clean) : Sound Clean (runVals args) := by
  unfold runVals
  split
  · simp only [List.forall_mem_cons] at h
    refine .bind (entries_sound h.1) fun entries hentries => clean_ofList.mpr fun v hv => ?_
    obtain ⟨e, he, rfl⟩ := List.mem_map.mp hv
    exact hentries e he
  · exact .raise _

theorem runSymbol_sound : Sound Clean (runSymbol args) := by
  unfold runSymbol
  split
  · exact Clean.sym _
  · exact .raise _
  · exact .raise _

theorem runKeyword_sound : Sound Clean (runKeyword args) := by
  unfold runKeyword
  split
  · exact Clean.kw _
  · unfold ofKeywordName
    split
    · exact Clean.kw _
    · exact Clean.kw _
  · exact .raise _
  · exact .raise _

theorem insertAll_raised (entries : Entries Key Value) (row : List Value) :
    Raised (insertAll entries row) := by
  induction entries, row using insertAll.induct with
  | case1 entries key value rest ih =>
    rw [insertAll]
    refine .bind ?_ ih
    unfold toKey
    split
    · exact .ok _
    · exact .raise _
  | case2 entries row hrow =>
    rw [insertAll]
    · exact .ok _
    · exact hrow

theorem ofWord_raised (cs : List Char) : Raised (ofWord cs) := by
  unfold ofWord
  split
  · split
    · exact .ok _
    · exact .raise _
  · split <;> exact .ok _

theorem ofBracket_raised (b : Bracket) (items : List Value) : Raised (ofBracket b items) := by
  unfold ofBracket
  split
  · exact .ok _
  · exact .ok _
  · refine .map ?_ ofEntries
    unfold insertPairs
    split
    · exact .raise _
    · exact insertAll_raised [] items

theorem start_raised (stack : List Pending) (t : Token) : Raised (start stack t) := by
  unfold start
  split
  · exact .raise _
  · split
    · exact .ok _
    · exact .raise _
    · exact .ok _
    · split
      · exact .ok _
      · exact .raise _
    · exact (ofWord_raised _).map _

theorem feed_raised (stack : List Pending) (t : Token) : Raised (feed stack t) := by
  unfold feed
  split
  · split
    · exact (ofBracket_raised _ _).map _
    · exact start_raised _ _
  · exact start_raised _ _

theorem readOn_raised (stack : List Pending) (ts : List Token) : Raised (readOn stack ts) := by
  induction ts generalizing stack with
  | nil => exact .raise _
  | cons t ts ih =>
    have hfeed := feed_raised stack t
    rw [readOn]
    split
    · next f hf =>
      obtain ⟨cause, rfl⟩ := hfeed f hf
      exact .raise cause
    · exact ih _
    · exact .ok _

/-- What is wrong with a text that cannot be read, the interpreter says itself. -/
theorem read_raised (source : String) : Raised (Value.read source) := by
  rw [Value.read]
  cases Token.scan source.toList with
  | nil => exact .ok none
  | cons t ts =>
    rw [ofTokens_ne_nil (List.cons_ne_nil t ts)]
    exact (readOn_raised [] (t :: ts)).map _

/-- Reading a text, too, makes no error values and describes its failures in words. -/
theorem read_sound (source : String) :
    Sound (fun v? => ∀ v, v? = some v → v.Clean) (Value.read source) := by
  cases hr : Value.read source with
  | ok v? =>
    rintro v rfl
    exact clean_of_read hr
  | error fault =>
    obtain ⟨cause, rfl⟩ := read_raised source fault hr
    exact Clean.str _

theorem runReadString_sound : Sound Clean (runReadString args) := by
  unfold runReadString
  split
  · refine .bind text_sound fun source _ => .bind (read_sound source) fun v? hv => ?_
    cases v? with
    | none => exact Clean.nil
    | some v => exact hv v rfl
  · exact .raise _

theorem runThrow_sound (h : ∀ v ∈ args, v.Clean) : Sound Clean (runThrow args) := by
  unfold runThrow
  split
  · exact (List.forall_mem_cons.mp h).1
  · exact .raise _

theorem runMetadata_sound (h : ∀ v ∈ args, v.Clean) : Sound Clean (runMetadata args) := by
  unfold runMetadata
  split
  · exact (List.forall_mem_cons.mp h).1.note
  · exact .raise _

theorem runWithMeta_sound (h : ∀ v ∈ args, v.Clean) : Sound Clean (runWithMeta args) := by
  unfold runWithMeta
  split
  · simp only [List.forall_mem_cons] at h
    exact h.1.withNote h.2.1
  · exact .raise _

/-- A native that computes keeps error values out of what it makes. -/
theorem compute_sound {f : List Value → Except Fault Value} (hop : op.behaviour = .compute f)
    (h : ∀ v ∈ args, v.Clean) : Sound Clean (f args) := by
  cases op <;> cases hop
  case add => exact total_sound 0
  case sub => exact reduction_sound
  case mul => exact total_sound 1
  case div => exact reduction_sound
  case equal => exact runEqual_sound
  case less => exact comparison_sound
  case lessEqual => exact comparison_sound
  case greater => exact comparison_sound
  case greaterEqual => exact comparison_sound
  case list => exact clean_ofList.mpr h
  case vector => exact clean_ofVec.mpr h
  case cons => exact runCons_sound h
  case concat => exact runConcat_sound h
  case conj => exact runConj_sound h
  case nth => exact runNth_sound h
  case first => exact runFirst_sound h
  case rest => exact runRest_sound h
  case isEmpty => exact runIsEmpty_sound h
  case count => exact runCount_sound h
  case seq => exact runSeq_sound h
  case hashMap => exact runHashMap_sound h
  case assoc => exact runAssoc_sound h
  case dissoc => exact runDissoc_sound h
  case get => exact runGet_sound h
  case contains => exact runContains_sound h
  case keys => exact runKeys_sound h
  case vals => exact runVals_sound h
  case symbol => exact runSymbol_sound
  case keyword => exact runKeyword_sound
  case readString => exact runReadString_sound
  case throw => exact runThrow_sound h
  case metadata => exact runMetadata_sound h
  case withMeta => exact runWithMeta_sound h
  all_goals exact runPredicate_sound

end Native
end MiniLisp
