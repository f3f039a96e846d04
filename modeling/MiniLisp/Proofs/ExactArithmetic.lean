import MiniLisp.Proofs.Arithmetic
import Mathlib.Data.Rat.Floor

namespace MiniLisp

open Value

/-- The range of the integers of the language. -/
def InRange (n : Int) : Prop :=
  -2 ^ 63 ≤ n ∧ n < 2 ^ 63

theorem inRange_toInt (k : Int64) : InRange k.toInt :=
  ⟨Int64.le_toInt k, Int64.toInt_lt k⟩

theorem integer?_of_inRange {n : Int} (h : InRange n) : ∃ k, integer? n = some k ∧ k.toInt = n := by
  have hk : (Int64.ofInt n).toInt = n := Int64.toInt_ofInt_of_le h.1 h.2
  exact ⟨_, integer?_eq_some_iff.mpr hk, hk⟩

theorem integer?_eq_none_iff {n : Int} : integer? n = none ↔ ¬ InRange n := by
  constructor
  · intro h hn
    obtain ⟨k, hk, -⟩ := integer?_of_inRange hn
    rw [h] at hk
    cases hk
  · intro h
    rw [Option.eq_none_iff_forall_ne_some]
    intro k hk
    exact h (integer?_eq_some_iff.mp hk ▸ inRange_toInt k)

section Division

theorem fdiv_eq_floor (a b : Int) : a.fdiv b = ⌊(a : ℚ) / b⌋ := by
  rcases Int.le_total 0 b with hb | hb
  · obtain ⟨d, rfl⟩ := Int.eq_ofNat_of_zero_le hb
    rw [Int.fdiv_eq_ediv_of_nonneg a hb]
    exact (Rat.floor_intCast_div_natCast a d).symm
  · obtain ⟨d, hd⟩ := Int.eq_ofNat_of_zero_le (Int.neg_nonneg_of_nonpos hb)
    have hfloor := Rat.floor_intCast_div_natCast (-a) d
    have hb : b = -(d : Int) := by omega
    rw [← Int.neg_fdiv_neg, hd, Int.fdiv_eq_ediv_of_nonneg _ (Int.natCast_nonneg d), ← hfloor, hb]
    simp only [Int.cast_neg, Int.cast_natCast, div_neg, neg_div]

/-- The quotient toward zero and the one rounded down differ where something remains and the signs are
not the same. -/
theorem floor_eq_tdiv (a : Int) {b : Int} (hb : b ≠ 0) :
    ⌊(a : ℚ) / b⌋ = a.tdiv b - if a.tmod b ≠ 0 ∧ decide (a < 0) ≠ decide (b < 0) then 1 else 0 := by
  rw [← fdiv_eq_floor, Int.fdiv_eq_tdiv]
  by_cases hdvd : b ∣ a
  · simp [hdvd, Int.tmod_eq_zero_of_dvd hdvd]
  · have hrem : a.tmod b ≠ 0 := fun h0 => hdvd (Int.dvd_of_tmod_eq_zero h0)
    rcases Int.lt_or_gt_of_ne hb with hneg | hpos
    · have hsign : ¬ 0 ≤ b := by omega
      by_cases ha : 0 ≤ a <;> simp [hdvd, hrem, ha, hneg, hsign, Int.sign_eq_neg_one_of_neg hneg]
    · have hsign : 0 ≤ b ∧ ¬ b < 0 := by omega
      by_cases ha : 0 ≤ a <;> simp [hdvd, hrem, ha, hsign, Int.sign_eq_one_of_pos hpos]

theorem two_mul_natAbs_tdiv_le (a : Int) {b : Int} (hb : 2 ≤ b.natAbs) :
    2 * (a.tdiv b).natAbs ≤ a.natAbs := by
  rw [Int.natAbs_tdiv]
  calc 2 * (a.natAbs / b.natAbs) ≤ b.natAbs * (a.natAbs / b.natAbs) := Nat.mul_le_mul_right _ hb
    _ ≤ a.natAbs := Nat.mul_div_le _ _

variable {a b : Int64}

theorem toInt_ne_zero (hb : b ≠ 0) : b.toInt ≠ 0 :=
  fun h => hb (Int64.toInt_inj.mp h)

/-- Only one quotient of integers in range is out of range. -/
theorem truncated_inRange (hb : b ≠ 0) (h : ¬ (a = Int64.minValue ∧ b = -1)) :
    InRange (a.toInt.tdiv b.toInt) := by
  have ha := inRange_toInt a
  have hzero := toInt_ne_zero hb
  unfold InRange at ha ⊢
  by_cases hone : b.toInt = 1
  · rw [hone, Int.tdiv_one]
    exact ha
  · by_cases hminus : b.toInt = -1
    · have hmin : a.toInt ≠ -2 ^ 63 := fun hmin =>
        h ⟨Int64.toInt_inj.mp hmin, Int64.toInt_inj.mp hminus⟩
      rw [hminus, Int.tdiv_neg, Int.tdiv_one]
      omega
    · have hhalf := two_mul_natAbs_tdiv_le a.toInt (b := b.toInt) (by omega)
      omega

/-- A quotient toward zero that leaves a remainder is far from the ends of the range. -/
theorem truncated_pred_inRange (hb : b ≠ 0) (h : a % b ≠ 0) :
    InRange (a.toInt.tdiv b.toInt - 1) := by
  have ha := inRange_toInt a
  have hzero := toInt_ne_zero hb
  have htwo : 2 ≤ b.toInt.natAbs := by
    by_contra hlt
    have hunit : b.toInt = 1 ∨ b.toInt = -1 := by omega
    apply h
    rw [← Int64.toInt_inj, Int64.toInt_mod]
    rcases hunit with hunit | hunit <;> simp [hunit]
  have hhalf := two_mul_natAbs_tdiv_le a.toInt htwo
  unfold InRange at ha ⊢
  omega

/-- What is tested on words is tested on integers. -/
theorem roundsUp_iff (a b : Int64) :
    (a % b ≠ 0 ∧ decide (a < 0) ≠ decide (b < 0)) ↔
      (a.toInt.tmod b.toInt ≠ 0 ∧ decide (a.toInt < 0) ≠ decide (b.toInt < 0)) := by
  simp only [ne_eq, ← Int64.toInt_inj, Int64.toInt_mod, Int64.toInt_zero, Int64.lt_iff_toInt_lt]

theorem floor_inRange (hb : b ≠ 0) (h : ¬ (a = Int64.minValue ∧ b = -1)) :
    InRange ⌊(a.toInt : ℚ) / b.toInt⌋ := by
  rw [floor_eq_tdiv _ (toInt_ne_zero hb)]
  split
  · next hup => exact truncated_pred_inRange hb ((roundsUp_iff a b).mpr hup).1
  · rw [Int.sub_zero]
    exact truncated_inRange hb h

theorem toInt_pred {q : Int64} (h : InRange (q.toInt - 1)) : (q - 1).toInt = q.toInt - 1 := by
  have hone : (1 : Int64).toInt = 1 := rfl
  unfold InRange at h
  rw [Int64.toInt_sub, hone]
  exact Int.bmod_eq_of_le (by omega) (by omega)

end Division

namespace Native

theorem exact_toInt (op : Native) (k : Int64) : op.exact k.toInt = .ok k := by
  rw [exact, integer?_eq_some_iff.mpr rfl]

theorem exact_overflow (op : Native) {n : Int} (h : ¬ InRange n) :
    op.exact n = .error (Cause.overflow op.name).fault := by
  rw [exact, integer?_eq_none_iff.mpr h]
  rfl

/-- The remainder as the machine takes it: along with the quotient toward zero, whose overflow is its
own. -/
def remainder? (a b : Int64) : Option Int64 :=
  (integer? (a.toInt.tdiv b.toInt)).bind fun _ => integer? (a.toInt.tmod b.toInt)

/-- The difference, unless it overflows. -/
def minus? (a b : Int64) : Option Int64 :=
  integer? (a.toInt - b.toInt)

/-- Both words that come up on the way to a quotient hold what they stand for. -/
theorem quotient_words {a b q : Int64} (hb : b ≠ 0) (hq : q.toInt = a.toInt.tdiv b.toInt) :
    remainder? a b = some (a % b) ∧ (a % b ≠ 0 → minus? q 1 = some (q - 1)) := by
  constructor
  · rw [remainder?, integer?_eq_some_iff.mpr hq, Option.bind_some, integer?_eq_some_iff,
      Int64.toInt_mod]
  · intro hrem
    exact integer?_eq_some_iff.mpr (toInt_pred (hq ▸ truncated_pred_inRange hb hrem))

/-- The quotient is rounded down, or it overflows. -/
theorem quotient_eq (a : Int64) {b : Int64} (hb : b ≠ 0) :
    quotient a b = exact .div ⌊(a.toInt : ℚ) / b.toInt⌋ := by
  rw [quotient, if_neg hb, floor_eq_tdiv _ (toInt_ne_zero hb)]
  by_cases h : a = Int64.minValue ∧ b = -1
  · obtain ⟨rfl, rfl⟩ := h
    rfl
  · obtain ⟨q, hsome, hq⟩ := integer?_of_inRange (truncated_inRange hb h)
    have hdiv : exact .div (a.toInt.tdiv b.toInt) = .ok q := by rw [exact, hsome]
    rw [hdiv, ← hq]
    by_cases hup : a % b ≠ 0 ∧ decide (a < 0) ≠ decide (b < 0)
    · rw [if_pos ((roundsUp_iff a b).mp hup),
        ← toInt_pred (hq ▸ truncated_pred_inRange hb hup.1), exact_toInt]
      change Except.ok (if _ then _ else _) = _
      rw [if_pos hup]
    · rw [if_neg (mt (roundsUp_iff a b).mpr hup), Int.sub_zero, exact_toInt]
      change Except.ok (if _ then _ else _) = _
      rw [if_neg hup]

/-- The natives that combine integers. -/
def arithmetic : List Native :=
  [add, sub, mul, div]

/-- What a step from `m` by `n` comes to on integers. Quotients are rounded down. -/
def exactStep (op : Native) (m n : Int) : Int :=
  match op with
  | add => m + n
  | sub => m - n
  | mul => m * n
  | _ => ⌊(m : ℚ) / n⌋

/-- What so many arguments are combined with; none if the first of them is taken as it is. -/
def foldStart (op : Native) (count : Nat) : Option Int :=
  match op with
  | add => some 0
  | mul => some 1
  | _ => if count < 2 then some 0 else none

/-- The result of the next step. The first integer is the result where nothing has been reached yet. -/
def next (op : Native) (reached : Option Int) (n : Int) : Int :=
  match reached with
  | none => n
  | some m => op.exactStep m n

/-- What the integers come to from the left. -/
def folded (op : Native) (start : Option Int) (ns : List Int64) : Option Int :=
  ns.foldl (fun reached n => some (op.next reached n.toInt)) start

/-- No divisor is 0, and all results on the way are in range. -/
structure Exact (op : Native) (start : Option Int) (ns : List Int64) : Prop where
  divisors : op = div → ∀ before n, before ++ [n] <+: ns → (op.folded start before).isSome → n ≠ 0
  inRange : ∀ before m, before <+: ns → op.folded start before = some m → InRange m

/-- The argument stands in the way of what has been reached, and this is the error. -/
inductive Refuses (op : Native) : Option Int → Value → Fault → Prop
  | notInteger {reached arg} (h : ∀ n, arg ≠ .int n) :
      Refuses op reached arg (Cause.operand op.name "integer" arg.typeName).fault
  | zeroDivisor {m} (h : op = div) : Refuses op (some m) (.int 0) Cause.divisionByZero.fault
  | overflow {m n} (divisor : op = div → n ≠ 0) (h : ¬ InRange (op.exactStep m n.toInt)) :
      Refuses op (some m) (.int n) (Cause.overflow op.name).fault

/-- All arguments are integers, and exact steps lead to this one. -/
def Reaches (op : Native) (start : Option Int) (args : List Value) (r : Int64) : Prop :=
  ∃ ns : List Int64, args = ns.map .int ∧ op.Exact start ns ∧ op.folded start ns = some r.toInt

/-- Exact steps lead to an argument that stands in the way. -/
def Stops (op : Native) (start : Option Int) (args : List Value) (fault : Fault) : Prop :=
  ∃ (ns : List Int64) (arg : Value) (after : List Value), args = ns.map .int ++ arg :: after ∧
    op.Exact start ns ∧ op.Refuses (op.folded start ns) arg fault

section Folding

variable {op : Native} {start : Option Int} {ns : List Int64} {args : List Value}

theorem folded_cons (op : Native) (start : Option Int) (n : Int64) (ns : List Int64) :
    op.folded start (n :: ns) = op.folded (some (op.next start n.toInt)) ns :=
  rfl

theorem exact_nil (h : ∀ m, start = some m → InRange m) : op.Exact start [] where
  divisors := by
    intro _ before n hprefix
    simp at hprefix
  inRange := by
    intro before m hprefix hm
    rw [List.prefix_nil.mp hprefix] at hm
    exact h m hm

/-- The step lemma of a fold: the first step is exact, and so are those after it. -/
theorem exact_cons_iff (n : Int64) :
    op.Exact start (n :: ns) ↔ (∀ m, start = some m → InRange m) ∧
      (op = div → start.isSome → n ≠ 0) ∧ op.Exact (some (op.next start n.toInt)) ns := by
  constructor
  · intro h
    refine ⟨fun m => h.inRange [] m List.nil_prefix,
      fun hop => h.divisors hop [] n (List.prefix_append [n] ns), ?_, ?_⟩
    · intro hop before k hprefix
      exact h.divisors hop (n :: before) k (List.cons_prefix_cons.mpr ⟨rfl, hprefix⟩)
    · intro before m hprefix
      exact h.inRange (n :: before) m (List.cons_prefix_cons.mpr ⟨rfl, hprefix⟩)
  · rintro ⟨hstart, hdivisor, h⟩
    constructor
    · intro hop before k hprefix
      cases before with
      | nil =>
        obtain ⟨rfl, -⟩ := List.cons_prefix_cons.mp hprefix
        exact hdivisor hop
      | cons _ before =>
        obtain ⟨rfl, hrest⟩ := List.cons_prefix_cons.mp hprefix
        exact h.divisors hop before k hrest
    · intro before m hprefix
      cases before with
      | nil => exact hstart m
      | cons _ before =>
        obtain ⟨rfl, hrest⟩ := List.cons_prefix_cons.mp hprefix
        exact h.inRange before m hrest

theorem combine_exact (hop : op ∈ arithmetic) (a : Int64) {b : Int64} (hb : op = div → b ≠ 0) :
    op.combine a b = op.exact (op.exactStep a.toInt b.toInt) := by
  simp only [arithmetic, List.mem_cons, List.not_mem_nil, or_false] at hop
  rcases hop with rfl | rfl | rfl | rfl
  · rfl
  · rfl
  · rfl
  · exact quotient_eq a (hb rfl)

theorem combine_step (hop : op ∈ arithmetic) {a b r : Int64} (hb : op = div → b ≠ 0)
    (hr : op.exactStep a.toInt b.toInt = r.toInt) : op.combine a b = .ok r := by
  rw [combine_exact hop a hb, hr, exact_toInt]

theorem combine_refused (hop : op ∈ arithmetic) {a b : Int64} {fault : Fault}
    (h : op.Refuses (some a.toInt) (.int b) fault) : op.combine a b = .error fault := by
  cases h with
  | notInteger h => exact absurd rfl (h b)
  | zeroDivisor h =>
    subst h
    rfl
  | overflow divisor h => rw [combine_exact hop a divisor, exact_overflow op h]

theorem integer_of_ne {arg : Value} (h : ∀ n, arg ≠ .int n) :
    op.integer arg = .error (Cause.operand op.name "integer" arg.typeName).fault := by
  cases arg with
  | int n => exact absurd rfl (h n)
  | _ => rfl

theorem Refuses.fault_eq {reached : Option Int} {arg : Value} {fault : Fault}
    (h : op.Refuses reached arg fault) (hne : ∀ n, arg ≠ .int n) :
    fault = (Cause.operand op.name "integer" arg.typeName).fault := by
  cases h with
  | notInteger => rfl
  | zeroDivisor => exact absurd rfl (hne 0)
  | overflow => exact absurd rfl (hne _)

/-- What exact steps lead to is the result. -/
theorem accumulate_of_reaches (hop : op ∈ arithmetic) {m r : Int64}
    (h : op.Reaches (some m.toInt) args r) : op.accumulate m args = .ok r := by
  obtain ⟨ns, rfl, hexact, hfold⟩ := h
  induction ns generalizing m with
  | nil =>
    rw [Int64.toInt_inj.mp (Option.some.inj hfold)]
    rfl
  | cons n ns ih =>
    obtain ⟨-, hdivisor, hrest⟩ := (exact_cons_iff n).mp hexact
    obtain ⟨k, -, hk⟩ := integer?_of_inRange (hrest.inRange [] _ List.nil_prefix rfl)
    rw [List.map_cons, accumulate_int, combine_step hop (fun h => hdivisor h rfl) hk.symm]
    rw [folded_cons, ← hk] at hfold
    rw [← hk] at hrest
    exact ih hrest hfold

/-- What stands in the way of exact steps is the error. -/
theorem accumulate_of_stops (hop : op ∈ arithmetic) {m : Int64} {fault : Fault}
    (h : op.Stops (some m.toInt) args fault) : op.accumulate m args = .error fault := by
  obtain ⟨ns, arg, after, rfl, hexact, hrefuses⟩ := h
  induction ns generalizing m with
  | nil =>
    by_cases hint : ∃ n, arg = .int n
    · obtain ⟨n, rfl⟩ := hint
      rw [List.map_nil, List.nil_append, accumulate_int, combine_refused hop hrefuses]
      rfl
    · rw [List.map_nil, List.nil_append, accumulate, integer_of_ne (not_exists.mp hint),
        hrefuses.fault_eq (not_exists.mp hint)]
      rfl
  | cons n ns ih =>
    obtain ⟨-, hdivisor, hrest⟩ := (exact_cons_iff n).mp hexact
    obtain ⟨k, -, hk⟩ := integer?_of_inRange (hrest.inRange [] _ List.nil_prefix rfl)
    rw [List.map_cons, List.cons_append, accumulate_int,
      combine_step hop (fun h => hdivisor h rfl) hk.symm]
    rw [folded_cons, ← hk] at hrefuses
    rw [← hk] at hrest
    exact ih hrest hrefuses

/-- Either exact steps lead through all arguments, or one of them stands in the way. -/
theorem reaches_or_stops (hstart : ∀ m, start = some m → InRange m)
    (hsome : start.isSome ∨ args ≠ []) :
    (∃ r, op.Reaches start args r) ∨ ∃ fault, op.Stops start args fault := by
  induction args generalizing start with
  | nil =>
    obtain ⟨m, rfl⟩ := Option.isSome_iff_exists.mp (hsome.resolve_right fun h => h rfl)
    obtain ⟨r, -, hr⟩ := integer?_of_inRange (hstart m rfl)
    exact .inl ⟨r, [], rfl, exact_nil hstart, congrArg some hr.symm⟩
  | cons arg args ih =>
    have stops {fault : Fault} (h : op.Refuses start arg fault) :
        ∃ fault, op.Stops start (arg :: args) fault :=
      ⟨fault, [], arg, args, rfl, exact_nil hstart, h⟩
    by_cases hint : ∃ n, arg = .int n
    · obtain ⟨n, rfl⟩ := hint
      by_cases hzero : op = div ∧ start.isSome ∧ n = 0
      · obtain ⟨hop, hm, rfl⟩ := hzero
        obtain ⟨m, rfl⟩ := Option.isSome_iff_exists.mp hm
        exact .inr (stops (.zeroDivisor hop))
      · have hdivisor : op = div → start.isSome → n ≠ 0 := fun hop hm h0 => hzero ⟨hop, hm, h0⟩
        by_cases hrange : InRange (op.next start n.toInt)
        · -- the step is exact, so what is left decides
          have hnext : ∀ m, some (op.next start n.toInt) = some m → InRange m := by
            intro m hm
            exact Option.some.inj hm ▸ hrange
          have hcons {ns : List Int64} (h : op.Exact (some (op.next start n.toInt)) ns) :
              op.Exact start (n :: ns) := (exact_cons_iff n).mpr ⟨hstart, hdivisor, h⟩
          rcases ih hnext (.inl rfl) with ⟨r, ns, rfl, hns, hr⟩ | ⟨fault, ns, a, after, rfl, hns, hf⟩
          · exact .inl ⟨r, n :: ns, rfl, hcons hns, hr⟩
          · exact .inr ⟨fault, n :: ns, a, after, rfl, hcons hns, hf⟩
        · cases start with
          | none => exact absurd (inRange_toInt n) hrange
          | some m => exact .inr (stops (.overflow (fun hop => hdivisor hop rfl) hrange))
    · exact .inr (stops (.notInteger (not_exists.mp hint)))

/-- The first argument is taken as it is. -/
theorem Reaches.of_none {a : Value} {r : Int64} (h : op.Reaches none (a :: args) r) :
    ∃ n, a = .int n ∧ op.Reaches (some n.toInt) args r := by
  obtain ⟨_ | ⟨n, ns⟩, hargs, hexact, hr⟩ := h
  · cases hargs
  · cases hargs
    exact ⟨n, rfl, ns, rfl, ((exact_cons_iff n).mp hexact).2.2, hr⟩

theorem Stops.of_none {a : Value} {fault : Fault} (h : op.Stops none (a :: args) fault) :
    op.integer a = .error fault ∨ ∃ n, a = .int n ∧ op.Stops (some n.toInt) args fault := by
  obtain ⟨_ | ⟨n, ns⟩, arg, after, hargs, hexact, hrefuses⟩ := h
  · cases hargs
    cases hrefuses with
    | notInteger h => exact .inl (integer_of_ne h)
  · cases hargs
    exact .inr ⟨n, rfl, ns, arg, after, rfl, ((exact_cons_iff n).mp hexact).2.2, hrefuses⟩

/-- A fold that starts with its first argument takes that one as it is, unless it is the only one. -/
theorem reduction_computes
    (hstart : ∀ count, op.foldStart count = if count < 2 then some 0 else none) (args : List Value) :
    (∃ m : Int64, op.foldStart args.length = some m.toInt ∧ op.reduction args = op.total m args) ∨
      op.foldStart args.length = none ∧ ∃ a rest, args = a :: rest ∧
        op.reduction args = (op.integer a >>= fun m => op.total m rest) := by
  match args with
  | [] => exact .inl ⟨0, hstart 0, rfl⟩
  | [a] => exact .inl ⟨0, hstart 1, rfl⟩
  | a :: b :: more => exact .inr ⟨(hstart _).trans (if_neg (by simp)), a, b :: more, rfl, rfl⟩

theorem exists_computation (hop : op ∈ arithmetic) (args : List Value) :
    ∃ f, op.behaviour = .compute f ∧
      ((∃ m : Int64, op.foldStart args.length = some m.toInt ∧ f args = op.total m args) ∨
        op.foldStart args.length = none ∧ ∃ a rest, args = a :: rest ∧
          f args = (op.integer a >>= fun m => op.total m rest)) := by
  simp only [arithmetic, List.mem_cons, List.not_mem_nil, or_false] at hop
  rcases hop with rfl | rfl | rfl | rfl
  · exact ⟨_, rfl, .inl ⟨0, rfl, rfl⟩⟩
  · exact ⟨_, rfl, reduction_computes (fun _ => rfl) args⟩
  · exact ⟨_, rfl, .inl ⟨1, rfl, rfl⟩⟩
  · exact ⟨_, rfl, reduction_computes (fun _ => rfl) args⟩

theorem arity_arithmetic (hop : op ∈ arithmetic) (count : Nat) :
    op.arity.check op.name count = .ok () := by
  simp only [arithmetic, List.mem_cons, List.not_mem_nil, or_false] at hop
  rcases hop with rfl | rfl | rfl | rfl <;> rfl

theorem answers_of_reaches (hop : op ∈ arithmetic) {r : Int64}
    (h : op.Reaches (op.foldStart args.length) args r) : op.Answers args (.ok (.int r)) := by
  obtain ⟨f, hf, ⟨m, hstart, htotal⟩ | ⟨hstart, a, rest, rfl, hreduction⟩⟩ :=
    exists_computation hop args
  · rw [hstart] at h
    rw [answers_iff hf (arity_arithmetic hop _), htotal, total_eq, accumulate_of_reaches hop h]
    rfl
  · rw [hstart] at h
    obtain ⟨n, rfl, hrest⟩ := h.of_none
    rw [answers_iff hf (arity_arithmetic hop _), hreduction]
    change op.total n rest = _
    rw [total_eq, accumulate_of_reaches hop hrest]
    rfl

theorem answers_of_stops (hop : op ∈ arithmetic) {fault : Fault}
    (h : op.Stops (op.foldStart args.length) args fault) : op.Answers args (.error fault) := by
  obtain ⟨f, hf, ⟨m, hstart, htotal⟩ | ⟨hstart, a, rest, rfl, hreduction⟩⟩ :=
    exists_computation hop args
  · rw [hstart] at h
    rw [answers_iff hf (arity_arithmetic hop _), htotal, total_eq, accumulate_of_stops hop h]
    rfl
  · rw [hstart] at h
    rw [answers_iff hf (arity_arithmetic hop _), hreduction]
    rcases h.of_none with hfirst | ⟨n, rfl, hrest⟩
    · rw [hfirst]
      rfl
    · change op.total n rest = _
      rw [total_eq, accumulate_of_stops hop hrest]
      rfl

theorem Refuses.kind_eq {reached : Option Int} {arg : Value} {fault : Fault}
    (h : op.Refuses reached arg fault) :
    (∀ n, arg ≠ .int n) ∧ fault.kind = Kind.argument ∨
      (∃ n, arg = .int n) ∧ fault.kind = Kind.arithmetic := by
  cases h with
  | notInteger h => exact .inl ⟨h, rfl⟩
  | zeroDivisor => exact .inr ⟨⟨0, rfl⟩, rfl⟩
  | overflow => exact .inr ⟨⟨_, rfl⟩, rfl⟩

/-- All arguments are used up, or there is an error, and which of both tells the answer. -/
theorem answers_arithmetic_iff (hop : op ∈ arithmetic) (args : List Value) :
    (∀ v, op.Answers args (.ok v) ↔
      ∃ r, v = .int r ∧ op.Reaches (op.foldStart args.length) args r) ∧
    ∀ fault, op.Answers args (.error fault) ↔ op.Stops (op.foldStart args.length) args fault := by
  obtain ⟨f, hf, hcomputes⟩ := exists_computation hop args
  have hstart : ∀ m, op.foldStart args.length = some m → InRange m := by
    intro m hm
    rcases hcomputes with ⟨k, hk, -⟩ | ⟨hnone, -⟩
    · rw [hk] at hm
      exact Option.some.inj hm ▸ inRange_toInt k
    · rw [hnone] at hm
      cases hm
  have hsome : (op.foldStart args.length).isSome ∨ args ≠ [] := by
    rcases hcomputes with ⟨k, hk, -⟩ | ⟨-, a, rest, rfl, -⟩
    · exact .inl (hk ▸ rfl)
    · exact .inr (List.cons_ne_nil a rest)
  refine ⟨fun v => ⟨fun h => ?_, ?_⟩, fun fault => ⟨fun h => ?_, answers_of_stops hop⟩⟩
  · rcases reaches_or_stops hstart hsome with ⟨r, hr⟩ | ⟨fault, hfault⟩
    · cases h.unique (answers_of_reaches hop hr)
      exact ⟨r, rfl, hr⟩
    · cases h.unique (answers_of_stops hop hfault)
  · rintro ⟨r, rfl, hr⟩
    exact answers_of_reaches hop hr
  · rcases reaches_or_stops hstart hsome with ⟨r, hr⟩ | ⟨fault', hfault⟩
    · cases h.unique (answers_of_reaches hop hr)
    · cases h.unique (answers_of_stops hop hfault)
      exact hfault

end Folding

/-- Arithmetic is exact, or there is an error. The natives answer what the exact fold of all arguments
comes to if they are integers, no divisor is 0 and all results on the way are in range; otherwise the
first argument that stands in the way decides which error there is. A quotient is rounded down, and it
is in range along with the words on the way to it unless it is that of the least integer by -1. -/
theorem arithmetic_exact_or_error :
    (∀ op ∈ arithmetic, ∀ args,
      (∀ v, op.Answers args (.ok v) ↔
        ∃ r, v = .int r ∧ op.Reaches (op.foldStart args.length) args r) ∧
      (∀ fault, op.Answers args (.error fault) ↔
        op.Stops (op.foldStart args.length) args fault) ∧
      (∃ result, op.Answers args result) ∧
      ∀ reached arg fault, op.Refuses reached arg fault →
        (∀ n, arg ≠ .int n) ∧ fault.kind = Kind.argument ∨
          (∃ n, arg = .int n) ∧ fault.kind = Kind.arithmetic) ∧
    ∀ a b : Int64, b ≠ 0 → ¬ (a = Int64.minValue ∧ b = -1) →
      ∃ q r, integer? (a.toInt.tdiv b.toInt) = some q ∧ remainder? a b = some (a % b) ∧
        (a % b ≠ 0 → minus? q 1 = some (q - 1)) ∧
        quotient a b = .ok r ∧ r.toInt = ⌊(a.toInt : ℚ) / b.toInt⌋ := by
  constructor
  · intro op hop args
    obtain ⟨f, hf, -⟩ := exists_computation hop args
    obtain ⟨hvalues, hfaults⟩ := answers_arithmetic_iff hop args
    exact ⟨hvalues, hfaults, exists_answers hf args, fun _ _ _ h => h.kind_eq⟩
  · intro a b hb h
    obtain ⟨q, hsome, hq⟩ := integer?_of_inRange (truncated_inRange hb h)
    obtain ⟨hrem, hpred⟩ := quotient_words hb hq
    obtain ⟨r, hr, hfloor⟩ := integer?_of_inRange (floor_inRange hb h)
    refine ⟨q, r, hsome, hrem, hpred, ?_, hfloor⟩
    rw [quotient_eq a hb, ← hfloor, exact_toInt]

/-- The least integer has no negation, and -7 halved is -4. -/
theorem arithmetic_exact_or_error_least :
    sub ∈ arithmetic ∧
      sub.Answers [.int Int64.minValue] (.error (Cause.overflow "-").fault) ∧
      (2 : Int64) ≠ 0 ∧ ¬ ((-7 : Int64) = Int64.minValue ∧ (2 : Int64) = -1) ∧
      quotient (-7) 2 = .ok (-4) := by
  obtain ⟨hfolds, hquotient⟩ := arithmetic_exact_or_error
  have hsub : sub ∈ arithmetic := by simp [arithmetic]
  have hleast : ¬ InRange (sub.exactStep 0 Int64.minValue.toInt) := by
    unfold InRange exactStep
    decide
  have hrefuses : sub.Refuses (some 0) (.int Int64.minValue) (Cause.overflow "-").fault :=
    .overflow (fun h => by cases h) hleast
  have hstart : ∀ m, some (0 : Int) = some m → InRange m := by
    intro m hm
    cases hm
    unfold InRange
    decide
  have htwo : (2 : Int64) ≠ 0 := by decide
  have hseven : ¬ ((-7 : Int64) = Int64.minValue ∧ (2 : Int64) = -1) := by decide
  obtain ⟨q, r, -, -, -, hr, hfloor⟩ := hquotient (-7) 2 htwo hseven
  refine ⟨hsub, ?_, htwo, hseven, ?_⟩
  · exact ((hfolds sub hsub _).2.1 _).mpr
      ⟨[], .int Int64.minValue, [], rfl, exact_nil hstart, hrefuses⟩
  · rw [← fdiv_eq_floor] at hfloor
    have hdown : r.toInt = (-4 : Int64).toInt := hfloor.trans (by decide)
    rw [hr, Int64.toInt_inj.mp hdown]

end Native
end MiniLisp
