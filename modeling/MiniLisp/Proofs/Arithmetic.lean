import MiniLisp.Proofs.Equality
import MiniLisp.Proofs.FailFast

namespace MiniLisp

open Value Run

section Integers

/-- Counting down from a positive number stays in range. -/
theorem integer?_pred {n : Int64} (h : 0 < n.toInt) :
    ∃ m : Int64, m.toInt = n.toInt - 1 := by
  have hlow := Int64.le_toInt n
  have hhigh := Int64.toInt_lt n
  refine ⟨Int64.ofInt (n.toInt - 1), Int64.toInt_ofInt_of_le ?_ ?_⟩
  · omega
  · omega

/-- A size up to the greatest integer is an integer. -/
theorem exists_toInt_eq {n : Nat} (h : (n : Int) ≤ Int64.maxValue.toInt) :
    ∃ k : Int64, k.toInt = n := by
  have hmax : Int64.maxValue.toInt = 9223372036854775807 := by decide
  refine ⟨Int64.ofInt n, Int64.toInt_ofInt_of_le ?_ ?_⟩
  · omega
  · omega

/-- What is above a number that is out of range is out of range as well. -/
theorem integer?_none_of_le {a b : Int} (h : integer? a = none) (ha : 0 ≤ a) (hab : a ≤ b) :
    integer? b = none := by
  have hlow : Int64.minValue.toInt ≤ a := by
    have : Int64.minValue.toInt ≤ 0 := by decide
    omega
  unfold integer? at h ⊢
  split at h
  · cases h
  · next hrange =>
    rw [if_neg fun hb => hrange ⟨hlow, by omega⟩]

theorem triangle_step (n : Int) : n * (n + 1) / 2 = n + (n - 1) * (n - 1 + 1) / 2 := by
  have h : n * (n + 1) = (n - 1) * (n - 1 + 1) + n * 2 := by grind
  rw [h, Int.add_mul_ediv_right _ _ (by decide)]
  omega

end Integers

section Natives

variable {ev : Evaluator} {fuel : Nat} {scope : ScopeId} {w : World}

theorem equal_outcome (a b : Int64) :
    (Native.call ev (fuel + 1) .equal [.int a, .int b] scope).outcome w =
      some (.ok (.bool (b == a)), w) := by
  have hsame : (Value.int b).same (.int a) = (b == a) := by
    rw [Bool.eq_iff_iff, same_iff, beq_iff_eq, bare, bare, Value.int.injEq]
  have hequal : Native.runEqual [.int a, .int b] = .ok (.bool (b == a)) := by
    rw [Native.runEqual, List.all_cons, List.all_nil, Bool.and_true, hsame]
  rw [Native.compute_outcome rfl rfl, hequal]

theorem Native.accumulate_int (op : Native) (reached k : Int64) (args : List Value) :
    op.accumulate reached (.int k :: args) =
      (op.combine reached k >>= fun reached => op.accumulate reached args) :=
  rfl

theorem Native.accumulate_last (op : Native) (reached k : Int64) :
    op.accumulate reached [.int k] = op.combine reached k := by
  rw [accumulate_int]
  cases op.combine reached k <;> rfl

theorem Native.total_eq (op : Native) (start : Int64) (args : List Value) :
    op.total start args = (op.accumulate start args).map .int := by
  rw [total]
  cases op.accumulate start args <;> rfl

theorem sub_outcome (a b : Int64) :
    (Native.call ev (fuel + 1) .sub [.int a, .int b] scope).outcome w =
      some ((Native.exact .sub (a.toInt - b.toInt)).map .int, w) := by
  have htotal : Native.reduction .sub [.int a, .int b] = Native.total .sub a [.int b] := rfl
  rw [Native.compute_outcome rfl rfl, htotal, Native.total_eq, Native.accumulate_last,
    Native.combine]

theorem Native.total_add (a b : Int64) :
    Native.total .add 0 [.int a, .int b] = (Native.exact .add (a.toInt + b.toInt)).map .int := by
  have hfirst : Native.combine .add 0 a = pure a := by
    rw [Native.combine, Native.exact, Int64.toInt_zero, Int.zero_add, integer?_eq_some_iff.mpr rfl]
    rfl
  rw [Native.total_eq, Native.accumulate_int, hfirst, pure_bind, Native.accumulate_last,
    Native.combine]

theorem add_outcome (a b : Int64) :
    (Native.call ev (fuel + 1) .add [.int a, .int b] scope).outcome w =
      some ((Native.exact .add (a.toInt + b.toInt)).map .int, w) := by
  rw [Native.compute_outcome rfl rfl, Native.total_add]

end Natives

end MiniLisp
