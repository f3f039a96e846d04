import MiniLisp.Proofs.Entries

namespace MiniLisp

namespace Utf8

/-- Larger numbers, below a bound, have larger bytes, and the bytes differ before any of them ends. -/
def Rising (bytes : Nat → List UInt8) (bound : Nat) : Prop :=
  ∀ m n, m < n → n < bound → ∀ u v, bytes m ++ u < bytes n ++ v

/-- The bytes of a number, of which the last one has the last six bits. -/
def continued (bytes : Nat → List UInt8) (n : Nat) : List UInt8 :=
  bytes (n / 64) ++ [UInt8.ofNat (n % 64 + 128)]

theorem first_lt {m n : Nat} (h : m < n) (hn : n < 256) (u v : List UInt8) :
    UInt8.ofNat m :: u < UInt8.ofNat n :: v := by
  apply List.cons_lt_cons_iff.mpr (.inl _)
  rw [UInt8.lt_iff_toNat_lt, UInt8.toNat_ofNat', UInt8.toNat_ofNat']
  omega

theorem rising_first {bound mark : Nat} (h : bound + mark ≤ 256) :
    Rising (fun n => [UInt8.ofNat (n % bound + mark)]) bound := by
  intro m n hlt hn u v
  have hm : m < bound := Nat.lt_trans hlt hn
  simp only [Nat.mod_eq_of_lt hm, Nat.mod_eq_of_lt hn]
  exact first_lt (Nat.add_lt_add_right hlt mark) (by omega) u v

theorem Rising.continued {bytes : Nat → List UInt8} {bound : Nat} (h : Rising bytes bound) :
    Rising (continued bytes) (bound * 64) := by
  intro m n hlt hn u v
  simp only [Utf8.continued, List.append_assoc]
  rcases Nat.lt_or_ge (m / 64) (n / 64) with hbefore | hge
  · exact h _ _ hbefore (Nat.div_lt_of_lt_mul (Nat.mul_comm bound 64 ▸ hn)) _ _
  · have heq : m / 64 = n / 64 := by omega
    have hlast : m % 64 < n % 64 := by omega
    rw [heq]
    apply List.append_left_lt
    exact first_lt (Nat.add_lt_add_right hlast 128) (by omega) u v

theorem rising_two : Rising (continued fun n => [UInt8.ofNat (n % 32 + 192)]) 2048 :=
  (rising_first (by decide)).continued

theorem rising_three : Rising (continued (continued fun n => [UInt8.ofNat (n % 16 + 224)])) 65536 :=
  (rising_first (by decide)).continued.continued

theorem rising_four :
    Rising (continued (continued (continued fun n => [UInt8.ofNat (n % 8 + 240)]))) 2097152 :=
  (rising_first (by decide)).continued.continued.continued

/-- The bytes of a text. -/
def bytes (cs : List Char) : List UInt8 :=
  cs.flatMap String.utf8EncodeChar

theorem char_lt {c d : Char} (h : c < d) (u v : List UInt8) :
    String.utf8EncodeChar c ++ u < String.utf8EncodeChar d ++ v := by
  have hlt : c.val.toNat < d.val.toNat := h
  have hd : d.val.toNat < 1114112 := by
    have hvalid : d.val.toNat.isValidChar := d.valid
    simp only [Nat.isValidChar] at hvalid
    omega
  simp only [String.utf8EncodeChar]
  generalize c.val.toNat = m at *
  generalize d.val.toNat = n at *
  repeat' split
  -- of two characters the one with more bytes has the larger first byte
  all_goals try exact first_lt (by omega) (by omega) _ _
  · exact rising_two m n hlt (by omega) u v
  · have hthree := rising_three m n hlt (by omega) u v
    simpa only [continued, Nat.div_div_eq_div_mul, Nat.reduceMul, List.cons_append,
      List.nil_append] using hthree
  · have hfour := rising_four m n hlt (by omega) u v
    simpa only [continued, Nat.div_div_eq_div_mul, Nat.reduceMul, List.cons_append,
      List.nil_append] using hfour

theorem bytes_cons (c : Char) (cs : List Char) :
    bytes (c :: cs) = String.utf8EncodeChar c ++ bytes cs :=
  List.flatMap_cons

theorem bytes_lt {cs ds : List Char} (h : cs < ds) : bytes cs < bytes ds := by
  induction h with
  | nil =>
    rw [bytes_cons]
    cases hd : String.utf8EncodeChar _ with
    | nil => exact absurd hd String.utf8EncodeChar_ne_nil
    | cons b bs => exact List.nil_lt_cons _ _
  | cons _ ih =>
    rw [bytes_cons, bytes_cons]
    exact List.append_left_lt ih
  | rel h =>
    rw [bytes_cons, bytes_cons]
    exact char_lt h _ _

theorem bytes_lt_iff {cs ds : List Char} : bytes cs < bytes ds ↔ cs < ds := by
  constructor
  · intro h
    apply Classical.byContradiction
    intro hnot
    rcases List.le_iff_lt_or_eq.mp (List.not_lt.mp hnot) with hgt | heq
    · exact List.lt_asymm h (bytes_lt hgt)
    · exact List.lt_irrefl _ (heq ▸ h)
  · exact bytes_lt

theorem toUTF8_eq (text : String) : text.toUTF8.data.toList = bytes text.toList := by
  calc text.toUTF8.data.toList
    _ = (String.ofList text.toList).toByteArray.data.toList := by
      rw [String.ofList_toList, String.toUTF8_eq_toByteArray]
    _ = bytes text.toList := by
      rw [String.toByteArray_ofList]
      exact List.toList_data_toByteArray

end Utf8

theorem compare_eq_lt_iff (a b : String) :
    compare a b = .lt ↔ a.toUTF8.data.toList < b.toUTF8.data.toList := by
  rw [Utf8.toUTF8_eq, Utf8.toUTF8_eq, Utf8.bytes_lt_iff]
  exact compareOfLessAndEq_eq_lt

namespace Key

/-- Strings come before keywords, and texts of one kind in the order of their bytes. -/
def Below : Key → Key → Prop
  | .str a, .str b | .kw a, .kw b => a.toUTF8.data.toList < b.toUTF8.data.toList
  | .str _, .kw _ => True
  | .kw _, .str _ => False

theorem compare_iff_below (a b : Key) : compare a b = .lt ↔ a.Below b := by
  cases a with
  | str a =>
    cases b with
    | str b => exact compare_eq_lt_iff a b
    | kw b => exact iff_of_true rfl trivial
  | kw a =>
    cases b with
    | str b =>
      apply iff_of_false _ id
      intro h
      cases h
    | kw b => exact compare_eq_lt_iff a b

end Key
end MiniLisp
