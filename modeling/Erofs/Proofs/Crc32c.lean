import Mathlib.Data.Nat.Digits.Lemmas
import Erofs.Bytes
import Erofs.Crc32c
/-!
# Bursts of damage

A step of the register is linear in exclusive or (`shifts_xor`) and loses
nothing (`shifts_injective`), so two strings of bytes that leave different
registers keep them different whatever is taken in after that. Four bytes
fill the register: taking them in is moving on by 32 bits from what
differs from the register by the number that they hold (`foldl_feed`). So
strings of one length that differ only within four bytes have different
checksums (`foldl_feed_inj`). The register does not see where one string
ends and the next starts (`checksumParts_eq`).
-/

namespace Erofs.Crc32c

variable {a b r register : UInt32} {bytes bytes' : List UInt8}

/-! ## The register -/

theorem and_one_eq_one_iff : r &&& 1 = 1 ↔ r.toNat % 2 = 1 := by
  rw [← UInt32.toNat_inj, UInt32.toNat_and]
  exact iff_of_eq (congrArg (· = 1) (Nat.and_one_is_mod _))

/-- What a step brings in for the bit that it moves out. -/
def feedback (r : UInt32) : UInt32 := if r.toNat % 2 = 1 then polynomial else 0

theorem shift_eq (r : UInt32) : shift r = (r >>> 1) ^^^ feedback r := by
  simp only [shift, feedback, and_one_eq_one_iff]
  split
  · rfl
  · exact UInt32.xor_zero.symm

theorem feedback_xor (a b : UInt32) : feedback (a ^^^ b) = feedback a ^^^ feedback b := by
  simp only [feedback, UInt32.toNat_xor, Nat.xor_mod_two_eq_one]
  by_cases ha : a.toNat % 2 = 1 <;> by_cases hb : b.toNat % 2 = 1 <;> simp [ha, hb]

/-- **A step is linear.** -/
theorem shift_xor (a b : UInt32) : shift (a ^^^ b) = shift a ^^^ shift b := by
  simp only [shift_eq, UInt32.shiftRight_xor, feedback_xor]
  ac_rfl

theorem toNat_shiftRight_one (r : UInt32) : (r >>> 1).toNat = r.toNat / 2 := by
  simp [UInt32.toNat_shiftRight, Nat.shiftRight_eq_div_pow]

/-- The polynomial has the highest bit, so a step that brings it in leaves
no empty register. -/
theorem eq_zero_of_shift_eq_zero (h : shift r = 0) : r = 0 := by
  have hlt := r.toNat_lt
  have hhalf := toNat_shiftRight_one r
  have hpolynomial : polynomial.toNat = 0x82F63B78 := rfl
  rw [shift_eq, UInt32.xor_eq_zero_iff] at h
  rw [h, feedback] at hhalf
  refine UInt32.toNat_inj.mp (?_ : r.toNat = 0)
  split at hhalf
  · omega
  · rw [UInt32.toNat_zero] at hhalf
    omega

theorem shifts_xor (n : Nat) (a b : UInt32) : shifts n (a ^^^ b) = shifts n a ^^^ shifts n b := by
  induction n generalizing a b with
  | zero => rfl
  | succ n ih => rw [shifts, shift_xor, ih]; rfl

theorem eq_zero_of_shifts_eq_zero {n : Nat} (h : shifts n r = 0) : r = 0 := by
  induction n generalizing r with
  | zero => exact h
  | succ n ih => exact eq_zero_of_shift_eq_zero (ih h)

/-- **A step loses nothing.** -/
theorem shifts_injective (n : Nat) : Function.Injective (shifts n) := by
  intro a b h
  rw [← UInt32.xor_eq_zero_iff, ← shifts_xor] at h
  exact UInt32.xor_eq_zero_iff.mp (eq_zero_of_shifts_eq_zero h)

theorem shifts_add (m n : Nat) (r : UInt32) : shifts (m + n) r = shifts n (shifts m r) := by
  induction m generalizing r with
  | zero => rw [Nat.zero_add]; rfl
  | succ m ih => rw [Nat.succ_add, shifts, ih]; rfl

/-- Zeros at the low end are moved out. -/
theorem shifts_ofNat_mul {n k : Nat} (h : n * 2 ^ k < 2 ^ 32) :
    shifts k (UInt32.ofNat (n * 2 ^ k)) = UInt32.ofNat n := by
  induction k with
  | zero => rw [pow_zero, Nat.mul_one]; rfl
  | succ k ih =>
    have hhalf : n * 2 ^ (k + 1) = 2 * (n * 2 ^ k) := by ring
    have hstep : shift (UInt32.ofNat (n * 2 ^ (k + 1))) = UInt32.ofNat (n * 2 ^ k) := by
      have hvalue : (UInt32.ofNat (n * 2 ^ (k + 1))).toNat = n * 2 ^ (k + 1) :=
        UInt32.toNat_ofNat_of_lt' h
      rw [shift_eq, feedback, if_neg (by omega), UInt32.xor_zero, ← UInt32.toNat_inj,
        toNat_shiftRight_one, hvalue, UInt32.toNat_ofNat_of_lt' (by simp [UInt32.size]; omega)]
      omega
    rw [shifts, hstep, ih (by omega)]

/-! ## Strings of bytes -/

theorem feed_injective (byte : UInt8) : Function.Injective (feed · byte) := by
  intro a b h
  exact (UInt32.xor_left_inj _).mp (shifts_injective 8 h)

/-- Registers that differ stay different. -/
theorem foldl_feed_injective (bytes : List UInt8) :
    Function.Injective fun r => bytes.foldl feed r := by
  induction bytes with
  | nil => exact Function.injective_id
  | cons byte bytes ih => exact ih.comp (feed_injective byte)

/-- The number that a string of bytes holds, least significant byte
first. -/
def number (bytes : List UInt8) : Nat := Nat.ofDigits 256 (bytes.map UInt8.toNat)

theorem number_cons (byte : UInt8) (bytes : List UInt8) :
    number (byte :: bytes) = byte.toNat + 256 * number bytes := by
  simp [number, Nat.ofDigits_cons]

theorem number_lt (bytes : List UInt8) : number bytes < 256 ^ bytes.length := by
  have h := Nat.ofDigits_lt_base_pow_length (b := 256) (l := bytes.map UInt8.toNat) (by decide)
    (by simpa using fun byte _ => byte.toNat_lt)
  rwa [List.length_map] at h

/-- Strings of one length that hold one number are the same. -/
theorem number_inj (hlength : bytes.length = bytes'.length) (h : number bytes = number bytes') :
    bytes = bytes' := by
  refine List.map_injective_iff.mpr (fun _ _ => UInt8.toNat.inj) ?_
  exact Nat.ofDigits_inj_of_len_eq (by decide) (by simpa using hlength)
    (by simpa using fun byte _ => byte.toNat_lt) (by simpa using fun byte _ => byte.toNat_lt) h

/-- Bits that stand apart add up without a carry. -/
theorem add_mul_eq_xor {low k : Nat} (h : low < 2 ^ k) (high : Nat) :
    low + 2 ^ k * high = low ^^^ 2 ^ k * high := by
  apply Nat.eq_of_testBit_eq
  intro i
  rw [Nat.add_comm, Nat.testBit_two_pow_mul_add _ h, Nat.testBit_xor, Nat.testBit_two_pow_mul]
  split
  · next hi => simp [Nat.not_le.mpr hi]
  · next hi =>
    have hlow : low.testBit i = false :=
      Nat.testBit_lt_two_pow (h.trans_le (Nat.pow_le_pow_right (by decide) (by omega)))
    simp [hlow, Nat.not_lt.mp hi]

/-- **The register takes in four bytes at once**, as the number they hold.
A byte that comes later stands higher in that number, and reaches the low
end of the register when its turn comes. -/
theorem foldl_feed (h : bytes.length ≤ 4) (r : UInt32) :
    bytes.foldl feed r = shifts (8 * bytes.length) (r ^^^ UInt32.ofNat (number bytes)) := by
  induction bytes generalizing r with
  | nil => exact UInt32.xor_zero.symm
  | cons byte bytes ih =>
    have hlength : bytes.length ≤ 3 := Nat.le_of_succ_le_succ h
    have hhigh : number bytes < 2 ^ 24 :=
      (number_lt bytes).trans_le (Nat.pow_le_pow_right (by decide) hlength)
    have hmoved : shifts 8 (UInt32.ofNat (256 * number bytes)) = UInt32.ofNat (number bytes) := by
      rw [Nat.mul_comm]
      exact shifts_ofNat_mul (k := 8) (by omega)
    have hsum : byte.toNat + 256 * number bytes = byte.toNat ^^^ 256 * number bytes :=
      add_mul_eq_xor (k := 8) byte.toNat_lt _
    calc (byte :: bytes).foldl feed r
        = shifts (8 * bytes.length)
            (shifts 8 (r ^^^ byte.toUInt32) ^^^ UInt32.ofNat (number bytes)) := ih (by omega) _
      _ = shifts (8 * bytes.length)
            (shifts 8 (r ^^^ byte.toUInt32 ^^^ UInt32.ofNat (256 * number bytes))) := by
          rw [shifts_xor 8 _ (UInt32.ofNat _), hmoved]
      _ = shifts (8 * (byte :: bytes).length) (r ^^^ UInt32.ofNat (number (byte :: bytes))) := by
          rw [number_cons, hsum, UInt32.ofNat_xor, UInt32.ofNat_uInt8ToNat, UInt32.xor_assoc,
            ← shifts_add, List.length_cons, Nat.mul_succ, Nat.add_comm (8 * _)]

/-- **A burst of four bytes is not missed**, whatever comes before and
after it. -/
theorem foldl_feed_inj {before after : List UInt8} (hshort : bytes.length ≤ 4)
    (hlength : bytes.length = bytes'.length)
    (h : (before ++ bytes ++ after).foldl feed register =
      (before ++ bytes' ++ after).foldl feed register) : bytes = bytes' := by
  have hshort' : bytes'.length ≤ 4 := hlength ▸ hshort
  simp only [List.foldl_append] at h
  have hburst := foldl_feed_injective after h
  simp only [foldl_feed hshort, foldl_feed hshort', hlength] at hburst
  have hnumber := (UInt32.xor_right_inj _).mp (shifts_injective _ hburst)
  have hlt : ∀ l : List UInt8, l.length ≤ 4 → number l < 2 ^ 32 := fun l hl =>
    (number_lt l).trans_le (Nat.pow_le_pow_right (by decide) hl)
  refine number_inj hlength ?_
  rw [← UInt32.toNat_inj, UInt32.toNat_ofNat_of_lt' (hlt _ hshort),
    UInt32.toNat_ofNat_of_lt' (hlt _ hshort')] at hnumber
  exact hnumber

/-! ## Strings in parts -/

theorem feedAll_append (register : UInt32) (a b : ByteArray) :
    feedAll register (a ++ b) = feedAll (feedAll register a) b := by
  simp only [feedAll, ByteArray.data_append, Array.foldl_append]

/-- **The checksum of some parts is that of all of them together.** -/
theorem checksumParts_eq (parts : List ByteArray) :
    checksumParts parts = checksum (parts.foldr (· ++ ·) .empty) := by
  unfold checksumParts checksum
  generalize (0xFFFFFFFF : UInt32) = register
  induction parts generalizing register with
  | nil => rfl
  | cons part rest ih =>
    rw [List.foldl_cons, List.foldr_cons, feedAll_append]
    exact ih _

end Erofs.Crc32c
