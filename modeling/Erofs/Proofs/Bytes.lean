import Erofs.Session
/-!
# Numbers in images

A number in the bytes of an image can be cut: the number held by some of
its bytes is found by a division and a remainder
(`littleEndian_window`). A slice of an image holds the same numbers as
the image there (`littleEndian_slice`).
-/

namespace Erofs

variable {b image bytes : ByteArray} {offset length i width : Nat}

/-! ## Bytes -/

theorem byteAt_of_size_le (h : b.size ≤ i) : byteAt b i = 0 :=
  dif_neg (Nat.not_lt.mpr h)

theorem getElem?_data (b : ByteArray) (i : Nat) :
    b.data.toList[i]? = if i < b.size then some (byteAt b i) else none := by
  rw [byteAt]
  split
  · next h => exact List.getElem?_eq_getElem (by simpa using h)
  · next h => exact List.getElem?_eq_none (by simpa using h)

theorem byteAt_eq_getD (b : ByteArray) (i : Nat) : byteAt b i = b.data.toList.getD i 0 := by
  rw [List.getD_eq_getElem?_getD, getElem?_data]
  split
  · rfl
  · next h => exact byteAt_of_size_le (Nat.le_of_not_lt h)

theorem byteAt_append (a b : ByteArray) (i : Nat) :
    byteAt (a ++ b) i = if i < a.size then byteAt a i else byteAt b (i - a.size) := by
  simp only [byteAt_eq_getD, List.getD_eq_getElem?_getD, ByteArray.data_append,
    Array.toList_append, List.getElem?_append, Array.length_toList]
  exact apply_ite (fun byte : Option UInt8 => byte.getD 0) ..

theorem byteAt_zeros (n i : Nat) : byteAt (zeros n) i = 0 := by
  rw [byteAt]
  split
  · simp [zeros, ByteArray.getElem_eq_getElem_data]
  · rfl

theorem byteAt_extract_size (b : ByteArray) (start i : Nat) :
    byteAt (b.extract start b.size) i = byteAt b (start + i) := by
  simp only [byteAt, ByteArray.size_extract, ByteArray.getElem_extract]
  split
  · rw [dif_pos (by omega)]
  · rw [dif_neg (by omega)]

/-! ## Slices -/

theorem size_slice (h : offset + length ≤ b.size) : (slice b offset length).size = length := by
  simp only [slice, ByteArray.size_extract]
  omega

theorem byteAt_slice (h : i < length) :
    byteAt (slice b offset length) i = byteAt b (offset + i) := by
  by_cases hb : offset + i < b.size
  · have hs : i < (slice b offset length).size := by
      simp only [slice, ByteArray.size_extract]
      omega
    rw [byteAt_of_lt hs, byteAt_of_lt hb]
    exact ByteArray.getElem_extract ..
  · have hs : ¬ i < (slice b offset length).size := by
      simp only [slice, ByteArray.size_extract]
      omega
    simp [byteAt, hb, hs]

/-- A range of an image is read if it fits in 64 bits and in the image. -/
theorem imageRange_eq_ok :
    imageRange image offset length = .ok bytes ↔
      offset + length < addressLimit ∧ offset + length ≤ image.size ∧
        bytes = slice image offset length := by
  unfold imageRange checkRange
  grind [Except.map]

/-- And then it is there as a whole. -/
theorem size_of_imageRange (h : imageRange image offset length = .ok bytes) :
    bytes.size = length := by
  obtain ⟨-, hsize, rfl⟩ := imageRange_eq_ok.mp h
  exact size_slice hsize

/-! ## Numbers -/

/-- Block addresses add up with 32 bits. -/
theorem toUInt32_add (m n : Nat) : (m + n).toUInt32 = m.toUInt32 + n.toUInt32 :=
  UInt32.ofNat_add m n

theorem littleEndian_slice {start : Nat} (h : start + width ≤ length) :
    littleEndian (slice b offset length) start width = littleEndian b (offset + start) width := by
  induction width generalizing start with
  | zero => rfl
  | succ width ih =>
    simp only [littleEndian]
    rw [byteAt_slice (by omega), ih (by omega), Nat.add_assoc]

/-- A number in two parts. -/
theorem littleEndian_add (b : ByteArray) (offset m n : Nat) :
    littleEndian b offset (m + n) =
      littleEndian b offset m + 256 ^ m * littleEndian b (offset + m) n := by
  induction m generalizing offset with
  | zero => simp [littleEndian]
  | succ m ih =>
    rw [Nat.succ_add]
    simp only [littleEndian, ih (offset + 1), Nat.pow_succ, Nat.mul_add, Nat.add_assoc,
      Nat.add_comm 1 m]
    rw [Nat.mul_comm (256 ^ m) 256, Nat.mul_assoc]

/-- **The number held by some of the bytes** of a longer one. -/
theorem littleEndian_window {skip total : Nat} (h : skip + width ≤ total) :
    littleEndian b (offset + skip) width =
      littleEndian b offset total / 256 ^ skip % 256 ^ width := by
  obtain ⟨rest, rfl⟩ : ∃ rest, total = skip + (width + rest) := ⟨total - skip - width, by omega⟩
  rw [littleEndian_add, littleEndian_add b (offset + skip)]
  have hskip := littleEndian_lt b offset skip
  have hwidth := littleEndian_lt b (offset + skip) width
  rw [Nat.add_mul_div_left _ _ (Nat.pow_pos (by decide)), Nat.div_eq_of_lt hskip, Nat.zero_add,
    Nat.add_mul_mod_self_left, Nat.mod_eq_of_lt hwidth]

/-- Numbers that are equal have equal bytes. -/
theorem byteAt_eq_of_littleEndian_eq {x y : Nat}
    (h : littleEndian b x width = littleEndian b y width) (hi : i < width) :
    byteAt b (x + i) = byteAt b (y + i) := by
  induction width generalizing x y i with
  | zero => omega
  | succ width ih =>
    have hx := (byteAt b x).toNat_lt
    have hy := (byteAt b y).toNat_lt
    simp only [littleEndian] at h
    cases i with
    | zero => exact UInt8.toNat.inj (by simp only [Nat.add_zero]; omega)
    | succ i =>
      have hrest := ih (x := x + 1) (y := y + 1) (i := i) (by omega) (by omega)
      rwa [Nat.add_right_comm, Nat.add_right_comm y] at hrest

end Erofs
