import Erofs.Proofs.Bytes
import Erofs.Volume
/-!
# Ranges cut into blocks

A range of bytes is cut at the boundaries of blocks. Its first run is the
whole range if that ends in its first block (`spans_of_le`), and else it
reaches to the end of that block and leaves a shorter range
(`spans_of_lt`). So what is put together from the runs of a range is the
range of the image (`gathered_spans`), although blocks past the end of the
image are filled up with zeros. Past the cache all blocks of a range are
taken at once, and their number is the one that words give
(`transferBlocks?_eq_words`).
-/

namespace Erofs

variable {b image : ByteArray} {offset length blockSize start n i : Nat}

/-! ## Padded slices -/

/-- Bytes past the end of a string count as zeros, so strings of one
length with the same bytes are equal. -/
theorem ext_byteAt {a b : ByteArray} (hsize : a.size = b.size)
    (h : ∀ i < a.size, byteAt a i = byteAt b i) : a = b := by
  refine ByteArray.ext_getElem hsize fun i ha hb => ?_
  rw [← byteAt_of_lt ha, ← byteAt_of_lt hb]
  exact h i ha

@[simp] theorem size_paddedSlice (b : ByteArray) (offset length : Nat) :
    (paddedSlice b offset length).size = length := by
  simp only [paddedSlice, ByteArray.size_append, size_zeros, slice, ByteArray.size_extract]
  omega

/-- A padded slice has the bytes of the string, and zeros past its end. -/
theorem byteAt_paddedSlice (h : i < length) :
    byteAt (paddedSlice b offset length) i = byteAt b (offset + i) := by
  simp only [paddedSlice, byteAt_append, byteAt_zeros]
  split
  · exact byteAt_slice h
  · next hi =>
    simp only [slice, ByteArray.size_extract] at hi
    rw [byteAt_of_size_le (by omega)]

/-- What is cut out of a padded slice inside the string is a slice of the
string. -/
theorem slice_paddedSlice (hin : start + n ≤ length) (hb : offset + start + n ≤ b.size) :
    slice (paddedSlice b offset length) start n = slice b (offset + start) n := by
  have hleft : (slice (paddedSlice b offset length) start n).size = n :=
    size_slice (by simpa using hin)
  refine ext_byteAt (by rw [hleft, size_slice hb]) fun i hi => ?_
  rw [hleft] at hi
  rw [byteAt_slice hi, byteAt_slice hi, byteAt_paddedSlice (by omega), Nat.add_assoc]

theorem slice_zero (b : ByteArray) (offset : Nat) : slice b offset 0 = .empty := by
  rw [slice, Nat.add_zero, ByteArray.extract_same]

/-- A slice in two parts. -/
theorem slice_add (b : ByteArray) (offset m n : Nat) :
    slice b offset (m + n) = slice b offset m ++ slice b (offset + m) n := by
  simp only [slice, ByteArray.extract_append_extract]
  congr 1 <;> omega

/-! ## The runs of a range -/

/-- A range that ends in its first block is one run. -/
theorem spans_of_le (hpos : 0 < length) (h : length ≤ blockSize - offset % blockSize) :
    spans blockSize offset length = [⟨offset / blockSize, offset % blockSize, length⟩] := by
  have hdiv := Nat.div_add_mod' offset blockSize
  have hend : (offset + length + blockSize - 1) / blockSize = offset / blockSize + 1 := by
    refine Nat.div_eq_of_lt_le ?_ ?_
    · rw [Nat.add_mul, Nat.one_mul]
      omega
    · rw [Nat.add_mul, Nat.add_mul, Nat.one_mul]
      omega
  have hcount : blocksTouched blockSize offset length = 1 := by
    rw [blocksTouched, hend]
    omega
  simp only [spans, hcount, List.range'_one, List.map_cons, List.map_nil, spanIn,
    List.cons.injEq, and_true, Span.mk.injEq, true_and]
  omega

/-- Any other range goes on in the next block. -/
theorem spans_of_lt (hpos : 0 < blockSize) (h : blockSize - offset % blockSize < length) :
    spans blockSize offset length =
      ⟨offset / blockSize, offset % blockSize, blockSize - offset % blockSize⟩ ::
        spans blockSize (offset + (blockSize - offset % blockSize))
          (length - (blockSize - offset % blockSize)) := by
  have hdiv := Nat.div_add_mod' offset blockSize
  have hmod := Nat.mod_lt offset hpos
  have hnext :
      offset + (blockSize - offset % blockSize) = (offset / blockSize + 1) * blockSize := by
    rw [Nat.add_mul, Nat.one_mul]
    omega
  have hblock : (offset / blockSize + 1) * blockSize / blockSize = offset / blockSize + 1 :=
    Nat.mul_div_cancel _ hpos
  have hend : offset / blockSize + 1 ≤ (offset + length + blockSize - 1) / blockSize := by
    rw [Nat.le_div_iff_mul_le hpos]
    omega
  have hcount : blocksTouched blockSize offset length =
      blocksTouched blockSize (offset + (blockSize - offset % blockSize))
        (length - (blockSize - offset % blockSize)) + 1 := by
    simp only [blocksTouched]
    rw [show offset + (blockSize - offset % blockSize) + (length - (blockSize - offset % blockSize))
      = offset + length by omega, hnext, hblock]
    omega
  have hfirst : spanIn blockSize offset length (offset / blockSize) =
      ⟨offset / blockSize, offset % blockSize, blockSize - offset % blockSize⟩ := by
    simp only [spanIn, Span.mk.injEq, true_and]
    omega
  simp only [spans, hcount, List.range'_succ, List.map_cons, hfirst]
  rw [hnext, hblock]
  congr 1
  -- the later blocks start past the first run, so cutting it off changes no other
  refine List.map_congr_left fun block hmem => ?_
  obtain ⟨hle, -⟩ := List.mem_range'_1.mp hmem
  have hbase : (offset / blockSize + 1) * blockSize ≤ block * blockSize :=
    Nat.mul_le_mul_right _ hle
  simp only [spanIn, Span.mk.injEq, true_and]
  omega

/-- The block of a run starts inside every image that has the range. -/
theorem block_lt_of_mem_spans {s : Span} (h : s ∈ spans blockSize offset length) :
    s.block < (offset + length + blockSize - 1) / blockSize := by
  obtain ⟨block, hmem, rfl⟩ := List.mem_map.mp h
  obtain ⟨hle, hlt⟩ := List.mem_range'_1.mp hmem
  simp only [blocksTouched] at hlt
  simp only [spanIn]
  omega

/-- A block that some bytes reach into starts before their end. -/
theorem mul_lt_of_lt_blocks {block : Nat} (hpos : 0 < blockSize)
    (h : block < (n + blockSize - 1) / blockSize) : block * blockSize < n := by
  have hend := (Nat.le_div_iff_mul_le hpos).mp (Nat.succ_le_of_lt h)
  rw [Nat.succ_mul] at hend
  omega

/-! ## The blocks of a transfer -/

/-- A transfer takes the blocks that the range touches. -/
theorem transferBlocks?_eq_some {count : Nat} :
    transferBlocks? blockSize offset length = some count ↔
      offset + length + blockSize ≤ addressLimit ∧
        blocksTouched blockSize offset length < 2 ^ 32 ∧
        blocksTouched blockSize offset length = count := by
  unfold transferBlocks?
  simp only
  split
  · simp
    omega
  · split
    · simp
      omega
    · simp
      omega

/-- Where the last block of a device ends within 64 bits, the end of no
range wraps around. -/
theorem transferBlocks?_of_le {size : Nat} (hfits : size + blockSize ≤ addressLimit)
    (hin : offset + length ≤ size) (hfew : blocksTouched blockSize offset length < 2 ^ 32) :
    transferBlocks? blockSize offset length = some (blocksTouched blockSize offset length) :=
  transferBlocks?_eq_some.mpr ⟨by omega, hfew, rfl⟩

/-- The number of the blocks of a transfer, computed in words. -/
def transferWords (blockSize : UInt32) (offset length : UInt64) : UInt64 :=
  let blockSize := blockSize.toUInt64
  (offset + length + blockSize - 1) / blockSize - offset / blockSize

/-- **The number of the blocks is the one that words give**, for every range
of fewer than half of all bytes. If the end of the range wraps around when
it is rounded up, too many blocks are left. -/
theorem transferBlocks?_eq_words {blockSize : UInt32} {offset length : UInt64}
    (hpos : 0 < blockSize.toNat) (hlength : length.toNat < 2 ^ 63)
    (hlimit : offset.toNat + length.toNat < addressLimit) :
    transferBlocks? blockSize.toNat offset.toNat length.toNat =
      let count := (transferWords blockSize offset length).toNat
      if count < 2 ^ 32 then some count else none := by
  have hsize : blockSize.toNat < 2 ^ 32 := blockSize.toNat_lt
  have hend : (offset + length).toNat = offset.toNat + length.toNat := by
    rw [UInt64.toNat_add]
    exact Nat.mod_eq_of_lt hlimit
  have hup : (offset + length + blockSize.toUInt64 - 1).toNat =
      (offset.toNat + length.toNat + blockSize.toNat - 1) % 2 ^ 64 := by
    rw [UInt64.toNat_sub, UInt64.toNat_add, hend]
    simp only [UInt32.toNat_toUInt64, UInt64.toNat_one]
    omega
  have hcount : (transferWords blockSize offset length).toNat =
      (2 ^ 64 - offset.toNat / blockSize.toNat +
        (offset.toNat + length.toNat + blockSize.toNat - 1) % 2 ^ 64 / blockSize.toNat) %
          2 ^ 64 := by
    rw [transferWords, UInt64.toNat_sub, UInt64.toNat_div, UInt64.toNat_div, hup]
    rfl
  have hfirst : offset.toNat / blockSize.toNat ≤ offset.toNat := Nat.div_le_self ..
  rw [hcount]
  unfold transferBlocks? blocksTouched
  simp only
  unfold addressLimit at hlimit ⊢
  generalize offset.toNat = o at *
  generalize length.toNat = n at *
  generalize blockSize.toNat = b at *
  by_cases hfits : o + n + b ≤ 2 ^ 64
  · have hle : o / b ≤ (o + n + b - 1) / b := Nat.div_le_div_right (by omega)
    have hlast : (o + n + b - 1) / b ≤ o + n + b - 1 := Nat.div_le_self ..
    rw [if_neg (by omega), Nat.mod_eq_of_lt (by omega : o + n + b - 1 < 2 ^ 64)]
    have hsame : (2 ^ 64 - o / b + (o + n + b - 1) / b) % 2 ^ 64 = (o + n + b - 1) / b - o / b := by
      generalize o / b = first at *
      omega
    rw [hsame]
  · -- the first block is neither block zero nor among the last ones
    have hzero : (o + n + b - 1) % 2 ^ 64 / b = 0 := Nat.div_eq_of_lt (by omega)
    have hone : 1 ≤ o / b := (Nat.le_div_iff_mul_le hpos).mpr (by omega)
    have hhalf : o / b ≤ 2 ^ 63 := by
      refine Nat.div_le_of_le_mul ?_
      calc o ≤ 2 * 2 ^ 63 := by omega
        _ ≤ b * 2 ^ 63 := Nat.mul_le_mul_right _ (by omega)
    rw [if_pos (by omega), hzero, if_neg (by omega)]

/-! ## Putting runs together -/

/-- A block of an image, with zeros past its end. -/
def blockOf (image : ByteArray) (blockSize block : Nat) : ByteArray :=
  paddedSlice image (block * blockSize) blockSize

/-- The bytes of some runs after those in `before`. -/
def gathered (image : ByteArray) (blockSize : Nat) (before : ByteArray) (runs : List Span) :
    ByteArray :=
  runs.foldl (fun out s => out ++ slice (blockOf image blockSize s.block) s.start s.length) before

/-- **The runs of a range make up the range.** -/
theorem gathered_spans (hpos : 0 < blockSize) (hlength : 0 < length)
    (hin : offset + length ≤ image.size) (before : ByteArray) :
    gathered image blockSize before (spans blockSize offset length) =
      before ++ slice image offset length := by
  -- every run but the last leaves a shorter range
  induction hn : length using Nat.strongRecOn generalizing offset length before with
  | ind n ih =>
    subst hn
    have hdiv := Nat.div_add_mod' offset blockSize
    have hmod := Nat.mod_lt offset hpos
    rcases Nat.lt_or_ge (blockSize - offset % blockSize) length with hlt | hge
    · rw [spans_of_lt hpos hlt, gathered, List.foldl_cons]
      change gathered image blockSize _ _ = _
      rw [ih _ (by omega) (by omega) (by omega) _ rfl, ByteArray.append_assoc]
      simp only [blockOf]
      rw [slice_paddedSlice (by omega) (by omega), hdiv, ← slice_add]
      congr 2
      omega
    · rw [spans_of_le hlength hge]
      simp only [gathered, List.foldl_cons, List.foldl_nil, blockOf]
      rw [slice_paddedSlice (by omega) (by omega), hdiv]

end Erofs
