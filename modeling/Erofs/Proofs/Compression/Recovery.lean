import Erofs.Proofs.Compression.Allocation
import Erofs.Proofs.Compression.Walk
import Erofs.Proofs.Lz4.Decode
import Erofs.Proofs.Lz4.Greedy
/-!
# Recovering the size of the last pcluster

How many bytes the last pcluster holds is found by decoding it and
compressing the result again. If the same compressor made its block from
the rest of the file, this finds the size of that block, whatever follows
it in the last pcluster (`occupiedSize_of_encoder`). Of the compressor it
is only needed that what it makes is a block of the rest of the file.
-/

namespace Erofs

variable {image plain garbage : ByteArray} {sb : Superblock} {f : CompressedFile}
variable {map : ExtentMap} {last : Pcluster} {room : Nat}

/-- A source that is compressed into the budget is taken as a whole. -/
theorem Lz4.fit_of_le {size : Nat → Nat} {length capacity : Nat} (h : size length ≤ capacity) :
    fit size length capacity = ⟨length, size length⟩ := by
  unfold fit
  exact if_pos h

theorem Lz4.frontSize_size [Compressor] (src : ByteArray) :
    frontSize src src.size = (Compressor.block src).size := by
  rw [frontSize, slice, Nat.zero_add, ByteArray.extract_zero_size]

namespace CompressedFile

/-- **Decoding and compressing again finds the size of the block.** -/
theorem recompressedSize_of_encoder [Lz4.Compressor]
    (hblock : Lz4.IsBlock (Lz4.Compressor.block plain) plain)
    (hroom : (Lz4.Compressor.block plain).size ≤ room)
    (hbudget : (Lz4.Compressor.block plain).size ≤ maxPclusterSize) (codec : String) :
    (f.recompressedSize last (Lz4.Compressor.block plain ++ garbage) room plain.size
      codec).onImage image = .ok (Lz4.Compressor.block plain).size := by
  -- a block is not much shorter than what it decodes to
  have hratio := hblock.size_le
  have hlimit : plain.size < Lz4.bufferLimit := by
    simp only [maxPclusterSize, Lz4.bufferLimit] at *
    omega
  have hplausible : plain.size ≤ Lz4.maxDecodedLength room := by
    simp only [Lz4.maxDecodedLength, Lz4.bufferLimit, addressLimit] at *
    omega
  obtain ⟨d, hd, hplain⟩ := hblock.exists_decode garbage
  have hfit : Lz4.fit (Lz4.frontSize plain) plain.size maxPclusterSize =
      ⟨plain.size, (Lz4.Compressor.block plain).size⟩ := by
    have hwhole : Lz4.frontSize plain plain.size ≤ maxPclusterSize := by
      rw [Lz4.frontSize_size]
      exact hbudget
    rw [Lz4.fit_of_le hwhole, Lz4.frontSize_size]
  rw [onImage_recompressedSize, if_neg (Nat.not_lt.mpr hplausible), if_neg (Nat.not_le.mpr hlimit),
    hd, Except.map, hplain, hfit, Nat.min_eq_left hroom]

/-- A map with a last pcluster is one of a file with bytes. -/
theorem size_ne_zero_of_last (hmap : (f.extents sb).onImage image = .ok map)
    (hlast : map.last? = some last) : f.size ≠ 0 := by
  intro hzero
  have hcount : f.lclusterCount = 0 := by
    rw [lclusterCount, hzero, unitsCovering, Nat.zero_add]
    exact Nat.div_eq_of_lt (Nat.sub_lt (Nat.two_pow_pos _) Nat.one_pos)
  rw [extents_eq, walkFrom_of_end (by omega), Except.ok.injEq] at hmap
  subst hmap
  cases hlast

/-- **The size of the last pcluster is recovered exactly**, whatever
follows the block in it. -/
theorem occupiedSize_of_encoder [Lz4.Compressor]
    (hblock : Lz4.IsBlock (Lz4.Compressor.block plain) plain)
    (hmap : (f.extents sb).onImage image = .ok map)
    (hlast : map.last? = some last) (hstorage : last.storage = .compressed)
    (halgorithm : f.algorithm = .lz4) (hpadding : sb.hasZeroPadding = false)
    (hplain : f.start last + plain.size = f.size)
    (hbudget : (Lz4.Compressor.block plain).size ≤ maxPclusterSize)
    (hblocks : imageRange image (sb.blockStart last.block.toNat) (last.blocks * sb.blockSize) =
      .ok (Lz4.Compressor.block plain ++ garbage)) :
    (f.lastSize sb map).onImage image = .ok (Lz4.Compressor.block plain).size ∧
      (f.occupiedSize sb).onImage image =
        .ok ((map.blockCount - last.blocks) * sb.blockSize +
          (Lz4.Compressor.block plain).size) := by
  have hroom : (Lz4.Compressor.block plain).size ≤ last.blocks * sb.blockSize := by
    rw [← size_of_imageRange hblocks, ByteArray.size_append]
    exact Nat.le_add_right ..
  have hsize : (f.lastSize sb map).onImage image = .ok (Lz4.Compressor.block plain).size := by
    unfold lastSize
    simp only [hlast, if_neg (by omega : ¬ f.size < f.start last), hstorage]
    unfold compressedSize
    rw [Query.onImage_bind_of_ok (a := "lz4") (by rw [halgorithm]; rfl),
      Query.onImage_bind_of_ok ((Query.onImage_bytesDirect ..).trans hblocks), hpadding,
      (by omega : f.size - f.start last = plain.size)]
    exact recompressedSize_of_encoder hblock hroom hbudget "lz4"
  refine ⟨hsize, ?_⟩
  rw [occupiedSize, if_neg (size_ne_zero_of_last hmap hlast), Query.onImage_bind_of_ok hmap,
    Query.onImage_bind_of_ok hsize, hlast]
  rfl

section
attribute [local instance] Lz4.Compressor.greedy

/-- Five bytes. -/
def shortText : ByteArray := ⟨#[104, 101, 108, 108, 111]⟩

/-- A file of two pclusters with a block of 512 bytes each. The second one
holds the block of five bytes, and other bytes after it. -/
def shortTextImage : ByteArray :=
  indexImage 0 0 [0, 0, 0, 0, 0, 0, 0, 0, 1, 0, 0, 0, 1, 0, 0, 0, 1, 0, 0, 0, 2, 0, 0, 0] ++
    zeros 960 ++ (Lz4.Compressor.block shortText ++ ⟨Array.replicate 506 0xFF⟩)

/-- The superblock of an image with blocks of 512 bytes. -/
def shortTextSuperblock : Superblock := .bare 9 0

/-- The file that the map header leads to. -/
def shortTextFile : CompressedFile :=
  indexFile .full shortTextSuperblock (.bare .compressedFull 517) 0 0

theorem occupiedSize_of_shortText :
    (shortTextFile.extents shortTextSuperblock).onImage shortTextImage =
        .ok (.of 2 [⟨0, .compressed, 0, 1, 1⟩, ⟨1, .compressed, 0, 2, 1⟩]) ∧
      (Lz4.Compressor.block shortText).size = 6 ∧
      (shortTextFile.occupiedSize shortTextSuperblock).onImage shortTextImage = .ok (512 + 6) := by
  have hmap : (shortTextFile.extents shortTextSuperblock).onImage shortTextImage =
      .ok (.of 2 [⟨0, .compressed, 0, 1, 1⟩, ⟨1, .compressed, 0, 2, 1⟩]) := by decide +kernel
  have hblock : (Lz4.Compressor.block shortText).size = 6 := by decide
  have hblocks : imageRange shortTextImage (shortTextSuperblock.blockStart (2 : UInt32).toNat)
      (1 * shortTextSuperblock.blockSize) =
        .ok (Lz4.Compressor.block shortText ++ ⟨Array.replicate 506 0xFF⟩) :=
    imageRange_eq_ok.mpr ⟨by decide +kernel, by decide +kernel,
      (ByteArray.extract_append_eq_right (by decide +kernel) (by decide +kernel)).symm⟩
  have hsize := (occupiedSize_of_encoder (Lz4.isBlock_greedy shortText) hmap rfl rfl rfl
    (by decide) (by decide) (by rw [hblock]; decide) hblocks).2
  rw [hblock] at hsize
  exact ⟨hmap, hblock, hsize⟩

end

end CompressedFile

end Erofs
