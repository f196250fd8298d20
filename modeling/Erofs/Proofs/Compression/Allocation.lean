import Erofs.Compression.OccupiedSize
import Erofs.Lz4.Plan
import Erofs.Proofs.Compression.Resolved
import Mathlib.Tactic.Common
/-!
# The occupied size and the allocated blocks

The blocks of a file are those of its pclusters, and the occupied size
counts all but the last pcluster in whole blocks. So it lies among the
allocated bytes as far as the part for the last pcluster does. A
compressed one is held to its blocks, whatever is found in them
(`compressedSize_le`). A plain one is taken to hold the rest of the file,
and nothing compares that with its blocks.
-/

namespace Erofs

variable {image : ByteArray} {sb : Superblock} {f : CompressedFile} {map : ExtentMap}
variable {last : Pcluster}

/-- The blocks of the last pcluster are among those of the map. -/
theorem ExtentMap.last_blocks_le (h : map.last? = some last) : last.blocks ≤ map.blockCount := by
  obtain ⟨before, hbefore⟩ := List.getLast?_eq_some_iff.mp h
  simp [map.blockCount_eq, hbefore]

/-- Partial decoding, without its remark. -/
theorem Lz4.onImage_decodePartial (image src : ByteArray) (target : Nat) :
    (decodePartial src target).onImage image =
      if bufferLimit ≤ target then .error .allocationFailed
      else (decode src target).map Decoded.bytes := by
  unfold decodePartial
  split
  · exact Query.onImage_fail _
  · rw [Query.onImage_bind, Query.onImage_liftM]
    cases decode src target with
    | error cause => rfl
    | ok d =>
      simp only [Except.bind, Except.map]
      rw [Query.onImage_report_bind, Query.onImage_pure]

/-- Compressing into a budget, without its remark. -/
theorem Lz4.onImage_compressInto [Compressor] (image src : ByteArray) (capacity : Nat) :
    (compressInto src capacity).onImage image = .ok (fit (frontSize src) src.size capacity) := by
  unfold compressInto
  simp only
  split
  · rw [Query.onImage_note, Query.onImage_done]
  · rw [Query.onImage_done]

namespace CompressedFile

section
variable [Lz4.Compressor]

/-- What is recovered from some raw blocks does not depend on the image
any more, nor on anything else that is known of the file. -/
theorem onImage_recompressedSize (f : CompressedFile) (image raw : ByteArray) (last : Pcluster)
    (room remaining : Nat) (codec : String) :
    (f.recompressedSize last raw room remaining codec).onImage image =
      if Lz4.maxDecodedLength room < remaining then .error .implausibleRemainder
      else if Lz4.bufferLimit ≤ remaining then .error .allocationFailed
      else (Lz4.decode raw remaining).map fun d =>
        min (Lz4.fit (Lz4.frontSize d.bytes) d.bytes.size maxPclusterSize).produced room := by
  unfold recompressedSize
  split
  · exact Query.onImage_fail _
  · rw [Query.onImage_bind, Lz4.onImage_decodePartial]
    split
    · rfl
    · cases Lz4.decode raw remaining with
      | error cause => rfl
      | ok d =>
        simp only [Except.bind, Except.map]
        rw [Query.onImage_bind_of_ok (Lz4.onImage_compressInto ..), Query.onImage_report_bind,
          Query.onImage_pure]

/-- It is no longer than those blocks are. -/
theorem recompressedSize_le {raw : ByteArray} {room remaining size : Nat} {codec : String}
    (h : (f.recompressedSize last raw room remaining codec).onImage image = .ok size) :
    size ≤ room := by
  rw [onImage_recompressedSize] at h
  split at h
  · cases h
  · split at h
    · cases h
    · cases hd : Lz4.decode raw remaining with
      | error cause => simp [hd, Except.map] at h
      | ok d =>
        simp only [hd, Except.map, Except.ok.injEq] at h
        subst h
        exact Nat.min_le_right _ _

/-- **A compressed pcluster is held to its blocks.** -/
theorem compressedSize_le {remaining size : Nat}
    (h : (f.compressedSize sb last remaining).onImage image = .ok size) :
    size ≤ last.blocks * sb.blockSize := by
  unfold compressedSize at h
  obtain ⟨codec, -, h⟩ := Query.onImage_bind_eq_ok.mp h
  obtain ⟨raw, -, h⟩ := Query.onImage_bind_eq_ok.mp h
  split at h
  · simp only [Query.onImage_pure, Except.ok.injEq] at h
    exact Nat.le_of_eq h.symm
  · exact recompressedSize_le h

/-- What the last pcluster counts for: no more than its blocks if it is
compressed, and the rest of the file if it is plain. -/
theorem lastSize_eq_ok {size : Nat} (h : (f.lastSize sb map).onImage image = .ok size) :
    ∃ last, map.last? = some last ∧ f.start last ≤ f.size ∧
      match last.storage with
      | .compressed => size ≤ last.blocks * sb.blockSize
      | .plain => size = f.size - f.start last := by
  unfold lastSize at h
  split at h
  · simp at h
  · next last hlast =>
    split at h
    · simp at h
    · refine ⟨last, hlast, by omega, ?_⟩
      cases hs : last.storage with
      | plain =>
        simp only [hs, Query.onImage_pure, Except.ok.injEq] at h
        exact h.symm
      | compressed =>
        simp only [hs] at h
        exact compressedSize_le h

/-- The two parts of the occupied size: the walk comes first, and the
last pcluster of its map decides the rest. -/
theorem occupiedSize_eq_ok {size : Nat} (hne : f.size ≠ 0)
    (h : (f.occupiedSize sb).onImage image = .ok size) :
    ∃ map lastSize, (f.extents sb).onImage image = .ok map ∧
      (f.lastSize sb map).onImage image = .ok lastSize ∧
      size = (map.blockCount - map.last?.elim 0 Pcluster.blocks) * sb.blockSize + lastSize := by
  rw [occupiedSize, if_neg hne] at h
  obtain ⟨map, hmap, h⟩ := Query.onImage_bind_eq_ok.mp h
  obtain ⟨lastSize, hlast, h⟩ := Query.onImage_bind_eq_ok.mp h
  simp only [Query.onImage_pure, Except.ok.injEq] at h
  exact ⟨map, lastSize, hmap, hlast, h.symm⟩

/-- **The occupied size lies among the allocated bytes exactly if the last
pcluster can hold what it counts for.** It is never less than the full
blocks before that pcluster, and it is more than all blocks just when a
plain one is given more of the file than its blocks have room for. -/
theorem occupiedSize_in_allocation_iff {size : Nat} (hne : f.size ≠ 0)
    (h : (f.occupiedSize sb).onImage image = .ok size) :
    ∃ map last, (f.extents sb).onImage image = .ok map ∧ map.last? = some last ∧
      (map.blockCount - last.blocks) * sb.blockSize ≤ size ∧
      (size ≤ map.blockCount * sb.blockSize ↔
        (last.storage = .plain → f.size - f.start last ≤ last.blocks * sb.blockSize)) := by
  obtain ⟨map, lastSize, hmap, hsize, rfl⟩ := occupiedSize_eq_ok hne h
  obtain ⟨last, hlast, -, hcases⟩ := lastSize_eq_ok hsize
  have hle := ExtentMap.last_blocks_le hlast
  have hsplit : map.blockCount * sb.blockSize =
      (map.blockCount - last.blocks) * sb.blockSize + last.blocks * sb.blockSize := by
    rw [← Nat.add_mul, Nat.sub_add_cancel hle]
  refine ⟨map, last, hmap, hlast, ?_, ?_⟩
  · simp [hlast]
  · simp only [hlast, Option.elim_some, hsplit, Nat.add_le_add_iff_left]
    cases hs : last.storage with
    | compressed => simpa [hs] using hcases
    | plain =>
      simp only [hs] at hcases
      simp [hcases]

end

/-- An index of four lclusters, all of one plain pcluster at block 10. -/
def plainIndex : ByteArray :=
  indexImage 0 0 [0, 0, 0, 0, 0, 0, 0, 0, 0, 0, 0, 0, 10, 0, 0, 0, 2, 0, 0, 0, 1, 0, 3, 0,
    2, 0, 0, 0, 2, 0, 2, 0, 2, 0, 0, 0, 3, 0, 1, 0]

/-- The superblock of an image with blocks of 512 bytes. -/
def plainSuperblock : Superblock := .bare 9 0

/-- The inode of a file of 2000 bytes. -/
def plainInode : Inode := .bare .compressedFull 2000

/-- The file that it resolves to. -/
def plainFile : CompressedFile := indexFile .full plainSuperblock plainInode 0 0

section
attribute [local instance] Lz4.Compressor.greedy

theorem occupiedSize_in_allocation_plain :
    plainFile.size ≠ 0 ∧
      (plainFile.occupiedSize plainSuperblock).onImage plainIndex = .ok 2000 ∧
      ∃ map last, (plainFile.extents plainSuperblock).onImage plainIndex = .ok map ∧
        map.last? = some last ∧
        (map.blockCount - last.blocks) * plainSuperblock.blockSize ≤ 2000 ∧
        (2000 ≤ map.blockCount * plainSuperblock.blockSize ↔
          (last.storage = .plain → plainFile.size - plainFile.start last ≤
            last.blocks * plainSuperblock.blockSize)) :=
  ⟨by decide, by decide +kernel, occupiedSize_in_allocation_iff (by decide) (by decide +kernel)⟩

/-- **A plain pcluster that is given more than it can hold.** The file has
one block, and its size is reported as 2000 bytes. -/
theorem occupiedSize_past_allocation :
    ∃ map last, (resolve plainSuperblock plainInode).onImage plainIndex =
        .ok plainFile ∧
      plainFile.size ≠ 0 ∧
      (plainFile.extents plainSuperblock).onImage plainIndex = .ok map ∧
      map.last? = some last ∧ last.storage = .plain ∧
      map.blockCount * plainSuperblock.blockSize = 512 ∧
      (plainFile.occupiedSize plainSuperblock).onImage plainIndex = .ok 2000 :=
  ⟨.of 4 [⟨0, .plain, 0, 10, 1⟩], ⟨0, .plain, 0, 10, 1⟩, by decide +kernel, by decide,
    by decide +kernel, rfl, rfl, by decide, by decide +kernel⟩

end

end CompressedFile

end Erofs
