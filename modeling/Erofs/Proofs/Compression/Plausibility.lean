import Erofs.Proofs.Compression.Allocation
import Erofs.Proofs.Compression.Failures
import Erofs.Proofs.Lz4.Runs
/-!
# The plausibility of a remainder

The rest of a file that is more than 255 times as long as the blocks of
its last pcluster is refused before it is decoded
(`CompressedFile.lastSize_eq_implausible`). Nothing is lost by that: no
bytes lead to more than 255 times their number, so that decoding would
have failed (`CompressedFile.undecodable_of_implausible`).
-/

namespace Erofs

variable {image : ByteArray} {sb : Superblock} {f : CompressedFile} {map : ExtentMap}
variable {last : Pcluster} {target : Nat}

/-- What can be decoded is plausible. -/
theorem Lz4.le_maxDecodedLength_of_decode {src : ByteArray} {d : Decoded}
    (h : decode src target = .ok d) (hword : target < addressLimit) :
    target ≤ maxDecodedLength src.size := by
  have hle := target_le_of_decode h
  rw [maxDecodedLength]
  omega

/-- And a query that succeeds has decoded what it was asked for. -/
theorem Lz4.exists_decode_of_decodePartial {src plain : ByteArray}
    (h : (decodePartial src target).onImage image = .ok plain) :
    target < bufferLimit ∧ ∃ d, decode src target = .ok d := by
  rw [onImage_decodePartial] at h
  split at h
  · cases h
  · next hbuffer =>
    cases hd : decode src target with
    | error cause =>
      rw [hd] at h
      cases h
    | ok d => exact ⟨Nat.lt_of_not_le hbuffer, d, rfl⟩

namespace CompressedFile

variable [Lz4.Compressor]

/-- The size of a compressed last pcluster, from its blocks. -/
theorem onImage_compressedSize (f : CompressedFile) (sb : Superblock) (last : Pcluster)
    (remaining : Nat) (image : ByteArray) :
    (f.compressedSize sb last remaining).onImage image =
      f.algorithm.codec.bind fun codec =>
        (imageRange image (sb.blockStart last.block.toNat) (last.blocks * sb.blockSize)).bind
          fun raw =>
            if sb.hasZeroPadding then .ok (last.blocks * sb.blockSize)
            else (f.recompressedSize last raw (last.blocks * sb.blockSize) remaining
              codec).onImage image := by
  unfold compressedSize
  rw [Query.onImage_bind, Query.onImage_liftM]
  congr 1
  funext codec
  rw [Query.onImage_bind, Query.onImage_bytesDirect]
  congr 1
  funext raw
  split
  · rfl
  · rfl

/-- A remainder is refused as implausible only after its blocks were read,
for being too long for them. -/
theorem recompressedSize_eq_implausible {raw : ByteArray} {room remaining : Nat} {codec : String} :
    (f.recompressedSize last raw room remaining codec).onImage image =
        .error .implausibleRemainder ↔ Lz4.maxDecodedLength room < remaining := by
  rw [onImage_recompressedSize]
  constructor
  · intro h
    by_contra hplausible
    rw [if_neg hplausible] at h
    split at h
    · cases h
    · have hfails := (Lz4.failsFor_decode raw remaining).map fun d =>
        min (Lz4.fit (Lz4.frontSize d.bytes) d.bytes.size maxPclusterSize).produced room
      cases hfails _ h
  · intro h
    rw [if_pos h]

theorem compressedSize_eq_implausible {remaining : Nat} :
    (f.compressedSize sb last remaining).onImage image = .error .implausibleRemainder ↔
      f.algorithm = .lz4 ∧ sb.hasZeroPadding = false ∧
        (∃ raw, imageRange image (sb.blockStart last.block.toNat)
          (last.blocks * sb.blockSize) = .ok raw) ∧
        Lz4.maxDecodedLength (last.blocks * sb.blockSize) < remaining := by
  rw [onImage_compressedSize]
  constructor
  · intro h
    cases halgorithm : f.algorithm with
    | lzma =>
      rw [halgorithm] at h
      cases h
    | lz4 =>
      rw [halgorithm] at h
      cases hraw : imageRange image (sb.blockStart last.block.toNat)
          (last.blocks * sb.blockSize) with
      | error cause =>
        -- the device fails for other reasons
        rw [hraw] at h
        cases h
        have hother : Error.implausibleRemainder ≠ .implausibleRemainder :=
          FailsFor.imageRange (by decide) (by decide) _ hraw
        exact absurd rfl hother
      | ok raw =>
        rw [hraw] at h
        cases hpadding : sb.hasZeroPadding with
        | true =>
          rw [hpadding] at h
          cases h
        | false =>
          rw [hpadding] at h
          exact ⟨rfl, rfl, ⟨raw, rfl⟩, recompressedSize_eq_implausible.mp h⟩
  · rintro ⟨halgorithm, hpadding, ⟨raw, hraw⟩, hlong⟩
    rw [halgorithm, hpadding, hraw]
    exact recompressedSize_eq_implausible.mpr hlong

/-- **When the rest of a file is refused as implausible**: it is too long
for the blocks of a last pcluster that would have been decoded. -/
theorem lastSize_eq_implausible :
    (f.lastSize sb map).onImage image = .error .implausibleRemainder ↔
      ∃ last raw, map.last? = some last ∧ last.storage = .compressed ∧ f.start last ≤ f.size ∧
        f.algorithm = .lz4 ∧ sb.hasZeroPadding = false ∧
        imageRange image (sb.blockStart last.block.toNat) (last.blocks * sb.blockSize) = .ok raw ∧
        Lz4.maxDecodedLength raw.size < f.size - f.start last := by
  constructor
  · intro h
    unfold lastSize at h
    split at h
    · simp at h
    · next last hlast =>
      split at h
      · simp at h
      · next hstart =>
        cases hs : last.storage with
        | plain => simp [hs] at h
        | compressed =>
          simp only [hs] at h
          obtain ⟨halgorithm, hpadding, ⟨raw, hraw⟩, hlong⟩ := compressedSize_eq_implausible.mp h
          rw [← size_of_imageRange hraw] at hlong
          exact ⟨last, raw, hlast, hs, Nat.le_of_not_lt hstart, halgorithm, hpadding, hraw, hlong⟩
  · rintro ⟨last, raw, hlast, hs, hstart, halgorithm, hpadding, hraw, hlong⟩
    rw [size_of_imageRange hraw] at hlong
    unfold lastSize
    simp only [hlast, if_neg (Nat.not_lt.mpr hstart), hs]
    exact compressedSize_eq_implausible.mpr ⟨halgorithm, hpadding, ⟨raw, hraw⟩, hlong⟩

/-- **Nothing that can be decoded is refused as implausible.** What is
decoded from a source is at most 255 times as long. So where the rest of a
file is refused, decoding it from the same blocks would have failed too:
they are corrupted, if there can be a buffer for so many bytes at all. -/
theorem undecodable_of_implausible (f : CompressedFile) (sb : Superblock) (map : ExtentMap)
    (image : ByteArray) :
    (∀ src target plain, (Lz4.decodePartial src target).onImage image = .ok plain →
        target ≤ Lz4.maxDecodedLength src.size) ∧
      ((f.lastSize sb map).onImage image = .error .implausibleRemainder →
        ∃ last raw cause, map.last? = some last ∧
          imageRange image (sb.blockStart last.block.toNat) (last.blocks * sb.blockSize) =
            .ok raw ∧
          Lz4.decode raw (f.size - f.start last) = .error cause ∧ cause.kind = .corrupted ∧
          (Lz4.decodePartial raw (f.size - f.start last)).onImage image =
            .error (if Lz4.bufferLimit ≤ f.size - f.start last then .allocationFailed
              else cause)) := by
  refine ⟨?_, ?_⟩
  · intro src target plain h
    obtain ⟨hbuffer, d, hd⟩ := Lz4.exists_decode_of_decodePartial h
    exact Lz4.le_maxDecodedLength_of_decode hd (Nat.lt_trans hbuffer (by decide))
  · intro h
    obtain ⟨last, raw, hlast, -, -, -, -, hraw, hlong⟩ := lastSize_eq_implausible.mp h
    have hword : f.size - f.start last < addressLimit :=
      Nat.lt_of_le_of_lt (Nat.sub_le ..) f.inode.size.toNat_lt
    cases hd : Lz4.decode raw (f.size - f.start last) with
    | ok d => exact absurd (Lz4.le_maxDecodedLength_of_decode hd hword) (Nat.not_le.mpr hlong)
    | error cause =>
      refine ⟨last, raw, cause, hlast, hraw, hd, ?_, ?_⟩
      · exact Error.kind_of_isOfBlock (Lz4.failsFor_decode _ _ _ hd)
      · rw [Lz4.onImage_decodePartial, hd]
        split
        · rfl
        · rfl

end CompressedFile

end Erofs
