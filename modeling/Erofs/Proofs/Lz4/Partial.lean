import Erofs.Proofs.Compression.Allocation
import Erofs.Proofs.Lz4.Decode
/-!
# Decoding the front of a block

A block is decoded as far as it is asked for. Where the decoding stops,
inside literal bytes, inside a match or between two sequences, makes no
difference, and neither does what follows the block: the bytes are the
first ones of what the block expands to (`decodePartial_of_block`).
-/

namespace Erofs.Lz4

variable {target : Nat}

/-- A front of what a block expands to, decoded from the block and any
bytes after it. -/
theorem map_bytes_decode (b : Block) (garbage : List UInt8) (h : target ≤ b.expansion.length) :
    (decode ⟨(b.bytes ++ garbage).toArray⟩ target).map Decoded.bytes =
      .ok ⟨(b.expansion.take target).toArray⟩ := by
  have hbytes : (⟨(b.bytes ++ garbage).toArray⟩ : ByteArray).data.toList = b.bytes ++ garbage := rfl
  obtain ⟨d, hd, htake⟩ := exists_decode hbytes h
  have hplain : d.bytes = ⟨(b.expansion.take target).toArray⟩ := by
    apply ByteArray.ext
    rw [← htake]
  rw [hd, Except.map, hplain]

/-- **The first bytes of a block are decoded**, however many of them are
asked for and whatever follows the block. Only a buffer that cannot exist
is refused. -/
theorem decodePartial_of_block (b : Block) (garbage : List UInt8) (image : ByteArray)
    (h : target ≤ b.expansion.length) :
    (decode ⟨(b.bytes ++ garbage).toArray⟩ target).map Decoded.bytes =
        .ok ⟨(b.expansion.take target).toArray⟩ ∧
      (decodePartial ⟨(b.bytes ++ garbage).toArray⟩ target).onImage image =
        if bufferLimit ≤ target then .error .allocationFailed
        else .ok ⟨(b.expansion.take target).toArray⟩ := by
  have hdecode := map_bytes_decode b garbage h
  refine ⟨hdecode, ?_⟩
  rw [onImage_decodePartial, hdecode]

/-- A block of two matches that both reach into the bytes they produce. The
length of the first one goes on behind the token. -/
def overlapBlock : Block where
  steps := [
    { literals := [1, 2, 3], distance := 2, matched := 20
      distance_pos := Nat.two_pos, distance_le := by decide, minMatch_le := by decide },
    { literals := [], distance := 1, matched := 4
      distance_pos := Nat.one_pos, distance_le := by decide, minMatch_le := by decide }]
  tail := [9]
  reaches := ⟨by decide, by decide, trivial⟩

theorem decodePartial_of_overlap :
    overlapBlock.bytes = [0x3F, 1, 2, 3, 2, 0, 1, 0x00, 1, 0, 0x10, 9] ∧
      10 ≤ overlapBlock.expansion.length ∧
      (decode ⟨(overlapBlock.bytes ++ [0xFF, 0xFF]).toArray⟩ 10).map Decoded.bytes =
        .ok ⟨#[1, 2, 3, 2, 3, 2, 3, 2, 3, 2]⟩ ∧
      (decodePartial ⟨(overlapBlock.bytes ++ [0xFF, 0xFF]).toArray⟩ 10).onImage .empty =
        .ok ⟨#[1, 2, 3, 2, 3, 2, 3, 2, 3, 2]⟩ := by
  have hlength : 10 ≤ overlapBlock.expansion.length := by decide
  have hfront : overlapBlock.expansion.take 10 = [1, 2, 3, 2, 3, 2, 3, 2, 3, 2] := by decide
  obtain ⟨hdecode, hpartial⟩ := decodePartial_of_block overlapBlock [0xFF, 0xFF] .empty hlength
  rw [hfront] at hdecode hpartial
  rw [if_neg (by decide)] at hpartial
  exact ⟨by decide, hlength, hdecode, hpartial⟩

end Erofs.Lz4
