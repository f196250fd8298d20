import Erofs.Device.Faulty
import Erofs.Device.Memory
import Erofs.Proofs.Volume.Spans
/-!
# Devices that serve an image

A device serves an image if it keeps its block size and its size, whatever
it was asked, and if what it hands over in full are blocks of the image
(`Serves`). It may fail or fall short at any call. One that does neither
for blocks of the image delivers it (`Delivers`), as an image in memory
does (`delivers_memory`).
-/

namespace Erofs

variable {δ : Type} [BlockDevice δ] {image : ByteArray} {blockSize first count : Nat} {d e : δ}

/-- The number of blocks that an image starts. -/
def blocksIn (image : ByteArray) (blockSize : Nat) : Nat :=
  (image.size + blockSize - 1) / blockSize

namespace BlockDevice

/-- What use can make of a device. -/
inductive Becomes (d : δ) : δ → Prop
  /-- It has not been used. -/
  | refl : Becomes d d
  /-- Some blocks were asked for. -/
  | read {e : δ} (first count room : Nat) :
      Becomes d e → Becomes d (BlockDevice.readBlocks e first count room).2
  /-- It was prepared for use. -/
  | attach {e : δ} : Becomes d e → Becomes d (BlockDevice.attach e).2
  /-- Its use was ended. -/
  | detach {e : δ} : Becomes d e → Becomes d (BlockDevice.detach e).2

theorem Becomes.trans {f : δ} (hde : Becomes d e) (hef : Becomes e f) : Becomes d f := by
  induction hef with
  | refl => exact hde
  | read first count room _ ih => exact .read first count room ih
  | attach _ ih => exact .attach ih
  | detach _ ih => exact .detach ih

/-- A device that serves an image. Whether a transfer is made, and in full,
is up to the device, each time anew. -/
structure Serves (image : ByteArray) (blockSize : Nat) (d : δ) : Prop where
  /-- Block sizes are powers of two. -/
  blockSize_pow : 2 ^ blockSize.log2 = blockSize
  /-- The block size never changes. -/
  blockSize_eq {e : δ} : Becomes d e → (BlockDevice.blockSize e).toNat = blockSize
  /-- The size is always that of the image. -/
  size_eq {e : δ} : Becomes d e → (BlockDevice.size e).toNat = image.size
  /-- What is handed over in full are blocks of the image. -/
  data_eq {e : δ} {first count : Nat} {t : Transfer} : Becomes d e →
    (BlockDevice.readBlocks e first count (count * blockSize)).1 = .ok t →
    count * blockSize ≤ t.reported →
    t.data = paddedSlice image (first * blockSize) (count * blockSize)

theorem Serves.of_becomes (h : Serves image blockSize d) (hb : Becomes d e) :
    Serves image blockSize e where
  blockSize_pow := h.blockSize_pow
  blockSize_eq he := h.blockSize_eq (hb.trans he)
  size_eq he := h.size_eq (hb.trans he)
  data_eq he := h.data_eq (hb.trans he)

/-- Block sizes have 32 bits. -/
theorem Serves.blockSize_lt (h : Serves image blockSize d) : blockSize < 2 ^ 32 := by
  rw [← h.blockSize_eq .refl]
  exact UInt32.toNat_lt _

theorem Serves.blockSize_pos (h : Serves image blockSize d) : 0 < blockSize := by
  rw [← h.blockSize_pow]
  exact Nat.two_pow_pos _

/-- A device that serves an image and does not fail: every transfer of
blocks that the image starts is made in full. -/
structure Delivers (image : ByteArray) (blockSize : Nat) (d : δ) : Prop
    extends Serves image blockSize d where
  delivers {e : δ} {first count : Nat} : Becomes d e → 0 < count →
    first + count ≤ blocksIn image blockSize → first * blockSize < addressLimit →
    ∃ t, (BlockDevice.readBlocks e first count (count * blockSize)).1 = .ok t ∧
      count * blockSize ≤ t.reported

theorem Delivers.of_becomes (h : Delivers image blockSize d) (hb : Becomes d e) :
    Delivers image blockSize e where
  toServes := h.toServes.of_becomes hb
  delivers he := h.delivers (hb.trans he)

end BlockDevice

open BlockDevice

/-! ## Images in memory -/

/-- Using an image in memory does not change it. -/
theorem MemoryDevice.eq_of_becomes {d e : MemoryDevice} (h : Becomes d e) : e = d := by
  induction h with
  | refl => rfl
  | read _ _ _ _ ih => exact ih
  | attach _ ih => exact ih
  | detach _ ih => exact ih

theorem two_pow_log2_two_pow (k : Nat) : 2 ^ (2 ^ k).log2 = 2 ^ k := by
  rw [Nat.log2_two_pow]

theorem MemoryDevice.toNat_size (d : MemoryDevice) :
    (BlockDevice.size d).toNat = d.image.size := by
  change (d.image.size % 2 ^ 64) = d.image.size
  have hsize := d.size_lt
  exact Nat.mod_eq_of_lt (by omega)

/-- A block that the image starts, starts inside the image. -/
theorem mul_lt_size_of_lt_blocksIn {block : Nat} (hpos : 0 < blockSize)
    (h : block < blocksIn image blockSize) : block * blockSize < image.size :=
  mul_lt_of_lt_blocks hpos h

/-- **An image in memory is delivered** in blocks of any size that is a
power of two. -/
theorem delivers_memory (d : MemoryDevice) {k : Nat} (hk : d.blockSize.toNat = 2 ^ k) :
    Delivers d.image (2 ^ k) d where
  blockSize_pow := two_pow_log2_two_pow k
  blockSize_eq h := by
    rw [MemoryDevice.eq_of_becomes h]
    exact hk
  size_eq h := by
    rw [MemoryDevice.eq_of_becomes h]
    exact d.toNat_size
  data_eq {e first count t} h ht _ := by
    rw [MemoryDevice.eq_of_becomes h] at ht
    change d.readBlocks first count (count * 2 ^ k) = .ok t at ht
    simp only [MemoryDevice.readBlocks, hk] at ht
    grind
  delivers {e first count} h hpos hle hlimit := by
    rw [MemoryDevice.eq_of_becomes h]
    have hstart : first * 2 ^ k < d.image.size :=
      mul_lt_size_of_lt_blocksIn (Nat.two_pow_pos k) (by omega)
    refine ⟨⟨count * 2 ^ k, paddedSlice d.image (first * 2 ^ k) (count * 2 ^ k)⟩, ?_,
      Nat.le_refl _⟩
    change d.readBlocks first count (count * 2 ^ k) = _
    simp only [MemoryDevice.readBlocks, hk]
    rw [if_neg (by omega), if_neg (by omega)]

/-! ## Devices with chosen faults -/

/-- Using a device with chosen faults only adds to the record of its
calls. -/
theorem FaultyDevice.eq_of_becomes {d e : FaultyDevice} (h : Becomes d e) :
    ∃ calls, e = { d with calls } := by
  induction h with
  | refl => exact ⟨d.calls, rfl⟩
  | read first count room _ ih =>
    obtain ⟨calls, rfl⟩ := ih
    exact ⟨_, rfl⟩
  | attach _ ih => exact ih
  | detach _ ih => exact ih

/-- **A device with chosen faults serves its image**, if that has whole
blocks. -/
theorem serves_faulty (d : FaultyDevice) (hpow : 2 ^ d.blockSize.toNat.log2 = d.blockSize.toNat)
    (hsize : (BlockDevice.size d).toNat = d.image.size) :
    Serves d.image d.blockSize.toNat d where
  blockSize_pow := hpow
  blockSize_eq h := by
    obtain ⟨calls, rfl⟩ := FaultyDevice.eq_of_becomes h
    rfl
  size_eq h := by
    obtain ⟨calls, rfl⟩ := FaultyDevice.eq_of_becomes h
    exact hsize
  data_eq {e first count t} h ht _ := by
    obtain ⟨calls, rfl⟩ := FaultyDevice.eq_of_becomes h
    change FaultyDevice.transfer { d with calls } first count (count * d.blockSize.toNat) =
      .ok t at ht
    simp only [FaultyDevice.transfer] at ht
    split at ht
    · cases ht
    · cases ht
      refine ext_byteAt ?_ fun i hi => ?_
      · simp [slice, ByteArray.size_extract]
      · have hi : i < count * d.blockSize.toNat := by simpa [slice, ByteArray.size_extract] using hi
        rw [byteAt_slice hi, Nat.zero_add]

end Erofs
