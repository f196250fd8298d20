import Erofs.Proofs.Reads
import Erofs.Proofs.Volume.Faults
/-!
# What a volume answers

A volume on a device that delivers an image answers every session as the
image does, whatever its block size, its cache and its past, as long as no
single read is of too many blocks (`perform_fst`). Short reads never are
(`blocksTouched_le_length`).
-/

namespace Erofs

variable {δ : Type} [BlockDevice δ] {α : Type} {image : ByteArray} {blockSize : Nat}

/-- Reads of fewer bytes than this, on either route. -/
def Short : Route → Nat → Prop := fun _ length => length < shortLimit

/-- A range touches no more blocks than it has bytes. -/
theorem blocksTouched_le_length {offset length : Nat} (hpos : 0 < blockSize)
    (hlength : 0 < length) : blocksTouched blockSize offset length ≤ length := by
  obtain ⟨rest, rfl⟩ : ∃ rest, length = rest + 1 := ⟨length - 1, by omega⟩
  have hdiv := Nat.div_add_mod' offset blockSize
  have hmod := Nat.mod_lt offset hpos
  have hrest : rest ≤ rest * blockSize := Nat.le_mul_of_pos_right rest hpos
  have hend : (offset + (rest + 1) + blockSize - 1) / blockSize <
      offset / blockSize + (rest + 1) + 1 := by
    rw [Nat.div_lt_iff_lt_mul hpos]
    simp only [Nat.add_mul, Nat.one_mul]
    omega
  rw [blocksTouched]
  omega

/-- So a short range touches few. -/
theorem blocksTouched_lt_of_short {offset length : Nat} (hpos : 0 < blockSize)
    (hshort : length < shortLimit) : blocksTouched blockSize offset length < 2 ^ 32 := by
  rcases Nat.eq_zero_or_pos length with rfl | hlength
  · have hend : (offset + 0 + blockSize - 1) / blockSize ≤ offset / blockSize + 1 := by
      rw [← Nat.add_div_right _ hpos]
      exact Nat.div_le_div_right (by omega)
    rw [blocksTouched]
    omega
  · exact Nat.lt_of_le_of_lt (blocksTouched_le_length hpos hlength) hshort

namespace Volume

variable {v w : Volume δ}

theorem Becomes.trans {x : Volume δ} (hvw : v.Becomes w) (hwx : w.Becomes x) : v.Becomes x := by
  induction hwx with
  | refl => exact hvw
  | read route offset length _ ih => exact .read route offset length ih
  | note remark _ ih => exact .note remark ih
  | attach _ ih => exact .attach ih
  | close _ ih => exact .close ih

/-- Sessions are made of reads and remarks. -/
theorem becomes_perform (v : Volume δ) (s : Session α) : v.Becomes (v.perform s).2 := by
  induction s generalizing v with
  | done => exact .refl
  | note remark rest ih => exact (Becomes.note remark .refl).trans (ih _)
  | read route offset length rest ih =>
    exact (Becomes.read route offset length .refl).trans (ih _ _)

/-- A volume on a device that delivers an image. -/
structure Delivers (image : ByteArray) (blockSize : Nat) (v : Volume δ) : Prop
    extends Holds image blockSize v where
  delivered : BlockDevice.Delivers image blockSize v.device
  /-- The last block does not reach past 64 bits, so that the end of every
  range can be rounded up. -/
  fits : image.size + blockSize ≤ addressLimit

namespace Delivers

theorem of_becomes (h : v.Delivers image blockSize) (hb : v.Becomes w) :
    w.Delivers image blockSize where
  toHolds := h.toHolds.of_becomes hb
  delivered := h.delivered.of_becomes hb.device
  fits := h.fits

/-- A short read answers what the image does. -/
theorem read_fst_of_short (h : v.Delivers image blockSize) (route : Route) {offset length : Nat}
    (hshort : length < shortLimit) :
    (v.read route offset length).1 = imageRange image offset length :=
  h.toHolds.read_fst h.delivered fun _ hin =>
    ⟨_, transferBlocks?_of_le h.fits hin (blocksTouched_lt_of_short h.served.blockSize_pos hshort)⟩

/-- **A session of short reads is answered as by the image.** -/
theorem perform_fst (h : v.Delivers image blockSize) {s : Session α}
    (hs : s.Reads Short image) : (v.perform s).1 = s.answer image := by
  induction s generalizing v with
  | done => rfl
  | note remark rest ih =>
    rw [Session.answer, Session.onImage, Session.onImage_fst]
    exact ih (h.of_becomes (.note remark .refl)) hs
  | read route offset length rest ih =>
    have hread : (v.read route offset length).1 = imageRange image offset length :=
      h.read_fst_of_short route hs.1
    have hnext := ih (imageRange image offset length)
      (h.of_becomes (.read route offset length .refl)) hs.2
    rw [perform]
    simp only [hread]
    exact hnext

/-- So is a query. -/
theorem ask_fst (h : v.Delivers image blockSize) {q : Query α} (hq : q.Reads Short image) :
    (v.ask q).1 = q.onImage image :=
  h.perform_fst (Query.reads_attempt hq)

end Delivers

/-- A volume on an image in memory that was just put into use. -/
theorem delivers_of_memory {v : Volume MemoryDevice} {device : MemoryDevice} {k : Nat}
    (hk : device.blockSize.toNat = 2 ^ k) (hdevice : v.device = device)
    (hholds : v.Holds device.image (2 ^ k)) : v.Delivers device.image (2 ^ k) where
  toHolds := hholds
  delivered := hdevice ▸ delivers_memory device hk
  fits := by
    have hsize := device.size_lt
    have hblock := device.blockSize.toNat_lt
    rw [addressLimit]
    omega

/-- A volume on an image in memory with blocks of `2 ^ k` bytes, after any
use. -/
def InUse (image : ByteArray) (k : Nat) (v : Volume MemoryDevice) : Prop :=
  ∃ device : MemoryDevice, device.image = image ∧ device.blockSize.toNat = 2 ^ k ∧
    ∃ capacity journal fresh, ofDevice device capacity journal = .ok fresh ∧ fresh.Becomes v

/-- Every image in memory can be put into use, in blocks of every size. -/
theorem exists_inUse (hsize : image.size < 2 ^ 63) {k : Nat} (hk : k < 32) (capacity : Nat)
    (journal : Journal) :
    ∃ device v, device.image = image ∧ ofDevice device capacity journal = .ok v ∧
      v.InUse image k := by
  have hblock : (UInt32.ofNat (2 ^ k)).toNat = 2 ^ k := by
    rw [UInt32.toNat_ofNat']
    exact Nat.mod_eq_of_lt (Nat.pow_lt_pow_right (by decide) hk)
  obtain ⟨v, hv, -, -⟩ :=
    ofDevice_of_serves (delivers_memory ⟨image, .ofNat (2 ^ k), hsize⟩ hblock).toServes
      capacity journal
  exact ⟨_, v, rfl, hv, _, rfl, hblock, capacity, journal, v, hv, .refl⟩

theorem InUse.delivers {v : Volume MemoryDevice} {k : Nat} (h : v.InUse image k) :
    v.Delivers image (2 ^ k) := by
  obtain ⟨device, rfl, hk, capacity, journal, fresh, hfresh, hbecomes⟩ := h
  obtain ⟨v', hv', hdevice, hholds⟩ :=
    ofDevice_of_serves (delivers_memory device hk).toServes capacity journal
  cases hfresh.symm.trans hv'
  exact (delivers_of_memory hk hdevice hholds).of_becomes hbecomes

theorem InUse.of_becomes {v w : Volume MemoryDevice} {k : Nat} (h : v.InUse image k)
    (hb : v.Becomes w) : w.InUse image k := by
  obtain ⟨device, himage, hk, capacity, journal, fresh, hfresh, hbecomes⟩ := h
  exact ⟨device, himage, hk, capacity, journal, fresh, hfresh, hbecomes.trans hb⟩

end Volume

end Erofs
