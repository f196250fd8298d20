import Erofs.Proofs.Volume.Deliveries
/-!
# Reads from devices that may fail

Whatever the device does at some call, and whatever was read before, a
read answers the bytes of the image or reports what went wrong, and the
cache has nothing but blocks of the image (`Faithful`). This holds of
every volume that calls can make of one on a device that serves the image
(`faithful_of_serves`).
-/

namespace Erofs

variable {δ : Type} [BlockDevice δ] {image : ByteArray} {blockSize : Nat}

namespace Volume

/-- What is to be relied on in a volume on a device of an image. -/
structure Faithful (image : ByteArray) (blockSize : Nat) (v : Volume δ) : Prop where
  /-- An answer is the range of the image, all of it. -/
  answered {route : Route} {offset length : Nat} {bytes : ByteArray} :
    (v.read route offset length).1 = .ok bytes →
      offset + length ≤ image.size ∧ bytes = slice image offset length
  /-- A range that does not fit in 64 bits or ends past the image is
  refused, and nothing changes. -/
  refused (route : Route) {offset length : Nat} :
    addressLimit ≤ offset + length ∨ image.size < offset + length →
      ∃ cause, cause.kind = .io ∧ v.read route offset length = (.error cause, v)
  /-- A request that failed or fell short is reported, and its blocks do
  not get into the cache. -/
  failed {route : Route} {offset length : Nat} {d : Delivery} {cause : Error} :
    d ∈ v.deliveries route offset length → d.failure? = some cause →
      v.Failed route offset length d cause
  /-- Every block in the cache is the one that the image has there. -/
  cached {c : BlockCache} {block : Nat} {data : ByteArray} : v.cache = some c →
    c.peek? block = some data → data = blockOf image blockSize block

/-- A device that serves an image can be put into use. -/
theorem ofDevice_of_serves {device : δ} (h : BlockDevice.Serves image blockSize device)
    (capacity : Nat) (journal : Journal) :
    ∃ v, ofDevice device capacity journal = .ok v ∧ v.device = device ∧
      v.Holds image blockSize := by
  have hsize : (BlockDevice.blockSize device).toNat = blockSize := h.blockSize_eq .refl
  obtain ⟨v, hv, rfl, -, hcache⟩ :=
    exists_ofDevice (hsize.symm ▸ h.blockSize_pow) capacity journal
  exact ⟨v, hv, rfl, h, fun hc => .ofCapacity? (hcache.symm.trans hc)⟩

/-- The blocks that a range touches are among those of the image. -/
theorem blocksTouched_le_blocksIn (blockSize : Nat) {offset length : Nat}
    (hin : offset + length ≤ image.size) :
    blocksTouched blockSize offset length ≤ blocksIn image blockSize :=
  Nat.le_trans (Nat.sub_le ..) (Nat.div_le_div_right (by omega))

/-- An image of fewer than `2 ^ 32` blocks leaves room to round up the end of
every range. -/
theorem fits_of_blocksIn_lt (hpos : 0 < blockSize) (hsize : blockSize < 2 ^ 32)
    (hfew : blocksIn image blockSize < 2 ^ 32) : image.size + blockSize ≤ addressLimit := by
  have hend := Nat.lt_mul_of_div_lt hfew hpos
  have hmost : 2 ^ 32 * blockSize ≤ 2 ^ 32 * (2 ^ 32 - 1) := Nat.mul_le_mul_left _ (by omega)
  rw [addressLimit]
  omega

theorem Holds.faithful {v : Volume δ} (h : v.Holds image blockSize) :
    v.Faithful image blockSize where
  answered hok := by
    obtain ⟨-, hsize, hbytes⟩ := imageRange_eq_ok.mp ((h.read_spec ..).2 _ hok)
    exact ⟨hsize, hbytes⟩
  refused route {offset length} hout := by
    have hrange : ∃ cause, cause.kind = .io ∧ checkRange v.size offset length = .error cause := by
      rw [h.size_eq]
      unfold checkRange
      split
      · exact ⟨_, rfl, rfl⟩
      · rw [if_pos (by omega)]
        exact ⟨_, rfl, rfl⟩
    obtain ⟨cause, hkind, hcause⟩ := hrange
    exact ⟨cause, hkind, read_of_refused hcause⟩
  failed hd hcause := failed_of_deliveries hd hcause
  cached hc hpeek := (h.cached hc).peek? hpeek

/-- **Reads are right whatever happens.** A device that serves an image is
put into use with a cache of any capacity, or with none. After any calls,
of which any may have failed, its volume is to be relied on. If the device
does not fail, and the number of its blocks has 32 bits, every range of
the image is read. -/
theorem faithful_of_serves {device : δ} (h : BlockDevice.Serves image blockSize device)
    (capacity : Nat) (journal : Journal) :
    ∃ fresh, ofDevice device capacity journal = .ok fresh ∧ ∀ v, fresh.Becomes v →
      v.Faithful image blockSize ∧
        (BlockDevice.Delivers image blockSize device → blocksIn image blockSize < 2 ^ 32 →
          ∀ route offset length, offset + length < addressLimit →
            offset + length ≤ image.size →
            (v.read route offset length).1 = .ok (slice image offset length)) := by
  obtain ⟨fresh, hfresh, rfl, hholds⟩ := ofDevice_of_serves h capacity journal
  refine ⟨fresh, hfresh, fun v hv => ?_⟩
  have hv' := hholds.of_becomes hv
  refine ⟨hv'.faithful, fun hd hfew route offset length hlimit hin => ?_⟩
  have hfits := fits_of_blocksIn_lt h.blockSize_pos h.blockSize_lt hfew
  have htouched := blocksTouched_le_blocksIn blockSize hin
  rw [hv'.read_fst (hd.of_becomes hv.device) fun _ _ =>
    ⟨_, transferBlocks?_of_le hfits hin (by omega)⟩]
  exact imageRange_eq_ok.mpr ⟨hlimit, hin, rfl⟩

/-- A device of eight bytes in two blocks, whose first transfer falls
short. -/
def shortFirst : FaultyDevice where
  image := ⟨#[1, 2, 3, 4, 5, 6, 7, 8]⟩
  blockSize := 4
  totalBlocks := 2
  failure := .deviceFailure
  failFrom := none
  shortAt := some 0
  calls := #[]

/-- After the transfer that fell short, the volume is still to be relied
on. -/
theorem faithful_of_shortFirst :
    ∃ fresh, ofDevice shortFirst 1 #[] = .ok fresh ∧
      ((fresh.read .cached 2 4).2).Faithful shortFirst.image 4 := by
  obtain ⟨fresh, hfresh, h⟩ := faithful_of_serves
    (serves_faulty shortFirst (by decide) (by decide)) 1 #[]
  exact ⟨fresh, hfresh, (h _ (.read .cached 2 4 .refl)).1⟩

end Volume

end Erofs
