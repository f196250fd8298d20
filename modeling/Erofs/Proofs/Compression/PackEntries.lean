import Erofs.Proofs.Bytes
import Erofs.Proofs.Compression.PackPlace
import Erofs.Proofs.Compression.PackScan
import Erofs.Proofs.Compression.Resolved
/-!
# The slots of a pack as digits

A pack read as one number has its slots as digits: those of a pack of two
bytes a slot have fourteen bits, and the others sixteen. So what a slot
holds is a remainder of that number (`holds_packOf`), and every slot of a
whole pack can be read.
-/

namespace Erofs

/-- The width of a slot. -/
def PackKind.slotBits : PackKind → Nat
  | fourByte => 16
  | twoByte => 14

/-- What a slot holds if its bits, and those after it, make up this
number. -/
def PackEntry.ofNumber (lowBits number : Nat) : PackEntry :=
  ⟨number % 2 ^ lowBits, number / 2 ^ lowBits % 4⟩

/-- A window of 32 bits does not hide bits further down. -/
theorem mod_div_mod_two_pow {number shift bits : Nat} (h : shift + bits ≤ 32) :
    number % 2 ^ 32 / 2 ^ shift % 2 ^ bits = number / 2 ^ shift % 2 ^ bits := by
  obtain ⟨rest, hrest⟩ : ∃ rest, 32 = shift + (bits + rest) := ⟨32 - shift - bits, by omega⟩
  rw [hrest, Nat.pow_add, Nat.mod_mul_right_div_self, Nat.pow_add,
    Nat.mod_mod_of_dvd _ (Nat.dvd_mul_right ..)]

namespace CompressedFile

variable {f : CompressedFile} {kind : PackKind} {bytes image : ByteArray}

theorem slotBits_packOf (h : bytes.size = kind.size) :
    (f.packOf kind bytes).slotBits = kind.slotBits := by
  simp only [Pack.slotBits, packOf, h]
  cases kind <;> rfl

/-- **The slots of a whole pack are digits of the number it is.** -/
theorem holds_packOf (h : bytes.size = kind.size) (hbits : f.lclusterBits ≤ maxCompactBits) :
    (f.packOf kind bytes).Holds fun slot =>
      .ofNumber (max f.lclusterBits minLowBits)
        (littleEndian bytes 0 kind.size / 2 ^ (kind.slotBits * slot)) := by
  intro slot hslot
  have hlow : max f.lclusterBits minLowBits ≤ 14 := by
    simp only [maxCompactBits, minLowBits] at *
    omega
  have hfirst : kind.slotBits * slot / 8 + 4 ≤ kind.size := by
    change slot < kind.slots at hslot
    cases kind <;> simp only [PackKind.slots, PackKind.slotBits, PackKind.size,
      PackKind.slotSize] at * <;> omega
  -- a slot is read from the four bytes that start with its first one
  have hwindow : littleEndian bytes (kind.slotBits * slot / 8) 4 =
      littleEndian bytes 0 kind.size / 2 ^ (8 * (kind.slotBits * slot / 8)) % 2 ^ 32 := by
    have hbytes : 256 ^ (kind.slotBits * slot / 8) = 2 ^ (8 * (kind.slotBits * slot / 8)) :=
      (Nat.pow_mul 2 8 _).symm
    have := @littleEndian_window bytes 0 4 _ _ hfirst
    rw [Nat.zero_add, hbytes] at this
    exact this
  have hposition : 2 ^ (8 * (kind.slotBits * slot / 8)) * 2 ^ (kind.slotBits * slot % 8) =
      2 ^ (kind.slotBits * slot) := by
    rw [← Nat.pow_add, Nat.div_add_mod]
  unfold Pack.entry
  rw [slotBits_packOf h, if_neg (by simp only [packOf, h]; omega)]
  simp only [packOf, PackEntry.ofNumber, Except.ok.injEq, PackEntry.mk.injEq]
  constructor
  · rw [hwindow, mod_div_mod_two_pow (by omega), Nat.div_div_eq_div_mul, hposition]
  · have htype : littleEndian bytes 0 kind.size / 2 ^ (8 * (kind.slotBits * slot / 8)) % 2 ^ 32 /
        2 ^ (kind.slotBits * slot % 8 + max f.lclusterBits minLowBits) % 4 =
          littleEndian bytes 0 kind.size / 2 ^ (8 * (kind.slotBits * slot / 8)) /
            2 ^ (kind.slotBits * slot % 8 + max f.lclusterBits minLowBits) % 4 :=
      mod_div_mod_two_pow (by omega : _ + 2 ≤ 32)
    rw [hwindow, Nat.div_div_eq_div_mul, ← Nat.pow_add, htype, Nat.pow_add,
      ← Nat.div_div_eq_div_mul, Nat.div_div_eq_div_mul _ _ (2 ^ (kind.slotBits * slot % 8)),
      hposition]

/-- The base address of a pack stands in its last four bytes. -/
theorem base_packOf (h : bytes.size = kind.size) :
    (f.packOf kind bytes).base = u32At bytes (kind.size - Pack.addressSize) := by
  simp only [Pack.base, packOf, h]

/-! ## Packs in an image -/

/-- The pack at a place in an image. -/
def packAt (f : CompressedFile) (image : ByteArray) (place : PackPlace) : Pack :=
  f.packOf place.kind (slice image place.base place.kind.size)

/-- The number of slots of a pack in an image. -/
@[simp] theorem slots_packAt (place : PackPlace) :
    (f.packAt image place).slots = place.kind.slots := rfl

/-- Two lclusters in one pack are read from the same pack. -/
theorem packAt_congr {p q : PackPlace} (h : p.SamePack q) :
    f.packAt image p = f.packAt image q := by
  simp only [packAt, h.1, h.2]

/-- An lcluster of a resolved file fits the slots of its pack. -/
theorem Resolved.lclusterBits_le_maxLclusterBits {sb : Superblock} (r : Resolved sb f)
    (hc : f.format = .compact) (lcn : Nat) :
    f.lclusterBits ≤ (f.packPlace lcn).kind.maxLclusterBits := by
  cases hkind : (f.packPlace lcn).kind with
  | fourByte => exact r.lclusterBits_le hc
  | twoByte => exact r.lclusterBits_le_twoByte hc (advises_of_twoByte hkind)

/-- What a compact index says of an lcluster is what its slot in the pack
says, provided the pack lies in the image. -/
theorem loadCompact_eq_ok {lcn : Nat} {l : Lcluster} :
    (f.loadCompact lcn).onImage image = .ok l ↔
      f.lclusterBits ≤ (f.packPlace lcn).kind.maxLclusterBits ∧
        (f.packPlace lcn).base + (f.packPlace lcn).kind.size < addressLimit ∧
        (f.packPlace lcn).base + (f.packPlace lcn).kind.size ≤ image.size ∧
        (f.packAt image (f.packPlace lcn)).lcluster f (f.packPlace lcn).slot = .ok l := by
  unfold loadCompact
  by_cases hbits : f.lclusterBits ≤ (f.packPlace lcn).kind.maxLclusterBits
  · simp only [if_neg (Nat.not_lt.mpr hbits), Query.onImage_bind_eq_ok, Query.onImage_bytes,
      imageRange_eq_ok, Query.onImage_liftM]
    constructor
    · rintro ⟨bytes, ⟨hlimit, hsize, rfl⟩, hl⟩
      exact ⟨hbits, hlimit, hsize, hl⟩
    · rintro ⟨-, hlimit, hsize, hl⟩
      exact ⟨_, ⟨hlimit, hsize, rfl⟩, hl⟩
  · simp [Nat.lt_of_not_le hbits, hbits]

end CompressedFile

end Erofs
