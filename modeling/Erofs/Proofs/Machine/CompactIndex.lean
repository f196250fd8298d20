import Erofs.Proofs.Compression.PackPlace
import Erofs.Proofs.Machine.File
import Erofs.Proofs.Machine.Pack
/-!
# Compact indexes in words

The place of an lcluster in a compact index, computed in words, and what
is read there. The index starts inside the image and has at most four bytes
for each lcluster of the file, so every place in it is below the limit of
positions.
-/

namespace Erofs.Machine

/-- By how many bits a number of slots is shifted to give their bytes. -/
def slotShift : PackKind → Nat
  | .fourByte => 2
  | .twoByte => 1

/-- The number of lclusters before the first multiple of 32 bytes. -/
def leadingCount (f : CompressedFile) : Option Nat := do
  let rest ← sub 32 (f.headerEnd % 32)
  return rest / 4 % 8

/-- The number of lclusters in packs of two bytes a slot, of `total` with
`leading` before them. -/
def twoByteCount (f : CompressedFile) (total leading : Nat) : Option Nat :=
  if f.advises MapAdvice.twoBytePacks ∧ leading < total then do
    let rest ← sub total leading
    alignDown 64 rest 16
  else return 0

/-- The place of an lcluster in a compact index. -/
def packPlace (f : CompressedFile) (lcn : Nat) : Option PackPlace := do
  let total ← lclusterCount f
  let leading ← leadingCount f
  let middle ← twoByteCount f total leading
  if lcn < leading then
    let before ← shiftLeft 64 lcn (slotShift .fourByte)
    let position ← add 64 f.headerEnd before
    return ⟨.fourByte, position⟩
  else
    let before ← mul 64 leading 4
    let position ← add 64 f.headerEnd before
    let rest ← sub lcn leading
    if rest < middle then
      let before ← shiftLeft 64 rest (slotShift .twoByte)
      let position ← add 64 position before
      return ⟨.twoByte, position⟩
    else
      let before ← mul 64 middle 2
      let position ← add 64 position before
      let rest ← sub rest middle
      let before ← shiftLeft 64 rest (slotShift .fourByte)
      let position ← add 64 position before
      return ⟨.fourByte, position⟩

/-- The number of bytes that there is room for when a pack is read. -/
def packRoom : Nat := 32

/-- Reads what a compact index says of an lcluster. -/
def loadCompact (f : CompressedFile) (lcn : Nat) : Program Lcluster := do
  let place ← packPlace f lcn
  if place.kind.maxLclusterBits < f.lclusterBits then Query.fail .unsupportedPackGeometry
  else
    let size ← shiftLeft 64 place.kind.slots (slotShift place.kind)
    let first ← alignDown 64 place.position size
    let offset ← sub place.position first
    let slot ← shiftRight 64 offset (slotShift place.kind)
    let _unused ← sub packRoom size
    let bytes ← Query.bytes first size
    packLcluster (f.packOf place.kind bytes) f slot

/-! ## Places -/

variable {image : ByteArray} {sb : Superblock} {f : CompressedFile} {lcn : Nat}

theorem slotSize_eq (k : PackKind) : k.slotSize = 2 ^ slotShift k := by
  cases k <;> rfl

/-- Packs are aligned to a power of two. -/
theorem size_eq_two_pow (k : PackKind) :
    ∃ places, places ≤ 64 ∧ k.size = 2 ^ places := by
  cases k with
  | fourByte => exact ⟨3, by decide, rfl⟩
  | twoByte => exact ⟨5, by decide, rfl⟩

theorem leadingCount_eq (f : CompressedFile) : leadingCount f = some f.leadingCount := by
  rw [leadingCount, sub_of_le (Nat.le_of_lt (Nat.mod_lt _ (by decide)))]
  rfl

theorem twoByteCount_eq (f : CompressedFile) (hcount : f.lclusterCount < 2 ^ 64) :
    twoByteCount f f.lclusterCount f.leadingCount = some f.twoByteCount := by
  unfold twoByteCount CompressedFile.twoByteCount
  split
  · next h =>
    rw [sub_of_le (Nat.le_of_lt h.2), some_bind]
    exact alignDown_of_le (by omega) (by decide : 4 ≤ 64)
  · rfl

/-- An lcluster of the file has a place in the index no farther than four
bytes for each lcluster before it. -/
theorem position_le (f : CompressedFile) (lcn : Nat) :
    f.headerEnd ≤ (f.packPlace lcn).position ∧
      (f.packPlace lcn).position ≤ f.headerEnd + lcn * 4 := by
  unfold CompressedFile.packPlace
  simp only
  split
  · simp only
    omega
  · split <;> simp only <;> omega

theorem packPlace_eq (himage : image.size < 2 ^ 63) (hf : f.Placed image sb)
    (hbits : f.lclusterBits < 64) (hlcn : lcn < f.lclusterCount) :
    packPlace f lcn = some (f.packPlace lcn) := by
  have hend := hf.headerEnd_le
  have hcount := hf.count_le
  simp only [maxAddressableUnits] at hcount
  have hleading : f.leadingCount < 8 := Nat.mod_lt _ (by decide)
  unfold packPlace CompressedFile.packPlace
  rw [lclusterCount_eq hbits, some_bind, leadingCount_eq, some_bind,
    twoByteCount_eq f (by omega), some_bind]
  simp only [slotShift]
  split
  · rw [shiftLeft_of_lt (by decide) (by omega), some_bind, add_of_lt (by omega), some_bind]
    rfl
  · rw [mul_of_lt (by omega), some_bind, add_of_lt (by omega), some_bind, sub_of_le (by omega),
      some_bind]
    split
    · rw [shiftLeft_of_lt (by decide) (by omega), some_bind, add_of_lt (by omega), some_bind]
      rfl
    · rw [mul_of_lt (by omega), some_bind, add_of_lt (by omega), some_bind, sub_of_le (by omega),
        some_bind, shiftLeft_of_lt (by decide) (by omega), some_bind, add_of_lt (by omega),
        some_bind]
      rfl

/-! ## Reading a pack -/

theorem small_packOf {k : PackKind} {bytes : ByteArray} (hsize : bytes.size = k.size)
    (hbits : f.lclusterBits ≤ k.maxLclusterBits) : (f.packOf k bytes).Small := by
  have hlow : max f.lclusterBits CompressedFile.minLowBits ≤ 14 := by
    have hmax : k.maxLclusterBits ≤ 14 := by cases k <;> decide
    simp only [CompressedFile.minLowBits]
    omega
  refine ⟨?_, ?_, ?_, ?_, hlow⟩
  · show 1 < k.slots
    cases k <;> decide
  · show k.slots ≤ 16
    cases k <;> decide
  · show Pack.addressSize ≤ bytes.size
    rw [hsize]
    cases k <;> decide
  · show bytes.size ≤ 32
    rw [hsize]
    cases k <;> decide

theorem packSize_eq (k : PackKind) : shiftLeft 64 k.slots (slotShift k) = some k.size := by
  cases k <;> rfl

theorem packBase_eq {place : PackPlace} (h : place.position < 2 ^ 64) :
    alignDown 64 place.position place.kind.size = some place.base := by
  obtain ⟨places, hle, hsize⟩ := size_eq_two_pow place.kind
  rw [PackPlace.base, hsize]
  exact alignDown_of_le h hle

theorem offset_eq (place : PackPlace) :
    sub place.position place.base = some (place.position - place.base) :=
  sub_of_le (Nat.div_mul_le_self ..)

theorem slot_eq (place : PackPlace) :
    shiftRight 64 (place.position - place.base) (slotShift place.kind) = some place.slot := by
  rw [PackPlace.slot, slotSize_eq]
  exact shiftRight_of_lt (by cases place.kind <;> decide)

theorem size_le_packRoom (k : PackKind) : k.size ≤ packRoom := by
  cases k <;> decide

/-- **Reading a compact index does not fault.** -/
theorem loadCompact_matches (himage : image.size < 2 ^ 63) (hf : f.Placed image sb)
    (hbits : f.lclusterBits < 64) (hlcn : lcn < f.lclusterCount) :
    Program.Matches image (loadCompact f lcn) (f.loadCompact lcn) := by
  have hcount := hf.count_le
  have hend := hf.headerEnd_le
  have hposition := (position_le f lcn).2
  have hslot := CompressedFile.slot_lt hf.headerEnd_mod lcn
  simp only [maxAddressableUnits] at hcount
  refine Program.matches_value (packPlace_eq himage hf hbits hlcn) ?_
  unfold CompressedFile.loadCompact
  generalize f.packPlace lcn = place at hposition hslot
  refine Program.matches_ite (fun _ => .fail _) fun hgeometry => ?_
  refine Program.matches_value (packSize_eq place.kind) ?_
  refine Program.matches_value (packBase_eq (by omega)) ?_
  refine Program.matches_value (offset_eq place) ?_
  refine Program.matches_value (slot_eq place) ?_
  refine Program.matches_value (sub_of_le (size_le_packRoom place.kind)) ?_
  refine Program.matches_bind (Program.matches_query _) fun bytes hbytes => ?_
  have hsmall := small_packOf (f := f) (le_of_onImage_bytes hbytes).2 (Nat.le_of_not_lt hgeometry)
  exact Program.matches_of_exact (packLcluster_eq hsmall f hslot)

end Erofs.Machine
