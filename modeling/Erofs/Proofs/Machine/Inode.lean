import Erofs.Proofs.Machine.Superblock
import Erofs.Proofs.Placement
/-!
# Inodes in words

Reading an inode and finding its flat data, computed in words. The record
and the extended attributes of an inode of the image end far below the
limit of positions, and a file that is mapped has so few blocks that each
of them has a position.
-/

namespace Erofs.Machine

/-- Reads the compact record at the front of a string of bytes. -/
def decodeCompact (b : ByteArray) : Computation CompactInode := do
  if b.size < InodeVersion.compact.recordSize then throw .shortCompactInode
  else
    let format ← field16 b 0
    let xattrCount ← field16 b 2
    let mode ← field16 b 4
    let linkCount ← field16 b 6
    let size ← field32 b 8
    let reserved ← field32 b 12
    let payload ← field32 b 16
    let ino ← field32 b 20
    let uid ← field16 b 24
    let gid ← field16 b 26
    let reserved2 ← field32 b 28
    return {
      format, xattrCount, mode, linkCount, size, reserved, payload, ino, uid, gid, reserved2 }

/-- Reads the extended record at the front of a string of bytes. -/
def decodeExtended (b : ByteArray) : Computation ExtendedInode := do
  if b.size < InodeVersion.extended.recordSize then throw .shortExtendedInode
  else
    let format ← field16 b 0
    let xattrCount ← field16 b 2
    let mode ← field16 b 4
    let reserved ← field16 b 6
    let size ← field64 b 8
    let payload ← field32 b 16
    let ino ← field32 b 20
    let uid ← field32 b 24
    let gid ← field32 b 28
    let changeTime ← field64 b 32
    let changeTimeNanos ← field32 b 40
    let linkCount ← field32 b 44
    return {
      format, xattrCount, mode, reserved, size, payload, ino, uid, gid, changeTime,
      changeTimeNanos, linkCount }

/-- The size of the extended attributes behind an inode. -/
def xattrSize (count : Nat) : Option Nat :=
  if count = 0 then some 0
  else do
    let others ← sub count 1
    let entries ← mul 32 others 4
    add 32 12 entries

/-- Decodes the record whose first bytes are `head` and reads the rest of
it if it is extended. -/
def inodeOfHead (sb : Superblock) (nid position : Nat) (head : ByteArray) : Program Inode := do
  let format ← field16 head 0
  let layout ← DataLayout.ofFormat format
  match InodeVersion.ofFormat format with
  | .compact =>
    let record ← decodeCompact head
    let size ← xattrSize record.xattrCount.toNat
    let type ← Inode.typeOfMode nid record.mode
    return { Inode.ofCompact sb nid position layout type record with xattrSize := size }
  | .extended =>
    let compactSize := InodeVersion.compact.recordSize
    let rest ← add 64 position compactSize
    let tail ← Query.bytes rest (InodeVersion.extended.recordSize - compactSize)
    let record ← decodeExtended (head ++ tail)
    let size ← xattrSize record.xattrCount.toNat
    let type ← Inode.typeOfMode nid record.mode
    return { Inode.ofExtended nid position layout type record with xattrSize := size }

/-- Reads an inode. -/
def readInode (sb : Superblock) (nid : Nat) : Program Inode := do
  let position ← inodePosition sb nid
  let head ← Query.bytes position InodeVersion.compact.recordSize
  let inode ← inodeOfHead sb nid position head
  Query.report inode.decoded
  return inode

/-- Where the record and the extended attributes end. -/
def inlineDataPosition (i : Inode) : Option Nat := do
  let stop ← add 64 i.position i.version.recordSize
  add 64 stop i.xattrSize

/-- The number of units of `2 ^ bits` bytes that cover `size` bytes: the
whole ones, and one more for what is left. -/
def unitsCovering (size bits : Nat) : Option Nat := do
  let whole ← shiftRight 64 size bits
  let rest ← lowest 64 size bits
  add 64 whole (if rest = 0 then 0 else 1)

/-- The number of blocks that the data covers. -/
def blockCount (sb : Superblock) (i : Inode) : Computation Nat := do
  let count ← unitsCovering i.size.toNat sb.bits
  if maxAddressableUnits < count then throw (.tooManyBlocks i.nid i.size.toNat) else return count

/-- Where the bytes of an inline tail lie. -/
def inlineExtent (sb : Superblock) (i : Inode) (length : Nat) : Computation FlatExtent := do
  let offset ← inlineDataPosition i
  let start ← offsetInBlock sb offset
  let stop ← add 64 start length
  let size ← blockSize sb
  if size < stop then throw (.inlineTailCrossesBlock i.nid offset length)
  else return ⟨offset, length, true⟩

/-- Where bytes in a block of the file lie among its consecutive
blocks. -/
def plainExtent (sb : Superblock) (i : Inode) (block length : Nat) : Computation FlatExtent :=
  match i.firstBlock? with
  | none => throw .noDataBlocks
  | some first => do
    let place ← add 64 first.toNat block
    let offset ← blockStart sb place
    return ⟨offset, length, false⟩

/-- Where the bytes of a block of the file lie. -/
def flatExtent (sb : Superblock) (i : Inode) (block : Nat) : Computation FlatExtent := do
  let size ← blockSize sb
  let count ← blockCount sb i
  if count ≤ block then throw .blockPastEndOfFile
  else
    let start ← mul 64 block size
    let rest ← sub i.size.toNat start
    let length ← fit 32 (min size rest)
    if i.isCompressed then throw .mappingOfCompressed
    else if i.layout = .flatInline then
      let last ← sub count 1
      if block = last then inlineExtent sb i length else plainExtent sb i block length
    else plainExtent sb i block length

/-! ## Reading an inode -/

variable {image : ByteArray} {sb : Superblock} {i : Inode}

theorem decodeCompact_eq (b : ByteArray) : decodeCompact b = exact (CompactInode.decode b) := by
  unfold decodeCompact CompactInode.decode
  split
  · rfl
  · next h =>
    simp only [InodeVersion.recordSize, Nat.not_lt] at h
    simp (disch := omega) only [field16_of_le, field32_of_le, liftM_some, exact_ok_bind,
      pure_eq_exact]

theorem decodeExtended_eq (b : ByteArray) : decodeExtended b = exact (ExtendedInode.decode b) := by
  unfold decodeExtended ExtendedInode.decode
  split
  · rfl
  · next h =>
    simp only [InodeVersion.recordSize, Nat.not_lt] at h
    simp (disch := omega) only [field16_of_le, field32_of_le, field64_of_le, liftM_some,
      exact_ok_bind, pure_eq_exact]

theorem xattrSize_eq (count : UInt16) :
    xattrSize count.toNat = some (inlineXattrSize count.toNat) := by
  have hlt := count.toNat_lt
  unfold xattrSize inlineXattrSize
  split
  · rfl
  · rw [sub_of_le (by omega), some_bind, mul_of_lt (by omega), some_bind, add_of_lt (by omega)]

theorem inodeOfHead_matches (nid : Nat) {position : Nat} {head : ByteArray}
    (hsize : head.size = InodeVersion.compact.recordSize)
    (hle : position + InodeVersion.compact.recordSize < 2 ^ 64) :
    Program.Matches image (inodeOfHead sb nid position head)
      (Inode.ofHead sb nid position head) := by
  have hfield : 0 + 2 ≤ head.size := by
    rw [hsize]
    decide
  refine Program.matches_value (field16_of_le hfield) ?_
  refine Program.matches_bind (Program.matches_except _) fun layout _ => ?_
  cases InodeVersion.ofFormat (u16At head 0) with
  | compact =>
    have hrecord : Program.Matches image _ _ := Program.matches_of_exact (decodeCompact_eq head)
    refine Program.matches_bind hrecord fun record _ => ?_
    refine Program.matches_value (xattrSize_eq record.xattrCount) ?_
    exact Program.matches_bind (Program.matches_except _) fun type _ => Program.matches_pure _
  | extended =>
    refine Program.matches_value (add_of_lt hle) ?_
    refine Program.matches_bind (Program.matches_query _) fun tail _ => ?_
    refine Program.matches_bind (Program.matches_of_exact (decodeExtended_eq _)) fun record _ => ?_
    refine Program.matches_value (xattrSize_eq record.xattrCount) ?_
    exact Program.matches_bind (Program.matches_except _) fun type _ => Program.matches_pure _

/-- **Reading an inode does not fault**, whatever its number. -/
theorem readInode_matches (hvalid : sb.validate = .ok ()) (himage : image.size < 2 ^ 63)
    (nid : Nat) : Program.Matches image (readInode sb nid) (Inode.read sb nid) := by
  refine Program.matches_bind (Program.matches_of_exact (inodePosition_eq hvalid nid))
    fun position _ => ?_
  refine Program.matches_bind (Program.matches_query _) fun head hhead => ?_
  obtain ⟨hle, hsize⟩ := le_of_onImage_bytes hhead
  refine Program.matches_bind (inodeOfHead_matches nid hsize (by omega)) fun inode _ => ?_
  exact Program.matches_report (Program.matches_pure inode)

/-! ## Flat data -/

theorem inlineDataPosition_eq (himage : image.size < 2 ^ 63) (hi : i.Placed image) :
    inlineDataPosition i = some i.inlineDataPosition := by
  have hle := hi.le
  have hxattr := hi.xattrSize_le
  rw [inlineDataPosition, add_of_lt (by omega), some_bind, add_of_lt (by omega)]
  rfl

/-- The units that cover some bytes are the whole ones, and one more. -/
theorem unitsCovering_eq_add (size bits : Nat) :
    Erofs.unitsCovering size bits =
      size / 2 ^ bits + if size % 2 ^ bits = 0 then 0 else 1 := by
  have hpos := Nat.two_pow_pos bits
  have hdiv := Nat.div_add_mod' size (2 ^ bits)
  have hmod := Nat.mod_lt size hpos
  rw [Erofs.unitsCovering]
  split
  · rw [Nat.add_zero]
    refine Nat.div_eq_of_lt_le (by omega) ?_
    rw [Nat.add_mul, Nat.one_mul]
    omega
  · refine Nat.div_eq_of_lt_le ?_ ?_
    · rw [Nat.add_mul, Nat.one_mul]
      omega
    · rw [Nat.add_mul, Nat.add_mul, Nat.one_mul]
      omega

theorem unitsCovering_eq {size bits : Nat} (hsize : size < 2 ^ 64) (hbits : bits < 64) :
    unitsCovering size bits = some (Erofs.unitsCovering size bits) := by
  have hdiv := Nat.div_add_mod' size (2 ^ bits)
  have hle : size / 2 ^ bits ≤ size / 2 ^ bits * 2 ^ bits :=
    Nat.le_mul_of_pos_right _ (Nat.two_pow_pos bits)
  rw [unitsCovering, shiftRight_of_lt hbits, some_bind, lowest_of_lt hbits, some_bind,
    unitsCovering_eq_add]
  refine add_of_lt ?_
  split <;> omega

section

variable (hvalid : sb.validate = .ok ())
include hvalid

theorem blockCount_eq (i : Inode) : blockCount sb i = exact (i.blockCount sb) := by
  have hbits := Superblock.bits_of_validate hvalid
  unfold blockCount Inode.blockCount
  rw [value_bind (unitsCovering_eq i.size.toNat_lt (by omega))]
  simp only
  split <;> rfl

theorem blockSize_le_of_validate : sb.blockSize ≤ 2 ^ 16 :=
  Nat.pow_le_pow_right (by decide) (Superblock.bits_of_validate hvalid).2

theorem inlineExtent_eq (himage : image.size < 2 ^ 63) (hi : i.Placed image) {length : Nat}
    (hlength : length ≤ sb.blockSize) :
    inlineExtent sb i length = exact (i.inlineExtent sb length) := by
  have hsize := blockSize_le_of_validate hvalid
  have hmod : sb.offsetInBlock i.inlineDataPosition < sb.blockSize :=
    Nat.mod_lt _ (Nat.two_pow_pos _)
  unfold inlineExtent Inode.inlineExtent
  rw [value_bind (inlineDataPosition_eq himage hi), value_bind (offsetInBlock_eq hvalid _),
    value_bind (add_of_lt (by omega)), value_bind (blockSize_eq hvalid)]
  simp only
  split <;> rfl

theorem plainExtent_eq (i : Inode) {block : Nat} (hblock : block < 2 ^ 32) (length : Nat) :
    plainExtent sb i block length = exact (i.plainExtent sb block length) := by
  unfold plainExtent Inode.plainExtent
  cases i.firstBlock? with
  | none => rfl
  | some first =>
    have hfirst := first.toNat_lt
    simp only
    rw [value_bind (add_of_lt (by omega)), value_bind (blockStart_eq hvalid (by omega))]
    rfl

/-- **Finding flat data does not fault**, whatever block is asked for. -/
theorem flatExtent_eq (himage : image.size < 2 ^ 63) (hi : i.Placed image) (block : Nat) :
    flatExtent sb i block = exact (i.flatExtent sb block) := by
  have hpow := blockSize_le_of_validate hvalid
  have hsize := i.size.toNat_lt
  unfold flatExtent Inode.flatExtent
  rw [value_bind (blockSize_eq hvalid)]
  refine bind_eq_exact (blockCount_eq hvalid i) fun count hcount => ?_
  obtain ⟨hunits, hfew⟩ := Inode.le_of_blockCount hcount
  simp only [maxAddressableUnits] at hfew
  simp only
  split
  · rfl
  · next hlt =>
    have hstart : block * sb.blockSize < i.size.toNat :=
      mul_lt_of_lt_unitsCovering (by omega)
    have hlength : i.blockLength sb block ≤ sb.blockSize := Nat.min_le_left ..
    rw [value_bind (mul_of_lt (by omega)), value_bind (sub_of_le (by omega))]
    change (do let length ← fit 32 (i.blockLength sb block); _ : Computation FlatExtent) = _
    rw [value_bind (fit_of_lt (by omega))]
    split
    · rfl
    · by_cases hinline : i.layout = .flatInline
      · rw [if_pos hinline, value_bind (sub_of_le (by omega))]
        by_cases hlast : block + 1 = count
        · rw [if_pos (by omega), if_pos ⟨hinline, hlast⟩, inlineExtent_eq hvalid himage hi hlength]
        · rw [if_neg (by omega), if_neg fun h => hlast h.2, plainExtent_eq hvalid i (by omega)]
      · rw [if_neg hinline, if_neg fun h => hinline h.1, plainExtent_eq hvalid i (by omega)]

end

end Erofs.Machine
