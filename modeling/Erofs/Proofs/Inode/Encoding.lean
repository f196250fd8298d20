import Erofs.Inode
import Erofs.Proofs.Directory.Encoding
/-!
# Written inodes

How an inode is written: as numbers one after another, whose widths depend
on the version. The first one gives the version and the layout, and the
number of extended attributes follows from their size. What a record holds
besides the inode is its `Inode.Spare`: bits and fields without meaning,
and the payload field of a file that has no data. Where the numbers of a
record are read one by one, the record stands as a whole
(`holdsAt_fieldBytes_iff`).
-/

namespace Erofs

variable {b : ByteArray} {offset width n : Nat} {fields : List (Nat × Nat)}

/-! ## Numbers one after another -/

/-- The bytes of some numbers, each after its width. -/
def fieldBytes (fields : List (Nat × Nat)) : List UInt8 :=
  fields.flatMap fun field => bytesOf field.1 field.2

/-- These numbers are read from a place on, one after another. -/
def ReadsFields (b : ByteArray) : (offset : Nat) → List (Nat × Nat) → Prop
  | _, [] => True
  | offset, (width, n) :: rest =>
    littleEndian b offset width = n % 256 ^ width ∧ ReadsFields b (offset + width) rest

theorem length_fieldBytes_cons (field : Nat × Nat) (rest : List (Nat × Nat)) :
    (fieldBytes (field :: rest)).length = field.1 + (fieldBytes rest).length := by
  rw [fieldBytes, List.flatMap_cons, List.length_append, length_bytesOf]
  rfl

/-- Where a number is read, its bytes stand. -/
theorem HoldsAt.of_littleEndian (hle : offset + width ≤ b.size)
    (h : littleEndian b offset width = n % 256 ^ width) : HoldsAt b offset (bytesOf width n) := by
  induction width generalizing offset n with
  | zero => exact List.nil_prefix
  | succ width ih =>
    rw [littleEndian, Nat.pow_succ', Nat.mod_mul] at h
    have hbyte := (byteAt b offset).toNat_lt
    have hfirst : byteAt b offset = n.toUInt8 := by
      refine UInt8.toNat.inj ?_
      rw [Nat.toUInt8_eq, UInt8.toNat_ofNat']
      omega
    obtain ⟨rest, hrest⟩ : HoldsAt b (offset + 1) (bytesOf width (n / 256)) :=
      ih (by omega) (by omega)
    have hlt : offset < b.data.toList.length := by
      rw [Array.length_toList]
      change offset < b.size
      omega
    refine ⟨rest, ?_⟩
    rw [List.drop_eq_getElem_cons hlt, ← hrest, bytesOf, ← hfirst, byteAt_of_lt (by omega)]
    rfl

/-- Bytes that stand one behind the other. -/
theorem HoldsAt.append {front back : List UInt8} (hfront : HoldsAt b offset front)
    (hback : HoldsAt b (offset + front.length) back) : HoldsAt b offset (front ++ back) := by
  obtain ⟨rest, hrest⟩ := hfront
  rw [HoldsAt, ← List.drop_drop, ← hrest, List.drop_left] at hback
  rw [HoldsAt, ← hrest]
  exact (List.prefix_append_right_inj front).mpr hback

/-- **The bytes of some numbers stand where these are read.** -/
theorem holdsAt_fieldBytes_iff (hle : offset + (fieldBytes fields).length ≤ b.size) :
    HoldsAt b offset (fieldBytes fields) ↔ ReadsFields b offset fields := by
  induction fields generalizing offset with
  | nil => exact iff_of_true List.nil_prefix trivial
  | cons field rest ih =>
    rw [length_fieldBytes_cons] at hle
    have hrest : HoldsAt b (offset + field.1) (fieldBytes rest) ↔
        ReadsFields b (offset + field.1) rest := ih (by omega)
    have hlength : offset + (bytesOf field.1 field.2).length = offset + field.1 := by
      rw [length_bytesOf]
    constructor
    · intro h
      exact ⟨h.left.littleEndian_eq, hrest.mp (hlength ▸ h.right)⟩
    · rintro ⟨hnumber, hnumbers⟩
      exact (HoldsAt.of_littleEndian (by omega) hnumber).append
        (hlength.symm ▸ hrest.mpr hnumbers)

/-! ## Records -/

/-- The number that stands for a form. -/
def InodeVersion.bit : InodeVersion → Nat
  | compact => 0
  | extended => 1

/-- The code of a layout. -/
def DataLayout.code : DataLayout → Nat
  | flatPlain => 0
  | compressedFull => 1
  | flatInline => 2
  | compressedCompact => 3

/-- The packed number of a device: the lowest byte of the minor number, then
the major number, then the rest of the minor one. -/
def packedDeviceNumber (major minor : UInt32) : Nat :=
  minor.toNat % 2 ^ 8 + 2 ^ 8 * major.toNat + 2 ^ 20 * (minor.toNat / 2 ^ 8)

/-- The payload field of a record; for a file without data it is left
open. -/
def Payload.field (spare : Nat) : Payload → Nat
  | firstBlock block => block.toNat
  | compressedBlocks count => count.toNat
  | device major minor => packedDeviceNumber major minor
  | none => spare

/-- The payload fits a file of a type and a layout. -/
def Payload.Suits (type : FileType) (layout : DataLayout) : Payload → Prop
  | firstBlock _ => type ∈ [.regularFile, .directory, .symlink] ∧ ¬ layout.isCompressed
  | compressedBlocks _ => type ∈ [.regularFile, .directory, .symlink] ∧ layout.isCompressed
  | device major minor =>
    type ∈ [.characterDevice, .blockDevice] ∧ major.toNat < 2 ^ 12 ∧ minor.toNat < 2 ^ 20
  | none => type ∈ [.fifo, .socket]

/-- The number of extended attributes, by their size. -/
def xattrCountOf (size : Nat) : Nat :=
  if size = 0 then 0 else (size - 12) / 4 + 1

namespace Inode

/-- What a record holds besides the inode. -/
structure Spare where
  /-- The bits of the first number above the layout. -/
  format : Nat
  /-- The reserved number in the middle. -/
  middle : Nat
  /-- The payload field of a file without data. -/
  payload : Nat
  /-- The reserved bytes at the end, as one number. -/
  last : Nat

variable (spare : Spare) (i : Inode)

/-- The first number of a record. -/
def formatField : Nat := i.version.bit + 2 * i.layout.code + 16 * spare.format

/-- The numbers of a record. -/
def recordFields : List (Nat × Nat) :=
  match i.version with
  | .compact =>
    [(2, i.formatField spare), (2, xattrCountOf i.xattrSize), (2, i.mode.toNat),
      (2, i.linkCount.toNat), (4, i.size.toNat), (4, spare.middle),
      (4, i.payload.field spare.payload), (4, i.ino.toNat), (2, i.uid.toNat), (2, i.gid.toNat),
      (4, spare.last)]
  | .extended =>
    [(2, i.formatField spare), (2, xattrCountOf i.xattrSize), (2, i.mode.toNat),
      (2, spare.middle), (8, i.size.toNat), (4, i.payload.field spare.payload),
      (4, i.ino.toNat), (4, i.uid.toNat), (4, i.gid.toNat), (8, i.changeTime.toNat),
      (4, i.changeTimeNanos.toNat), (4, i.linkCount.toNat), (16, spare.last)]

/-- The record of an inode. -/
def record : List UInt8 := fieldBytes (i.recordFields spare)

/-- An inode that a record says all of, in an image with some superblock. -/
structure Recordable (sb : Superblock) (i : Inode) : Prop where
  xattrSize_eq : ∃ count < 2 ^ 16, i.xattrSize = inlineXattrSize count
  type_eq : FileType.ofMode? i.mode = some i.type
  payload_suits : i.payload.Suits i.type i.layout
  /-- The compact form has narrow fields and no times. -/
  of_compact : i.version = .compact → i.linkCount.toNat < 2 ^ 16 ∧ i.size.toNat < 2 ^ 32 ∧
    i.uid.toNat < 2 ^ 16 ∧ i.gid.toNat < 2 ^ 16 ∧
    i.changeTime = sb.buildTime ∧ i.changeTimeNanos = sb.buildTimeNanos

theorem length_record : (i.record spare).length = i.version.recordSize := by
  unfold record recordFields
  cases i.version <;> simp [fieldBytes, InodeVersion.recordSize]

end Inode

theorem xattrCountOf_inlineXattrSize (count : Nat) :
    xattrCountOf (inlineXattrSize count) = count := by
  unfold xattrCountOf inlineXattrSize
  split <;> split <;> omega

end Erofs
