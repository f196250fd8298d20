import Erofs.FileType
import Erofs.Inode.Record
import Erofs.Session
import Erofs.Superblock
/-!
# Inodes

An inode is what its record says, in either form, with the meaning that
the type of the file gives to the fields. Reading one takes the compact
size first, which is enough to know the form, and refuses a layout or a
mode that stands for nothing.
-/

namespace Erofs

/-- What the payload field of a record means; the type of the file
decides. -/
inductive Payload where
  /-- The first block of data that is not compressed. -/
  | firstBlock (block : UInt32)
  /-- The number of blocks of compressed data. -/
  | compressedBlocks (count : UInt32)
  /-- The device that a device file stands for. -/
  | device (major minor : UInt32)
  /-- Nothing: the file has no data. -/
  | none
  deriving DecidableEq, Repr

/-- Splits a packed device number. The major number has bits 8 to 19, the
minor number the bits on both sides of it. -/
def splitDeviceNumber (number : UInt32) : UInt32 × UInt32 :=
  let wide : UInt32 := 0xfff00
  let narrow : UInt32 := 0xff
  ((number &&& wide) >>> 8, (number &&& narrow) ||| ((number >>> 12) &&& wide))

/-- The size of the extended attributes behind an inode: a head of twelve
bytes that counts as the first entry, then four bytes an entry. -/
def inlineXattrSize (count : Nat) : Nat :=
  if count = 0 then 0 else 12 + (count - 1) * 4

/-- An inode. -/
structure Inode where
  nid : Nat
  /-- Where its record lies. -/
  position : Nat
  version : InodeVersion
  layout : DataLayout
  xattrSize : Nat
  ino : UInt32
  mode : UInt16
  type : FileType
  uid : UInt32
  gid : UInt32
  linkCount : UInt32
  changeTime : UInt64
  changeTimeNanos : UInt32
  size : UInt64
  payload : Payload
  deriving DecidableEq, Repr

namespace Payload

/-- The meaning of the payload field for a file of a type and a
layout. -/
def ofField (type : FileType) (layout : DataLayout) (field : UInt32) : Payload :=
  match type with
  | .regularFile | .directory | .symlink =>
    if layout.isCompressed then .compressedBlocks field else .firstBlock field
  | .characterDevice | .blockDevice =>
    let (major, minor) := splitDeviceNumber field
    .device major minor
  | .fifo | .socket | .unknown => .none

end Payload

namespace Inode

/-- The inode of a compact record. Such a record has no times and takes
them from the image. -/
def ofCompact (sb : Superblock) (nid position : Nat) (layout : DataLayout) (type : FileType)
    (record : CompactInode) : Inode where
  nid
  position
  version := .compact
  layout
  xattrSize := inlineXattrSize record.xattrCount.toNat
  ino := record.ino
  mode := record.mode
  type
  uid := record.uid.toUInt32
  gid := record.gid.toUInt32
  linkCount := record.linkCount.toUInt32
  changeTime := sb.buildTime
  changeTimeNanos := sb.buildTimeNanos
  size := record.size.toUInt64
  payload := .ofField type layout record.payload

/-- The inode of an extended record. -/
def ofExtended (nid position : Nat) (layout : DataLayout) (type : FileType)
    (record : ExtendedInode) : Inode where
  nid
  position
  version := .extended
  layout
  xattrSize := inlineXattrSize record.xattrCount.toNat
  ino := record.ino
  mode := record.mode
  type
  uid := record.uid
  gid := record.gid
  linkCount := record.linkCount
  changeTime := record.changeTime
  changeTimeNanos := record.changeTimeNanos
  size := record.size
  payload := .ofField type layout record.payload

/-- The type that a mode gives to a file. -/
def typeOfMode (nid : Nat) (mode : UInt16) : Except Error FileType :=
  match FileType.ofMode? mode with
  | some type => .ok type
  | none => .error (.bogusMode nid mode)

/-- The line that a decoded inode leaves in the journal. -/
def decoded (i : Inode) : Remark :=
  let nid := i.nid
  let version := i.version.label
  let layout := i.layout.label
  let type := i.type.label
  let size := i.size
  let xattrSize := i.xattrSize
  ⟨.debug, s!"[INODE] nid={nid} version={version} layout={layout} type={type} size={size} xattr_isize={xattrSize}"⟩

/-- Decodes the record whose first bytes are `head` and reads the rest of
it if it is extended. -/
def ofHead (sb : Superblock) (nid position : Nat) (head : ByteArray) : Query Inode := do
  let format := u16At head 0
  let layout ← DataLayout.ofFormat format
  match InodeVersion.ofFormat format with
  | .compact =>
    let record ← CompactInode.decode head
    let type ← typeOfMode nid record.mode
    return ofCompact sb nid position layout type record
  | .extended =>
    let compactSize := InodeVersion.compact.recordSize
    let tail ← Query.bytes (position + compactSize) (InodeVersion.extended.recordSize - compactSize)
    let record ← ExtendedInode.decode (head ++ tail)
    let type ← typeOfMode nid record.mode
    return ofExtended nid position layout type record

/-- Reads an inode. -/
def read (sb : Superblock) (nid : Nat) : Query Inode := do
  let position ← sb.inodePosition nid
  let head ← Query.bytes position InodeVersion.compact.recordSize
  let inode ← ofHead sb nid position head
  Query.report inode.decoded
  return inode

variable (i : Inode)

/-- The bits of the mode that are not the type. -/
def permissions : UInt16 := i.mode &&& ~~~FileType.modeMask

/-- Whether the file is a directory. -/
def isDirectory : Bool := i.type == .directory

/-- Whether the file is a regular file. -/
def isRegular : Bool := i.type == .regularFile

/-- Whether the file is a symbolic link. -/
def isSymlink : Bool := i.type == .symlink

/-- Whether the data is compressed. -/
def isCompressed : Bool := i.layout.isCompressed

/-- The first block of data that is not compressed, for files that have
such data. -/
def firstBlock? : Option UInt32 :=
  match i.payload with
  | .firstBlock block => some block
  | _ => none

/-- The device that a device file stands for. -/
def device? : Option (UInt32 × UInt32) :=
  match i.payload with
  | .device major minor => some (major, minor)
  | _ => none

/-- Where the record and the extended attributes end, and data that
follows the inode starts. -/
def inlineDataPosition : Nat := i.position + i.version.recordSize + i.xattrSize

/-- The number of blocks that the data covers. -/
def blockCount (sb : Superblock) : Except Error Nat :=
  let count := unitsCovering i.size.toNat sb.bits
  if maxAddressableUnits < count then .error (.tooManyBlocks i.nid i.size.toNat) else .ok count

end Inode

end Erofs
