import Erofs.Bytes
import Erofs.Error
/-!
# Records of inodes

An inode is written in one of two forms. The compact form has narrow
fields and no times; the extended form is twice as long. Both start with
the same word, which tells them apart and says how the data of the file
is laid out.
-/

namespace Erofs

/-- The forms of an inode. -/
inductive InodeVersion where
  | compact | extended
  deriving DecidableEq, Repr

namespace InodeVersion

/-- The name of a form. -/
def label : InodeVersion → String
  | compact => "Compact"
  | extended => "Extended"

/-- The size of the record. -/
def recordSize : InodeVersion → Nat
  | compact => 32
  | extended => 64

/-- The form that the first word of a record announces. -/
def ofFormat (format : UInt16) : InodeVersion :=
  if format.toNat % 2 = 1 then extended else compact

end InodeVersion

/-- How the data of a file is laid out. -/
inductive DataLayout where
  /-- In consecutive blocks. -/
  | flatPlain
  /-- Compressed, with an index of one record an lcluster. -/
  | compressedFull
  /-- In consecutive blocks, but for the last, which follows the
  inode. -/
  | flatInline
  /-- Compressed, with an index in packs. -/
  | compressedCompact
  deriving DecidableEq, Repr

namespace DataLayout

/-- The name of a layout. -/
def label : DataLayout → String
  | flatPlain => "FlatPlain"
  | compressedFull => "CompressedFull"
  | flatInline => "FlatInline"
  | compressedCompact => "CompressedCompact"

/-- Whether the data is compressed. -/
def isCompressed : DataLayout → Bool
  | compressedFull | compressedCompact => true
  | flatPlain | flatInline => false

/-- Reads the code of a layout. Files in chunks are recognised but not
read. -/
def ofCode : Nat → Except Error DataLayout
  | 0 => .ok flatPlain
  | 1 => .ok compressedFull
  | 2 => .ok flatInline
  | 3 => .ok compressedCompact
  | 4 => .error .chunkedLayout
  | _ => .error .unknownLayout

/-- The layout that the first word of a record announces, in its three
bits after the lowest. -/
def ofFormat (format : UInt16) : Except Error DataLayout := ofCode (format.toNat / 2 % 8)

end DataLayout

/-- The compact record of an inode. -/
structure CompactInode where
  format : UInt16
  xattrCount : UInt16
  mode : UInt16
  linkCount : UInt16
  size : UInt32
  reserved : UInt32
  payload : UInt32
  ino : UInt32
  uid : UInt16
  gid : UInt16
  reserved2 : UInt32
  deriving DecidableEq, Repr

/-- Reads the compact record at the front of a string of bytes. -/
def CompactInode.decode (b : ByteArray) : Except Error CompactInode :=
  if b.size < InodeVersion.compact.recordSize then .error .shortCompactInode
  else .ok {
    format := u16At b 0
    xattrCount := u16At b 2
    mode := u16At b 4
    linkCount := u16At b 6
    size := u32At b 8
    reserved := u32At b 12
    payload := u32At b 16
    ino := u32At b 20
    uid := u16At b 24
    gid := u16At b 26
    reserved2 := u32At b 28 }

/-- The extended record of an inode, up to the last field in use. -/
structure ExtendedInode where
  format : UInt16
  xattrCount : UInt16
  mode : UInt16
  reserved : UInt16
  size : UInt64
  payload : UInt32
  ino : UInt32
  uid : UInt32
  gid : UInt32
  changeTime : UInt64
  changeTimeNanos : UInt32
  linkCount : UInt32
  deriving DecidableEq, Repr

/-- Reads the extended record at the front of a string of bytes. -/
def ExtendedInode.decode (b : ByteArray) : Except Error ExtendedInode :=
  if b.size < InodeVersion.extended.recordSize then .error .shortExtendedInode
  else .ok {
    format := u16At b 0
    xattrCount := u16At b 2
    mode := u16At b 4
    reserved := u16At b 6
    size := u64At b 8
    payload := u32At b 16
    ino := u32At b 20
    uid := u32At b 24
    gid := u32At b 28
    changeTime := u64At b 32
    changeTimeNanos := u32At b 40
    linkCount := u32At b 44 }

end Erofs
