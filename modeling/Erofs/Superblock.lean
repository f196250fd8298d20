import Erofs.Bytes
import Erofs.Error
import Erofs.Flags
/-!
# The superblock

The superblock says where everything else lies. This file holds its
record, the places that follow from it, and the rules by which it is
accepted.
-/

namespace Erofs

/-- The record of the superblock. -/
structure Superblock where
  magic : UInt32
  checksum : UInt32
  compat : UInt32
  blockBits : UInt8
  reserved : UInt8
  rootNid : UInt16
  inodeCount : UInt64
  buildTime : UInt64
  buildTimeNanos : UInt32
  blockCount : UInt32
  metaBlock : UInt32
  xattrBlock : UInt32
  uuid : ByteArray
  volumeName : ByteArray
  incompat : UInt32
  lz4MaxDistance : UInt16
  extraDevices : UInt16
  deviceTableSlot : UInt16
  deriving DecidableEq

namespace Superblock

/-- Where the superblock lies in an image. -/
def position : Nat := 1024

/-- The size of its record. -/
def recordSize : Nat := 128

/-- What the record of an image of this format starts with. -/
def expectedMagic : UInt32 := 0xE0F5E1E2

/-- The size of the unit in which inodes are numbered, in bits. -/
def slotBits : Nat := 5

/-- Reads the record at the front of a string of bytes. -/
def decode (b : ByteArray) : Except Error Superblock :=
  if b.size < recordSize then .error .shortSuperblock
  else .ok {
    magic := u32At b 0
    checksum := u32At b 4
    compat := u32At b 8
    blockBits := byteAt b 12
    reserved := byteAt b 13
    rootNid := u16At b 14
    inodeCount := u64At b 16
    buildTime := u64At b 24
    buildTimeNanos := u32At b 32
    blockCount := u32At b 36
    metaBlock := u32At b 40
    xattrBlock := u32At b 44
    uuid := slice b 48 16
    volumeName := slice b 64 16
    incompat := u32At b 80
    lz4MaxDistance := u16At b 84
    extraDevices := u16At b 86
    deviceTableSlot := u16At b 88 }

variable (sb : Superblock)

/-- Whether the record starts as it should. -/
def hasMagic : Bool := sb.magic == expectedMagic

/-- The size of a block in bits. -/
def bits : Nat := sb.blockBits.toNat

/-- The size of a block in bytes. -/
def blockSize : Nat := 2 ^ sb.bits

/-- The number of the root directory. -/
def root : Nat := sb.rootNid.toNat

/-- Whether the image has a compatible feature. -/
def hasCompat (f : Flag) : Bool := f.isIn sb.compat.toNat

/-- Whether the image has an incompatible feature. -/
def hasIncompat (f : Flag) : Bool := f.isIn sb.incompat.toNat

/-- Whether the superblock carries a checksum. -/
def hasChecksum : Bool := sb.hasCompat CompatFeature.superblockChecksum

/-- Whether LZ4 data has zeros before it. -/
def hasZeroPadding : Bool := sb.hasIncompat IncompatFeature.lz4ZeroPadding

/-- Whether pclusters may have more than one block. -/
def hasBigPcluster : Bool := sb.hasIncompat IncompatFeature.bigPcluster

/-- The name of the volume: the bytes before the first zero. There is
none if these are no text, or no bytes at all. -/
def name? : Option String :=
  let bytes := sb.volumeName.data.toList.takeWhile (· != 0)
  if bytes.isEmpty then none else String.fromUTF8? ⟨bytes.toArray⟩

/-- Where a block starts. -/
def blockStart (block : Nat) : Nat := block * sb.blockSize

/-- Where a block starts, as a position of 64 bits: those that it has above
them are lost. -/
def blockAddress (block : Nat) : Nat := sb.blockStart block % addressLimit

/-- The block that holds a byte. -/
def blockOf (address : Nat) : Nat := address / sb.blockSize

/-- The place of a byte in its block. -/
def offsetInBlock (address : Nat) : Nat := address % sb.blockSize

/-- Where an inode lies: inodes are numbered in slots from the start of
the metadata. -/
def inodePosition (nid : Nat) : Except Error Nat :=
  let position := nid * 2 ^ slotBits + sb.blockStart sb.metaBlock.toNat
  if addressLimit ≤ position then .error .nidOutOfRange else .ok position

/-- The smallest block size in bits. -/
def minBits : Nat := 9

/-- The largest block size in bits. -/
def maxBits : Nat := 16

/-- The rules that an image must keep to be read. -/
def validate : Except Error Unit :=
  if !sb.hasMagic then .error .badMagic
  else if sb.bits < minBits ∨ maxBits < sb.bits then .error (.unsupportedBlockBits sb.bits)
  else if sb.hasIncompat IncompatFeature.deviceTable ∧ 0 < sb.extraDevices.toNat then
    .error .multiDevice
  else .ok ()

/-- What is odd about a superblock, though it is accepted. -/
def oddities : List Remark :=
  let unknown := incompatFeatures.unknownBits sb.incompat.toNat
  let metaBlock := sb.metaBlock.toNat
  let blocks := sb.blockCount.toNat
  let features := Text.hex unknown
  (if unknown = 0 then []
    else [⟨.warn, s!"[SB] unidentified incompatible features {features}"⟩]) ++
  (if metaBlock = 0 ∨ metaBlock < blocks then []
    else [⟨.warn, s!"[SB] meta_blkaddr {metaBlock} outside of {blocks} blocks"⟩])

/-- The line that the magic of a foreign image leaves in the journal. -/
def foreignMagic : Remark :=
  let magic := Text.hexWord sb.magic
  ⟨.error, s!"[SB] bad magic {magic}"⟩

/-- The line that an accepted superblock leaves in the journal. -/
def accepted : Remark :=
  let blockSize := sb.blockSize
  let blocks := sb.blockCount
  let metaBlock := sb.metaBlock
  let root := sb.rootNid
  let inodes := sb.inodeCount
  let compat := compatFeatures.render sb.compat.toNat
  let incompat := incompatFeatures.render sb.incompat.toNat
  ⟨.debug, s!"[SB] block_size={blockSize} blocks={blocks} meta_blkaddr={metaBlock} root_nid={root} inos={inodes} compat={compat} incompat={incompat}"⟩

end Superblock

end Erofs
