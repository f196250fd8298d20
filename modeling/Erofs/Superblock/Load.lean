import Erofs.Crc32c
import Erofs.Session
import Erofs.Superblock
/-!
# Loading a superblock

Loading reads the record, applies the rules, and, if the superblock
carries a checksum and the caller wants it, verifies that. The checksum
covers the bytes from the superblock to the end of its block, or one
block from there if blocks are too small to hold it, with the field of
the checksum itself taken as zero.
-/

namespace Erofs.Superblock

/-- The number of bytes that the checksum covers. -/
def checksumLength (blockSize : Nat) : Nat :=
  if position < blockSize then blockSize - position else blockSize

/-- The part of the covered bytes that a record takes, from a copy in which
the field of the checksum is cleared. -/
def clearedHead (b : ByteArray) : ByteArray :=
  let copy := paddedSlice b 0 recordSize
  slice (slice copy 0 4 ++ zeros 4 ++ copy.extract 8 copy.size) 0 (min b.size recordSize)

/-- The covered bytes after a record. -/
def tail (b : ByteArray) : ByteArray := b.extract (min b.size recordSize) b.size

/-- The checksum of the covered bytes. -/
def computeChecksum (b : ByteArray) : UInt32 := Crc32c.checksumParts [clearedHead b, tail b]

/-- Reads the record of an image of this format. -/
def readRecord : Query Superblock := do
  let bytes ← Query.bytes position recordSize
  let sb ← decode bytes
  if sb.hasMagic then return sb
  else
    Query.report sb.foreignMagic
    Query.fail .badMagic

/-- Applies the rules and remarks on what is odd. -/
def check (sb : Superblock) : Query Unit := do
  sb.validate
  sb.oddities.forM Query.report

/-- Compares the checksum of the superblock with that of the bytes it
covers. -/
def verifyChecksum (sb : Superblock) : Query Unit := do
  let bytes ← Query.bytes position (checksumLength sb.blockSize)
  let computed := computeChecksum bytes
  if computed = sb.checksum then return ()
  else Query.fail (.checksumMismatch sb.checksum computed)

/-- Loads the superblock of an image. -/
def load (verify : Bool) : Query Superblock := do
  let sb ← readRecord
  sb.check
  if verify && sb.hasChecksum then sb.verifyChecksum
  Query.report sb.accepted
  return sb

end Erofs.Superblock
