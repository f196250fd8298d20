import Erofs.Proofs.Machine.Program
import Erofs.Proofs.Reads
/-!
# The superblock in words

The places that follow from a superblock, computed in words. The sizes of
blocks that are accepted leave room: a block number of 33 bits can still be
turned into the position of its first byte. Sums and products that the
reader checks before it uses them are written with their check.
-/

namespace Erofs.Machine

/-- The size of a block in bytes. -/
def blockSize (sb : Superblock) : Option Nat := shiftLeft 32 1 sb.bits

/-- Where a block starts. -/
def blockStart (sb : Superblock) (block : Nat) : Option Nat := shiftLeft 64 block sb.bits

/-- The place of a byte in its block. -/
def offsetInBlock (sb : Superblock) (address : Nat) : Option Nat := lowest 32 address sb.bits

/-- Where an inode lies. -/
def inodePosition (sb : Superblock) (nid : Nat) : Computation Nat := do
  let start ← blockStart sb sb.metaBlock.toNat
  let position := nid * 2 ^ Superblock.slotBits + start
  if addressLimit ≤ position then throw .nidOutOfRange else return position

/-- Reads the record at the front of a string of bytes. -/
def decodeSuperblock (b : ByteArray) : Computation Superblock := do
  if b.size < Superblock.recordSize then throw .shortSuperblock
  else
    let magic ← field32 b 0
    let checksum ← field32 b 4
    let compat ← field32 b 8
    let blockBits ← field8 b 12
    let reserved ← field8 b 13
    let rootNid ← field16 b 14
    let inodeCount ← field64 b 16
    let buildTime ← field64 b 24
    let buildTimeNanos ← field32 b 32
    let blockCount ← field32 b 36
    let metaBlock ← field32 b 40
    let xattrBlock ← field32 b 44
    let uuid ← sliceAt b 48 16
    let volumeName ← sliceAt b 64 16
    let incompat ← field32 b 80
    let lz4MaxDistance ← field16 b 84
    let extraDevices ← field16 b 86
    let deviceTableSlot ← field16 b 88
    return {
      magic, checksum, compat, blockBits, reserved, rootNid, inodeCount, buildTime,
      buildTimeNanos, blockCount, metaBlock, xattrBlock, uuid, volumeName, incompat,
      lz4MaxDistance, extraDevices, deviceTableSlot }

/-- Reads the record of an image of this format. -/
def readRecord : Program Superblock := do
  let bytes ← Query.bytes Superblock.position Superblock.recordSize
  let sb ← decodeSuperblock bytes
  if sb.hasMagic then return sb
  else
    Query.report sb.foreignMagic
    Query.fail .badMagic

/-- The number of bytes that the checksum covers. -/
def checksumLength (sb : Superblock) : Option Nat := do
  let size ← blockSize sb
  if Superblock.position < size then sub size Superblock.position else return size

/-- Compares the checksum of the superblock with that of the bytes it
covers. -/
def verifyChecksum (sb : Superblock) : Program Unit := do
  let length ← checksumLength sb
  let bytes ← Query.bytes Superblock.position length
  let computed := Superblock.computeChecksum bytes
  if computed = sb.checksum then return ()
  else Query.fail (.checksumMismatch sb.checksum computed)

/-- Loads the superblock of an image. -/
def loadSuperblock (verify : Bool) : Program Superblock := do
  let sb ← readRecord
  sb.check
  if verify && sb.hasChecksum then verifyChecksum sb
  Query.report sb.accepted
  return sb

/-! ## Without a fault -/

variable {image : ByteArray} {sb : Superblock}

theorem decodeSuperblock_eq (b : ByteArray) :
    decodeSuperblock b = exact (Superblock.decode b) := by
  unfold decodeSuperblock Superblock.decode
  split
  · rfl
  · next h =>
    simp only [Superblock.recordSize, Nat.not_lt] at h
    simp (disch := omega) only [field8_of_le, field16_of_le, field32_of_le, field64_of_le,
      sliceAt_of_le, liftM_some, exact_ok_bind, pure_eq_exact]

theorem readRecord_matches : Program.Matches image readRecord Superblock.readRecord := by
  refine Program.matches_bind (Program.matches_query _) fun bytes _ => ?_
  refine Program.matches_bind (Program.matches_of_exact (decodeSuperblock_eq bytes)) fun sb _ => ?_
  refine Program.matches_ite (fun _ => Program.matches_pure sb) fun _ => ?_
  exact Program.matches_report (.fail _)

section

variable (hvalid : sb.validate = .ok ())
include hvalid

theorem blockSize_eq : blockSize sb = some sb.blockSize := by
  have hbits := Superblock.bits_of_validate hvalid
  exact shiftLeft_one (by omega)

/-- A block number may have one bit more than a word for block numbers. -/
theorem blockStart_lt {block : Nat} (h : block < 2 ^ 33) :
    sb.blockStart block < addressLimit := by
  have hbits := Superblock.bits_of_validate hvalid
  have hpow : 2 ^ sb.bits ≤ 2 ^ 16 := Nat.pow_le_pow_right (by decide) hbits.2
  calc block * 2 ^ sb.bits ≤ block * 2 ^ 16 := Nat.mul_le_mul_left _ hpow
    _ < 2 ^ 64 := by omega

/-- So no bits of its position are lost, -/
theorem blockAddress_eq {block : Nat} (h : block < 2 ^ 33) :
    sb.blockAddress block = sb.blockStart block :=
  Nat.mod_eq_of_lt (blockStart_lt hvalid h)

/-- and none are shifted out. -/
theorem blockStart_eq {block : Nat} (h : block < 2 ^ 33) :
    blockStart sb block = some (sb.blockStart block) := by
  have hbits := Superblock.bits_of_validate hvalid
  exact shiftLeft_of_lt (by omega) (blockStart_lt hvalid h)

theorem offsetInBlock_eq (address : Nat) :
    offsetInBlock sb address = some (sb.offsetInBlock address) := by
  have hbits := Superblock.bits_of_validate hvalid
  exact lowest_of_lt (by omega)

theorem inodePosition_eq (nid : Nat) :
    inodePosition sb nid = exact (sb.inodePosition nid) := by
  have hmeta := sb.metaBlock.toNat_lt
  unfold inodePosition Superblock.inodePosition
  rw [value_bind (blockStart_eq hvalid (by omega))]
  simp only
  split <;> rfl

theorem checksumLength_eq :
    checksumLength sb = some (Superblock.checksumLength sb.blockSize) := by
  unfold checksumLength Superblock.checksumLength
  rw [blockSize_eq hvalid, some_bind]
  split
  · exact sub_of_le (by omega)
  · rfl

theorem verifyChecksum_matches :
    Program.Matches image (verifyChecksum sb) sb.verifyChecksum := by
  refine Program.matches_value (checksumLength_eq hvalid) ?_
  refine Program.matches_bind (Program.matches_query _) fun bytes _ => ?_
  exact Program.matches_ite (fun _ => Program.matches_pure ()) fun _ => .fail _

end

/-- **Loading a superblock does not fault**: the checksum is only looked at
once the size of blocks is accepted. -/
theorem loadSuperblock_matches (verify : Bool) :
    Program.Matches image (loadSuperblock verify) (Superblock.load verify) := by
  refine Program.matches_bind readRecord_matches fun sb _ => ?_
  refine Program.matches_bind (Program.matches_query _) fun _ hcheck => ?_
  obtain ⟨_, hvalid, -⟩ := Query.onImage_bind_eq_ok.mp hcheck
  rw [Query.onImage_liftM] at hvalid
  have hend : Program.Matches image
      (do Query.report sb.accepted; return sb : Program Superblock)
      (do Query.report sb.accepted; return sb) :=
    Program.matches_report (Program.matches_pure sb)
  split
  · exact Program.matches_bind (verifyChecksum_matches hvalid) fun _ _ => hend
  · exact hend

end Erofs.Machine
