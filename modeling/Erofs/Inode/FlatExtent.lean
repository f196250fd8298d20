import Erofs.Inode
/-!
# Where flat data lies

Data that is not compressed lies in consecutive blocks, each block of the
file in one block of the image. The last block of a file with an inline
tail follows the inode instead and must end in the block that it starts
in.
-/

namespace Erofs

/-- Where the bytes of one block of a file lie. -/
structure FlatExtent where
  offset : Nat
  length : Nat
  /-- Whether they follow the inode. -/
  isInline : Bool
  deriving DecidableEq, Repr

namespace Inode

/-- The number of bytes in the file's block `block`. -/
def blockLength (sb : Superblock) (i : Inode) (block : Nat) : Nat :=
  min sb.blockSize (i.size.toNat - block * sb.blockSize)

/-- Where the bytes of an inline tail of `length` bytes lie. -/
def inlineExtent (sb : Superblock) (i : Inode) (length : Nat) : Except Error FlatExtent :=
  let offset := i.inlineDataPosition
  if sb.blockSize < sb.offsetInBlock offset + length then
    .error (.inlineTailCrossesBlock i.nid offset length)
  else .ok ⟨offset, length, true⟩

/-- Where `length` bytes in the file's block `block` lie among its
consecutive blocks. -/
def plainExtent (sb : Superblock) (i : Inode) (block length : Nat) : Except Error FlatExtent :=
  match i.firstBlock? with
  | none => .error .noDataBlocks
  | some first => .ok ⟨sb.blockStart (first.toNat + block), length, false⟩

/-- Where the bytes of the file's block `block` lie. -/
def flatExtent (sb : Superblock) (i : Inode) (block : Nat) : Except Error FlatExtent := do
  let count ← i.blockCount sb
  let length := i.blockLength sb block
  if count ≤ block then .error .blockPastEndOfFile
  else if i.isCompressed then .error .mappingOfCompressed
  else if i.layout = .flatInline ∧ block + 1 = count then i.inlineExtent sb length
  else i.plainExtent sb block length

end Inode

end Erofs
