import Erofs.Directory.Listing
import Erofs.Inode.FlatExtent
/-!
# Directories

A directory is read block by block. Listing it gives the entries of all
blocks in order, and fails if a block is faulty. Looking a name up stops
at the first entry of that name, so a fault behind it goes unnoticed.
-/

namespace Erofs

/-- An inode that can be read as a directory, and the number of its
blocks. -/
structure Directory where
  inode : Inode
  blockCount : Nat
  deriving DecidableEq

namespace Directory

/-- Takes an inode as a directory. -/
def ofInode (sb : Superblock) (i : Inode) : Except Error Directory :=
  if !i.isDirectory then .error .notADirectoryInode
  else if i.isCompressed then .error .compressedDirectory
  else (i.blockCount sb).map fun count => ⟨i, count⟩

variable (d : Directory) (sb : Superblock)

/-- The line that a loaded block leaves in the journal. -/
def blockLoaded (block : Nat) (extent : FlatExtent) (count : Nat) : Remark :=
  let nid := d.inode.nid
  let offset := extent.offset
  let length := extent.length
  ⟨.trace, s!"[DIR] nid={nid} lblk={block} offset={offset} len={length} entries={count}"⟩

/-- Reads a block. -/
def loadBlock (block : Nat) : Query Listing := do
  let extent ← d.inode.flatExtent sb block
  let bytes ← Query.bytes extent.offset extent.length
  let nid := d.inode.nid
  let count ← Listing.entryCount sb.blockSize nid block bytes
  Query.report (d.blockLoaded block extent count)
  return Listing.ofBlock nid count bytes

/-- The entries of the last `left` blocks, after those in `before`. -/
def lastEntries : (left : Nat) → (before : Array DirectoryEntry) → Query (Array DirectoryEntry)
  | 0, before => return before
  | left + 1, before => do
    let listing ← d.loadBlock sb (d.blockCount - (left + 1))
    match listing.fault? with
    | some cause => Query.fail cause
    | none => lastEntries left (before ++ listing.entries)

/-- The line that a listed directory leaves in the journal. -/
def listed (count : Nat) : Remark :=
  let nid := d.inode.nid
  ⟨.debug, s!"[DIR] nid={nid} read {count} entries"⟩

/-- The entries of the directory of an inode. -/
def list (i : Inode) : Query (List DirectoryEntry) := do
  let d ← ofInode sb i
  let entries ← d.lastEntries sb d.blockCount #[]
  Query.report (d.listed entries.size)
  return entries.toList

/-- The number that the first entry with a name has, in the last `left`
blocks. -/
def findInLast (name : ByteArray) : (left : Nat) → Query Nat
  | 0 => Query.fail .noSuchName
  | left + 1 => do
    let listing ← d.loadBlock sb (d.blockCount - (left + 1))
    match listing.entries.find? (fun e => e.name == name), listing.fault? with
    | some e, _ => return e.nid
    | none, some cause => Query.fail cause
    | none, none => findInLast name left

/-- The number that the directory of an inode gives to a name. -/
def find (i : Inode) (name : ByteArray) : Query Nat := do
  let d ← ofInode sb i
  d.findInLast sb name d.blockCount

end Directory

end Erofs
