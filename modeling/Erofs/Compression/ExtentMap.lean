import Erofs.Compression.CompactIndex
import Erofs.Compression.FullIndex
/-!
# Extent maps

The extent map of a compressed file lists its pclusters in the order of
the file, with the number of their blocks. The walk that collects it goes
from head to head: after a head it looks at the next lcluster, and from any
other lcluster it goes on to where the index says the next head is. The
blocks are added up on the way.
-/

-- The zero of a sum is the numeral.
attribute [local instance (high)] Zero.ofOfNat0

namespace Erofs

/-- A pcluster: the lcluster it starts in, how it holds its bytes, where
in the lcluster it starts, its first block, and its size in blocks. -/
structure Pcluster where
  lcn : Nat
  storage : Storage
  offset : Nat
  block : UInt32
  blocks : Nat
  deriving DecidableEq, Repr

/-- The pclusters of a file. -/
structure ExtentMap where
  /-- The number of lclusters that cover the file. -/
  lclusterCount : Nat
  /-- The pclusters, in the order of the file. -/
  pclusters : List Pcluster
  /-- The number of blocks of all pclusters. -/
  blockCount : Nat
  blockCount_eq : blockCount = (pclusters.map Pcluster.blocks).sum
  deriving DecidableEq, Repr

namespace ExtentMap

/-- The map of some pclusters. -/
def of (lclusterCount : Nat) (pclusters : List Pcluster) : ExtentMap :=
  ⟨lclusterCount, pclusters, _, rfl⟩

/-- The map of a file without bytes. -/
def empty : ExtentMap := ⟨0, [], 0, rfl⟩

variable (m : ExtentMap)

/-- The last pcluster. -/
def last? : Option Pcluster := m.pclusters.getLast?

/-- The first block of all pclusters, and the one after the last. -/
def blockRange? : Option (Nat × Nat) :=
  match (m.pclusters.map fun p => p.block.toNat).min?,
      (m.pclusters.map fun p => p.block.toNat + p.blocks).max? with
  | some first, some last => some (first, last)
  | _, _ => none

/-- The line that a finished walk leaves in the journal. -/
def walked (nid : Nat) : Remark :=
  let lclusters := m.lclusterCount
  let pclusters := m.pclusters.length
  let blocks := m.blockCount
  ⟨.debug, s!"[ZMAP] nid={nid} lclusters={lclusters} pclusters={pclusters} blocks={blocks}"⟩

/-- The line that is left if the inode records another number of
blocks. -/
def otherCount (nid recorded : Nat) : Remark :=
  let blocks := m.blockCount
  ⟨.warn, s!"[ZMAP] nid={nid} walked {blocks} blocks, inode records {recorded}"⟩

end ExtentMap

/-- What a walk has collected so far: the pclusters, of which the last
comes first, and the number of their blocks. -/
structure Collected where
  pclusters : List Pcluster
  blockCount : Nat
  blockCount_eq : blockCount = (pclusters.map Pcluster.blocks).sum

namespace Collected

/-- Nothing is collected. -/
def empty : Collected := ⟨[], 0, rfl⟩

variable (c : Collected)

/-- One more pcluster is collected. -/
def push (p : Pcluster) : Collected where
  pclusters := p :: c.pclusters
  blockCount := c.blockCount + p.blocks
  blockCount_eq := by rw [List.map_cons, List.sum_cons, c.blockCount_eq, Nat.add_comm]

/-- The map of what is collected. -/
def toMap (lclusterCount : Nat) : ExtentMap where
  lclusterCount := lclusterCount
  pclusters := c.pclusters.reverse
  blockCount := c.blockCount
  blockCount_eq := by rw [List.map_reverse, List.sum_reverse, c.blockCount_eq]

end Collected

namespace CompressedFile

variable (f : CompressedFile)

/-- Reads what the index says of an lcluster. -/
def loadLcluster (lcn : Nat) : Query Lcluster :=
  if f.lclusterCount ≤ lcn then Query.fail .lclusterPastEndOfFile
  else do
    let l ← match f.format with
      | .full => f.loadFull lcn
      | .compact => f.loadCompact lcn
    Query.report (l.loaded lcn f.lclusterSize)
    return l

/-- Whether pclusters of a storage may have more than one block. -/
def hasBig : Storage → Bool
  | .compressed => f.advises MapAdvice.bigCompressed
  | .plain => f.advises MapAdvice.bigPlain

/-- The number of blocks of a pcluster that starts in the lcluster `lcn`.
It fills one lcluster, unless pclusters may be larger; then the next
lcluster gives the number if it is no head, and else it is one. -/
def pclusterBlocks (sb : Superblock) (lcn : Nat) (storage : Storage) : Query Nat :=
  if !f.hasBig storage then return 2 ^ (f.lclusterBits - sb.bits)
  else if f.lclusterCount ≤ lcn + 1 then return 1
  else do
    match ← f.loadLcluster (lcn + 1) with
    | .head .. => return 1
    | .inner back _ count =>
      if back = 1 ∧ count ≠ 0 then return count
      else Query.fail (.missingBlockCount f.inode.nid lcn)

/-- Collects the pclusters from the lcluster `lcn` on, after those in
`before`. -/
def walkFrom (sb : Superblock) (lcn : Nat) (before : Collected) : Query ExtentMap :=
  if _h : lcn < f.lclusterCount then do
    match ← f.loadLcluster lcn with
    | .head storage offset block =>
      let blocks ← f.pclusterBlocks sb lcn storage
      walkFrom sb (lcn + 1) (before.push ⟨lcn, storage, offset, block, blocks⟩)
    | .inner _ ahead _ =>
      if before.pclusters.isEmpty then Query.fail .noLeadingHead
      else walkFrom sb (lcn + max ahead 1) before
  else return before.toMap f.lclusterCount
termination_by f.lclusterCount - lcn

/-- Remarks on a map whose number of blocks is not the one that the inode
records. -/
def compareCount (map : ExtentMap) : Query Unit :=
  match f.inode.payload with
  | .compressedBlocks recorded =>
    if recorded.toNat = map.blockCount then return ()
    else Query.report (map.otherCount f.inode.nid recorded.toNat)
  | _ => return ()

/-- Collects the pclusters of the file, and compares the number of their
blocks with the one that the inode records. -/
def extents (sb : Superblock) : Query ExtentMap := do
  let map ← f.walkFrom sb 0 .empty
  f.compareCount map
  Query.report (map.walked f.inode.nid)
  return map

end CompressedFile

end Erofs
