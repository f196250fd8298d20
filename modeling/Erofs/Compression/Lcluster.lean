import Erofs.Bytes
import Erofs.Error
/-!
# Lclusters

A compressed file is cut into lclusters of one size and into pclusters,
runs of blocks that are compressed, or stored as they are, each on its
own. An lcluster in which a pcluster starts is a head. It says where in
it the pcluster starts, and at which block. Any other lcluster lies
inside a pcluster and says how far it is to the heads on both sides; the
first one after a head may give the size of the pcluster instead.
-/

namespace Erofs

/-- The types of an lcluster, as the index writes them. -/
inductive ClusterType where
  | plain | head | nonHead
  deriving DecidableEq, Repr

namespace ClusterType

/-- The name of a type. -/
def label : ClusterType → String
  | plain => "Plain"
  | head => "Head"
  | nonHead => "NonHead"

/-- The code of a type. -/
def code : ClusterType → Nat
  | plain => 0
  | head => 1
  | nonHead => 2

/-- Reads the code of a type; the last of four codes is reserved. -/
def ofCode : Nat → Except Error ClusterType
  | 0 => .ok plain
  | 1 => .ok head
  | 2 => .ok nonHead
  | _ => .error .reservedLclusterType

/-- Whether a pcluster starts in an lcluster of the type. -/
def isHead : ClusterType → Bool
  | plain | head => true
  | nonHead => false

end ClusterType

/-- How a pcluster holds its bytes. -/
inductive Storage where
  /-- As they are. -/
  | plain
  /-- Compressed. -/
  | compressed
  deriving DecidableEq, Repr

/-- The type of an lcluster in which such a pcluster starts. -/
def Storage.type : Storage → ClusterType
  | plain => .plain
  | compressed => .head

/-- What the index says of an lcluster. -/
inductive Lcluster where
  /-- A pcluster starts in it, at `offset`, and its first block is
  `block`. -/
  | head (storage : Storage) (offset : Nat) (block : UInt32)
  /-- It lies inside a pcluster, `back` lclusters after its head and
  `ahead` before the next one. A `blockCount` that is not zero gives the
  size of the pcluster. -/
  | inner (back ahead blockCount : Nat)
  deriving DecidableEq, Repr

namespace Lcluster

/-- The type of an lcluster. -/
def type : Lcluster → ClusterType
  | head storage .. => storage.type
  | inner .. => .nonHead

/-- Where in an lcluster of `size` bytes a pcluster starts; at its end if
none does. -/
def offset (size : Nat) : Lcluster → Nat
  | head _ offset _ => offset
  | inner .. => size

/-- The distances to the heads on both sides, for an lcluster that is no
head. -/
def distances : Lcluster → Nat × Nat
  | head .. => (0, 0)
  | inner back ahead _ => (back, ahead)

/-- The first block of the pcluster that starts here. -/
def block : Lcluster → UInt32
  | head _ _ block => block
  | inner .. => 0

/-- The size of the pcluster in blocks, where it is given. -/
def blockCount : Lcluster → Nat
  | head .. => 0
  | inner _ _ blockCount => blockCount

/-- The line that reading an lcluster of `size` bytes leaves in the
journal. -/
def loaded (lcn size : Nat) (l : Lcluster) : Remark :=
  let type := l.type.label
  let offset := l.offset size
  let (back, ahead) := l.distances
  let block := l.block
  let blocks := l.blockCount
  ⟨.trace, s!"[ZMAP] lcn={lcn} type={type} clusterofs={offset} delta=[{back}, {ahead}] blkaddr={block} cblks={blocks}"⟩

end Lcluster

/-- The mark of a distance back that gives the number of blocks
instead. -/
def blockCountMark : Nat := 2 ^ 11

/-- The number of blocks that a distance back gives instead, if it is
marked so. -/
def markedBlockCount? (distance : Nat) : Option Nat :=
  if distance / blockCountMark % 2 = 1 then some (distance - blockCountMark) else none

end Erofs
