import Erofs.Compression.File
import Erofs.Compression.Lcluster
/-!
# Packs

A compact index is a row of packs. A pack has a number of slots, one for
each lcluster, and ends in a block address from which the first blocks
of its heads are counted. A slot holds the type of its lcluster above
some low bits: the place where a pcluster starts in a head, and a
distance in any other lcluster. In the last slot that is the distance to
the next head, and in all others the distance back, so the other one is
found from the neighbouring slots.
-/

namespace Erofs

/-- A pack. -/
structure Pack where
  bytes : ByteArray
  slots : Nat
  /-- The width of the low part of a slot. -/
  lowBits : Nat

/-- What a slot of a pack holds. -/
structure PackEntry where
  low : Nat
  typeCode : Nat
  deriving DecidableEq, Repr

namespace PackEntry

/-- Whether the lcluster of the slot is no head. -/
def isInner (e : PackEntry) : Bool := e.typeCode == ClusterType.nonHead.code

end PackEntry

namespace Pack

/-- The size of the block address at the end of a pack. -/
def addressSize : Nat := 4

variable (p : Pack)

/-- The width of a slot. -/
def slotBits : Nat := (p.bytes.size - addressSize) * 8 / p.slots

/-- The block address at the end of the pack. -/
def base : UInt32 := u32At p.bytes (p.bytes.size - addressSize)

/-- Reads a slot from the four bytes that hold it. -/
def entry (slot : Nat) : Except Error PackEntry :=
  let position := p.slotBits * slot
  let first := position / 8
  if p.bytes.size < first + 4 then .error .entryOutsidePack
  else
    let bits := littleEndian p.bytes first 4 / 2 ^ (position % 8)
    .ok ⟨bits % 2 ^ p.lowBits, bits / 2 ^ p.lowBits % 4⟩

/-- The distance from a slot to the next head: the slots up to it, or, if
the pack has none, to the end of the pack and on as the last slot
says. -/
def distanceAhead (slot : Nat) : Except Error Nat := do
  let e ← p.entry slot
  if !e.isInner then return 0
  else if slot + 1 < p.slots then
    let rest ← distanceAhead (slot + 1)
    return 1 + rest
  else
    match markedBlockCount? e.low with
    | some _ => return 1
    | none => return 1 + (e.low - 1)
termination_by p.slots - slot

/-- The distance from the last slot back to its head, by what the slot
before it holds. -/
def distanceBackFromLast (slot : Nat) : Except Error Nat := do
  let before ← p.entry (slot - 1)
  if !before.isInner then return 1
  else
    match markedBlockCount? before.low with
    | some _ => return 2
    | none => return before.low + 1

/-- The number of pclusters that start in the slots before `slot`, with
the one that reaches into the pack. The scan goes backwards from head to
head. -/
def pclustersBefore : (slot : Nat) → Except Error Nat
  | 0 => .ok 0
  | slot + 1 => do
    let e ← p.entry slot
    if !e.isInner then
      let rest ← pclustersBefore slot
      return 1 + rest
    else if slot < e.low then return 0
    else
      let rest ← pclustersBefore (slot - e.low)
      return 1 + rest
termination_by slot => slot
decreasing_by all_goals omega

/-- The number of blocks of the pclusters that start in the slots before
`slot`, where pclusters may have more than one block. The scan goes
backwards: a marked number of blocks stands right after its head, and
any other slot inside a pcluster is skipped together with those between
it and that number. -/
def blocksBefore (nid : Nat) : (slot : Nat) → Except Error Nat
  | 0 => .ok 0
  | slot + 1 => do
    let e ← p.entry slot
    if !e.isInner then
      let rest ← blocksBefore nid slot
      return 1 + rest
    else
      match markedBlockCount? e.low with
      | some count =>
        let rest ← blocksBefore nid (slot - 1)
        return count + rest
      | none =>
        if e.low ≤ 1 then .error (.bogusPackDelta nid)
        else blocksBefore nid (slot - (e.low - 2))
termination_by slot => slot
decreasing_by all_goals omega

/-- The number of blocks from the address of the pack to the pcluster
that starts in a slot. Where pclusters have one block each, the address
is that of the block before the first one. -/
def blocksFromBase (f : CompressedFile) (slot : Nat) : Except Error Nat :=
  if f.hasBigPcluster then p.blocksBefore f.inode.nid slot
  else (p.pclustersBefore slot).map (1 + ·)

/-- What the pack says of the lcluster of a slot. -/
def lcluster (f : CompressedFile) (slot : Nat) : Except Error Lcluster := do
  let e ← p.entry slot
  match ← ClusterType.ofCode e.typeCode with
  | .nonHead =>
    let ahead ← p.distanceAhead slot
    match markedBlockCount? e.low with
    | some count => return .inner 1 ahead count
    | none =>
      if slot + 1 = p.slots then
        let back ← p.distanceBackFromLast slot
        return .inner back ahead 0
      return .inner e.low ahead 0
  | .plain =>
    let blocks ← p.blocksFromBase f slot
    return .head .plain e.low (p.base + blocks.toUInt32)
  | .head =>
    let blocks ← p.blocksFromBase f slot
    return .head .compressed e.low (p.base + blocks.toUInt32)

end Pack

end Erofs
