import Erofs.Compression.Pack
/-!
# Compact indexes

A compact index starts with packs of two slots, four bytes a slot, up to
the next multiple of 32 bytes. If the map header advises packs of two
bytes a slot, as many of these follow as there are whole ones, each with
sixteen slots. The rest is again in packs of two slots. So the place of
an lcluster follows from its number.
-/

namespace Erofs

/-- The kinds of packs. -/
inductive PackKind where
  /-- Two slots of four bytes. -/
  | fourByte
  /-- Sixteen slots of two bytes. -/
  | twoByte
  deriving DecidableEq, Repr

namespace PackKind

/-- The number of slots. -/
def slots : PackKind → Nat
  | fourByte => 2
  | twoByte => 16

/-- The bytes that a slot takes, with its share of the block address. -/
def slotSize : PackKind → Nat
  | fourByte => 4
  | twoByte => 2

/-- The size of a pack. -/
def size (k : PackKind) : Nat := k.slots * k.slotSize

/-- The largest lcluster that the slots can describe, in bits. -/
def maxLclusterBits : PackKind → Nat
  | fourByte => CompressedFile.maxCompactBits
  | twoByte => CompressedFile.maxTwoByteBits

end PackKind

/-- The place of an lcluster in a compact index: the kind of its pack,
where its slot starts if slots took equal shares of the pack. -/
structure PackPlace where
  kind : PackKind
  position : Nat
  deriving DecidableEq, Repr

namespace PackPlace

/-- Where the pack starts. Packs are aligned to their size. -/
def base (place : PackPlace) : Nat := place.position / place.kind.size * place.kind.size

/-- The slot of the lcluster. -/
def slot (place : PackPlace) : Nat := (place.position - place.base) / place.kind.slotSize

end PackPlace

namespace CompressedFile

variable (f : CompressedFile)

/-- The number of lclusters before the first multiple of 32 bytes. -/
def leadingCount : Nat := (32 - f.headerEnd % 32) / 4 % 8

/-- The number of lclusters in packs of two bytes a slot. -/
def twoByteCount : Nat :=
  if f.advises MapAdvice.twoBytePacks ∧ f.leadingCount < f.lclusterCount then
    (f.lclusterCount - f.leadingCount) / 16 * 16
  else 0

/-- The place of an lcluster in a compact index. -/
def packPlace (lcn : Nat) : PackPlace :=
  let leading := f.leadingCount
  let middle := f.twoByteCount
  if lcn < leading then ⟨.fourByte, f.headerEnd + lcn * 4⟩
  else if lcn - leading < middle then
    ⟨.twoByte, f.headerEnd + leading * 4 + (lcn - leading) * 2⟩
  else ⟨.fourByte, f.headerEnd + leading * 4 + middle * 2 + (lcn - leading - middle) * 4⟩

/-- The smallest width of the low part of a slot: it must hold a
distance. -/
def minLowBits : Nat := 12

/-- The pack of a kind that some bytes hold. -/
def packOf (kind : PackKind) (bytes : ByteArray) : Pack :=
  ⟨bytes, kind.slots, max f.lclusterBits minLowBits⟩

/-- Reads what a compact index says of an lcluster. -/
def loadCompact (lcn : Nat) : Query Lcluster :=
  let place := f.packPlace lcn
  if place.kind.maxLclusterBits < f.lclusterBits then Query.fail .unsupportedPackGeometry
  else do
    let bytes ← Query.bytes place.base place.kind.size
    (f.packOf place.kind bytes).lcluster f place.slot

end CompressedFile

end Erofs
