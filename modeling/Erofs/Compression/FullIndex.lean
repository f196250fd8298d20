import Erofs.Compression.File
import Erofs.Compression.Lcluster
/-!
# Full indexes

A full index has one record of eight bytes for each lcluster. Its last
four bytes are the first block of the pcluster in a head, and the two
distances in any other lcluster.
-/

namespace Erofs

/-- A record of a full index. -/
structure FullIndexRecord where
  /-- The type of the lcluster, in the low two bits. -/
  advice : UInt16
  offset : UInt16
  /-- The first block, or two distances of 16 bits. -/
  payload : UInt32
  deriving DecidableEq, Repr

namespace FullIndexRecord

/-- The size of a record. -/
def recordSize : Nat := 8

/-- Reads the record at the front of a string of bytes. -/
def decode (b : ByteArray) : Except Error FullIndexRecord :=
  if b.size < recordSize then .error .shortLclusterIndex
  else .ok { advice := u16At b 0, offset := u16At b 2, payload := u32At b 4 }

variable (r : FullIndexRecord)

/-- The code of the type. -/
def typeCode : Nat := r.advice.toNat % 4

/-- The distance to the head before, or a marked number of blocks. -/
def back : Nat := r.payload.toNat % 2 ^ 16

/-- The distance to the next head. -/
def ahead : Nat := r.payload.toNat / 2 ^ 16

/-- What the record says of its lcluster. A record with a number of
blocks stands right after its head. -/
def lcluster : Except Error Lcluster := do
  match ← ClusterType.ofCode r.typeCode with
  | .plain => return .head .plain r.offset.toNat r.payload
  | .head => return .head .compressed r.offset.toNat r.payload
  | .nonHead =>
    match markedBlockCount? r.back with
    | some count => return .inner 1 r.ahead count
    | none => return .inner r.back r.ahead 0

end FullIndexRecord

namespace CompressedFile

/-- The bytes between the map header and the first record of a full
index. -/
def fullIndexPadding : Nat := 8

/-- Where the record of an lcluster lies in a full index. -/
def fullIndexPosition (f : CompressedFile) (lcn : Nat) : Nat :=
  f.headerEnd + fullIndexPadding + lcn * FullIndexRecord.recordSize

/-- Reads what a full index says of an lcluster. -/
def loadFull (f : CompressedFile) (lcn : Nat) : Query Lcluster := do
  let bytes ← Query.bytes (f.fullIndexPosition lcn) FullIndexRecord.recordSize
  let record ← FullIndexRecord.decode bytes
  record.lcluster

end CompressedFile

end Erofs
