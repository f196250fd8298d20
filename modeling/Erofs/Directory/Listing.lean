import Erofs.Bytes
import Erofs.Error
import Erofs.FileType
import Erofs.Text
/-!
# Directory blocks

A block of a directory starts with records of twelve bytes, and the
names follow. The first record's name starts where the records end, so
it tells how many there are. A name ends where the next one starts; the
last name ends at the first zero byte or with the block. This file reads
a block into a listing: the entries up to the first one that breaks the
rules, and that fault.
-/

namespace Erofs

/-- The record of a directory entry. -/
structure DirectoryRecord where
  nid : UInt64
  /-- Where in the block the name starts. -/
  nameOffset : UInt16
  typeCode : UInt8
  reserved : UInt8
  deriving DecidableEq, Repr

namespace DirectoryRecord

/-- The size of a record. -/
def recordSize : Nat := 12

/-- Reads the record at a place of a string of bytes. -/
def decodeAt (b : ByteArray) (offset : Nat) : Except Error DirectoryRecord :=
  if b.size < offset + recordSize then .error .entryPastBlock
  else .ok {
    nid := u64At b offset
    nameOffset := u16At b (offset + 8)
    typeCode := byteAt b (offset + 10)
    reserved := byteAt b (offset + 11) }

/-- Reads the record of the entry with an index. -/
def ofIndex (b : ByteArray) (index : Nat) : Except Error DirectoryRecord :=
  decodeAt b (index * recordSize)

end DirectoryRecord

/-- An entry of a directory. -/
structure DirectoryEntry where
  nid : Nat
  name : ByteArray
  typeCode : UInt8
  deriving DecidableEq

namespace DirectoryEntry

/-- The longest name. -/
def maxNameLength : Nat := 255

variable (e : DirectoryEntry)

/-- The name as text. -/
def nameText : String := Text.lossy e.name

/-- The type that the entry gives to its file. -/
def type : FileType := .ofEntryCode e.typeCode

/-- Whether the entry stands for the directory itself or the one above
it. -/
def isDot : Bool := e.name == ".".toUTF8 || e.name == "..".toUTF8

end DirectoryEntry

/-- The entries of a block, or of what is left of it, and the fault that
follows them, if any. -/
structure Listing where
  entries : List DirectoryEntry
  fault? : Option Error
  deriving DecidableEq

namespace Listing

/-- Nothing left. -/
def empty : Listing := ⟨[], none⟩

/-- An entry before others. -/
def cons (e : DirectoryEntry) (rest : Listing) : Listing :=
  { rest with entries := e :: rest.entries }

/-- The number of entries of a block, by where its first name starts. `nid`
and `block` tell which block it is. -/
def entryCount (blockSize nid block : Nat) (b : ByteArray) : Except Error Nat := do
  let first ← DirectoryRecord.ofIndex b 0
  let start := first.nameOffset.toNat
  if start < DirectoryRecord.recordSize ∨ blockSize ≤ start ∨ b.size < start then
    .error (.badFirstNameOffset nid block start)
  else .ok (start / DirectoryRecord.recordSize)

/-- The length of the name that starts at `start`, of the entry `index`
among `count`. -/
def nameLength (count : Nat) (b : ByteArray) (index start : Nat) : Except Error Nat := do
  if index + 1 < count then
    let next ← DirectoryRecord.ofIndex b (index + 1)
    let stop := next.nameOffset.toNat
    if stop < start then .error .namesOverlap else .ok (stop - start)
  else
    .ok ((b.extract start b.size).data.toList.takeWhile (· != 0)).length

/-- Reads an entry of a block with `count` entries. -/
def entryAt (nid count : Nat) (b : ByteArray) (index : Nat) : Except Error DirectoryEntry := do
  let record ← DirectoryRecord.ofIndex b index
  let start := record.nameOffset.toNat
  if start < count * DirectoryRecord.recordSize ∨ b.size < start then
    .error .nameOffsetOutOfRange
  else
    let length ← nameLength count b index start
    if length = 0 ∨ DirectoryEntry.maxNameLength < length ∨ b.size < start + length then
      .error (.badNameSpan nid index start length)
    else .ok ⟨record.nid.toNat, slice b start length, record.typeCode⟩

/-- Reads the last `left` entries of a block with `count` entries. -/
def lastEntries (nid count : Nat) (b : ByteArray) : (left : Nat) → Listing
  | 0 => empty
  | left + 1 =>
    match entryAt nid count b (count - (left + 1)) with
    | .error cause => ⟨[], some cause⟩
    | .ok e => cons e (lastEntries nid count b left)

/-- Reads a block with `count` entries. -/
def ofBlock (nid count : Nat) (b : ByteArray) : Listing := lastEntries nid count b count

end Listing

end Erofs
