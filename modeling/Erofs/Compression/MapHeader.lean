import Erofs.Bytes
import Erofs.Error
import Erofs.Flags
/-!
# Map headers

Behind the inode of a compressed file lies a map header: by which
algorithms the file is compressed, how large an lcluster is, and what
to expect of the index that follows.
-/

namespace Erofs

/-- The algorithms that are recognised. -/
inductive Algorithm where
  | lz4 | lzma
  deriving DecidableEq, Repr

namespace Algorithm

/-- The name of an algorithm. -/
def label : Algorithm → String
  | lz4 => "Lz4"
  | lzma => "Lzma"

/-- Reads the code of an algorithm. -/
def ofCode : Nat → Except Error Algorithm
  | 0 => .ok lz4
  | 1 => .ok lzma
  | _ => .error .unknownAlgorithm

/-- What the decoder of an algorithm is called; there is only one. -/
def codec : Algorithm → Except Error String
  | lz4 => .ok "lz4"
  | lzma => .error .lzmaRecovery

end Algorithm

/-- The ways in which the index of a compressed file is written. -/
inductive IndexFormat where
  /-- One record an lcluster. -/
  | full
  /-- Packs of several lclusters. -/
  | compact
  deriving DecidableEq, Repr

/-- The name of a format. -/
def IndexFormat.label : IndexFormat → String
  | full => "Full"
  | compact => "Compact"

/-- The record of a map header. -/
structure MapHeader where
  reserved : UInt32
  advice : UInt16
  /-- The algorithm of compressed pclusters in the low half, a second one
  in the high half. -/
  algorithms : UInt8
  /-- By how many bits an lcluster is larger than a block, in the low
  three bits. -/
  clusterBits : UInt8
  deriving DecidableEq, Repr

namespace MapHeader

/-- The size of the record, and the grain at which it is aligned. -/
def recordSize : Nat := 8

/-- Reads the record at the front of a string of bytes. -/
def decode (b : ByteArray) : Except Error MapHeader :=
  if b.size < recordSize then .error .shortMapHeader
  else .ok {
    reserved := u32At b 0
    advice := u16At b 4
    algorithms := byteAt b 6
    clusterBits := byteAt b 7 }

/-- Where the header lies if the inode and its attributes end at
`position`. -/
def positionAfter (position : Nat) : Nat := (position + (recordSize - 1)) / recordSize * recordSize

end MapHeader

end Erofs
