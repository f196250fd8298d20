import Erofs.Compression.MapHeader
import Erofs.Inode
/-!
# Compressed files

A compressed file is an inode together with what its map header says.
Resolving one reads the header and refuses what contradicts the
superblock and what is not read.
-/

namespace Erofs

/-- A file whose data is compressed. -/
structure CompressedFile where
  inode : Inode
  format : IndexFormat
  advice : UInt16
  /-- The algorithm of compressed pclusters. -/
  algorithm : Algorithm
  /-- The second algorithm that the header names. -/
  otherAlgorithm : Algorithm
  /-- The size of an lcluster in bits. -/
  lclusterBits : Nat
  /-- Where the map header ends. -/
  headerEnd : Nat
  deriving DecidableEq

namespace CompressedFile

variable (f : CompressedFile)

/-- Whether the map header gives an advice. -/
def advises (flag : Flag) : Bool := flag.isIn f.advice.toNat

/-- Whether compressed pclusters may have more than one block. -/
def hasBigPcluster : Bool := f.advises MapAdvice.bigCompressed

/-- The size of an lcluster in bytes. -/
def lclusterSize : Nat := 2 ^ f.lclusterBits

/-- The number of bytes in the file. -/
def size : Nat := f.inode.size.toNat

/-- The number of lclusters that cover the file. -/
def lclusterCount : Nat := unitsCovering f.size f.lclusterBits

/-- The largest lcluster of a compact index, in bits. -/
def maxCompactBits : Nat := 14

/-- The largest lcluster of a compact index with packs of two bytes an
lcluster, in bits. -/
def maxTwoByteBits : Nat := 12

/-- The rules that a compressed file must keep to be read. -/
def validate (sb : Superblock) : Except Error Unit :=
  let big := f.advises MapAdvice.bigCompressed || f.advises MapAdvice.bigPlain
  let compact := f.format == .compact
  if f.advises MapAdvice.inlinePcluster ∨ f.advises MapAdvice.fragmentPcluster then
    .error .inlineOrFragment
  else if compact ∧ f.advises MapAdvice.bigCompressed ≠ f.advises MapAdvice.bigPlain then
    .error (.adviceDisagrees f.inode.nid)
  else if big ∧ !sb.hasBigPcluster then .error .bigPclusterWithoutFeature
  else if big ∧ f.lclusterBits ≠ sb.bits then .error .bigPclusterOfLargeLcluster
  else if maxAddressableUnits < f.lclusterCount then
    .error (.tooManyLclusters f.inode.nid f.size)
  else if compact ∧ maxCompactBits < f.lclusterBits then .error .compactLclusterTooLarge
  else if compact ∧ f.advises MapAdvice.twoBytePacks ∧ maxTwoByteBits < f.lclusterBits then
    .error .twoBytePackLclusterTooLarge
  else .ok ()

/-- The line that a map header leaves in the journal. -/
def headerRead : Remark :=
  let nid := f.inode.nid
  let format := f.format.label
  let advice := mapAdvice.render f.advice.toNat
  let first := f.algorithm.label
  let second := f.otherAlgorithm.label
  let bits := f.lclusterBits
  ⟨.debug, s!"[ZMAP] nid={nid} format={format} advise={advice} algorithms=[{first}, {second}] lclusterbits={bits}"⟩

/-- The format of the index of a compressed inode. -/
def formatOf (i : Inode) : Except Error IndexFormat :=
  match i.layout with
  | .compressedFull => .ok .full
  | .compressedCompact => .ok .compact
  | .flatPlain | .flatInline => .error .notCompressed

/-- The file of an inode, as its map header at `position` says. -/
def ofHeader (sb : Superblock) (i : Inode) (format : IndexFormat) (position : Nat)
    (header : MapHeader) : Except Error CompressedFile := do
  let codes := header.algorithms.toNat
  let algorithm ← Algorithm.ofCode (codes % 16)
  let otherAlgorithm ← Algorithm.ofCode (codes / 16)
  return {
    inode := i
    format
    advice := header.advice
    algorithm
    otherAlgorithm
    lclusterBits := sb.bits + header.clusterBits.toNat % 8
    headerEnd := position + MapHeader.recordSize }

/-- Reads the map header of an inode. -/
def resolve (sb : Superblock) (i : Inode) : Query CompressedFile := do
  let format ← formatOf i
  let position := MapHeader.positionAfter i.inlineDataPosition
  let bytes ← Query.bytes position MapHeader.recordSize
  let header ← MapHeader.decode bytes
  let file ← ofHeader sb i format position header
  Query.report file.headerRead
  file.validate sb
  return file

end CompressedFile

end Erofs
