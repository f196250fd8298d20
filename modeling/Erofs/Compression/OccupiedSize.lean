import Erofs.Compression.ExtentMap
import Erofs.Lz4.Fit
/-!
# Occupied sizes

Every pcluster but the last fills its blocks. How many bytes the last
one holds is not recorded. If it is plain, it holds the rest of the
file. If it is compressed, the rest of the file is decoded from it and
compressed again, which gives as many bytes as the first time; with zero
padding it counts as full.
-/

namespace Erofs

namespace CompressedFile

/-- The largest pcluster in bytes. -/
def maxPclusterSize : Nat := 2 ^ 20

variable [Lz4.Compressor] (f : CompressedFile)

/-- The line that the recovered size of the last pcluster leaves in the
journal. -/
def recovered (last : Pcluster) (decoded size : Nat) (codec : String) : Remark :=
  let nid := f.inode.nid
  let lcn := last.lcn
  let block := last.block
  ⟨.debug, s!"[ZMAP] nid={nid} last pcluster lcn={lcn} blkaddr={block} decoded={decoded} recovered={size} ({codec})"⟩

/-- The byte of the file at which a pcluster starts. -/
def start (p : Pcluster) : Nat := p.lcn * f.lclusterSize + p.offset

/-- The size of the rest of a file, `remaining` bytes, after it was
decoded from the blocks `raw` of the last pcluster and compressed
again. -/
def recompressedSize (last : Pcluster) (raw : ByteArray) (room remaining : Nat)
    (codec : String) : Query Nat :=
  if Lz4.maxDecodedLength room < remaining then Query.fail .implausibleRemainder
  else do
    let plain ← Lz4.decodePartial raw remaining
    let found ← Lz4.compressInto plain maxPclusterSize
    let size := min found.produced room
    Query.report (f.recovered last remaining size codec)
    return size

/-- The number of bytes that a compressed last pcluster holds, if
`remaining` bytes of the file are left for it. -/
def compressedSize (sb : Superblock) (last : Pcluster) (remaining : Nat) : Query Nat := do
  let codec ← f.algorithm.codec
  let room := last.blocks * sb.blockSize
  let raw ← Query.bytesDirect (sb.blockStart last.block.toNat) room
  if sb.hasZeroPadding then return room
  else f.recompressedSize last raw room remaining codec

/-- The number of bytes that the last pcluster of a map holds. -/
def lastSize (sb : Superblock) (map : ExtentMap) : Query Nat :=
  match map.last? with
  | none => Query.fail .noPcluster
  | some last =>
    if f.size < f.start last then Query.fail .lastPclusterPastEnd
    else
      let remaining := f.size - f.start last
      match last.storage with
      | .plain => return remaining
      | .compressed => f.compressedSize sb last remaining

/-- The number of bytes that the data of the file takes: full blocks but
for the last pcluster. -/
def occupiedSize (sb : Superblock) : Query Nat :=
  if f.size = 0 then return 0
  else do
    let map ← f.extents sb
    let last ← f.lastSize sb map
    let lastBlocks := map.last?.elim 0 Pcluster.blocks
    return (map.blockCount - lastBlocks) * sb.blockSize + last

end CompressedFile

/-- The number of bytes that the data of a file takes: its size, if it is
not compressed. -/
def Inode.occupiedSize [Lz4.Compressor] (sb : Superblock) (i : Inode) : Query Nat :=
  if !i.isCompressed then return i.size.toNat
  else if i.size = 0 then return 0
  else do
    let file ← CompressedFile.resolve sb i
    file.occupiedSize sb

end Erofs
