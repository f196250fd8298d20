import Erofs.Directory.Cursor
import Erofs.Path
import Erofs.Statistics.Survey
import Erofs.Superblock.Load
import Erofs.Volume
/-!
# Mounts

A mount is a volume whose superblock was accepted. Everything that an
image can be asked is asked of a mount: each operation runs one query or
session, and changes the mount only in its cache, its counters and its
journal.
-/

namespace Erofs

/-- What a caller chooses about a mount. -/
structure MountOptions where
  /-- The capacity of the block cache; there is none if it is zero. -/
  cacheBlocks : Nat
  /-- How deep a survey goes. -/
  maxDepth : Nat
  /-- Whether the checksum of the superblock is verified. -/
  verifyChecksum : Bool
  deriving DecidableEq, Repr

/-- The options if nobody chooses. -/
def MountOptions.standard : MountOptions := ⟨BlockCache.defaultCapacity, 256, true⟩

/-- A mounted image. -/
structure Mount (δ : Type) where
  volume : Volume δ
  superblock : Superblock
  options : MountOptions

namespace Mount

variable {δ : Type} [BlockDevice δ] {α : Type}

/-- Mounts a volume with some options; a failure comes with the journal
so far. -/
def load (v : Volume δ) (options : MountOptions) : Except (Error × Journal) (Mount δ) :=
  match v.ask (Superblock.load options.verifyChecksum) with
  | (.error cause, v) => .error (cause, v.journal)
  | (.ok superblock, v) => .ok ⟨v, superblock, options⟩

/-- Mounts a volume with the cache it has. -/
def ofVolume (v : Volume δ) : Except (Error × Journal) (Mount δ) := load v .standard

omit [BlockDevice δ] in
/-- The line that mounting a device leaves in the journal. -/
def mounted (m : Mount δ) : Remark :=
  let blockSize := m.superblock.blockSize
  let blocks := m.superblock.blockCount
  let root := m.superblock.rootNid
  let capacity := m.options.cacheBlocks
  ⟨.debug, s!"[SB] mounted: block_size={blockSize} blocks={blocks} root_nid={root} cache={capacity}"⟩

/-- Puts a device into use and mounts it. -/
def ofDevice (device : δ) (options : MountOptions) (journal : Journal) :
    Except (Error × Journal) (Mount δ) := do
  let v ← (Volume.ofDevice device options.cacheBlocks journal).mapError (·, journal)
  let m ← load v options
  return { m with volume := m.volume.note m.mounted }

variable (m : Mount δ)

/-- Runs a session. -/
def perform (s : Session α) : α × Mount δ :=
  let (answer, volume) := m.volume.perform s
  (answer, { m with volume })

/-- Runs a query. -/
def ask (q : Query α) : Except Error α × Mount δ := m.perform q.attempt

/-- Reads an inode. -/
def readInode (nid : Nat) : Except Error Inode × Mount δ := m.ask (Inode.read m.superblock nid)

/-- Reads the inode of the root. -/
def readRoot : Except Error Inode × Mount δ := m.readInode m.superblock.root

/-- Lists the directory of an inode. -/
def listDirectory (i : Inode) : Except Error (List DirectoryEntry) × Mount δ :=
  m.ask (Directory.list m.superblock i)

omit [BlockDevice δ] in
/-- A cursor at the start of the directory of an inode. -/
def cursor (i : Inode) : Except Error Cursor :=
  (Directory.ofInode m.superblock i).map Cursor.start

/-- The next entry of a cursor, and the place after it. -/
def next (c : Cursor) : (Except Error (Option DirectoryEntry) × Cursor) × Mount δ :=
  m.perform (c.next m.superblock)

/-- The inode that a path names. -/
def lookup (path : String) : Except Error Inode × Mount δ := m.ask (Path.find m.superblock path)

/-- Reads the map header of a compressed inode. -/
def resolve (i : Inode) : Except Error CompressedFile × Mount δ :=
  m.ask (CompressedFile.resolve m.superblock i)

/-- Collects the pclusters of a compressed file. -/
def extents (f : CompressedFile) : Except Error ExtentMap × Mount δ :=
  m.ask (f.extents m.superblock)

/-- The number of bytes that the data of a file takes. -/
def occupiedSize [Lz4.Compressor] (i : Inode) : Except Error Nat × Mount δ :=
  m.ask (i.occupiedSize m.superblock)

/-- Adds the tree of the image to an accumulator, and hands that back. -/
def accumulate [Lz4.Compressor] (s : Statistics) : Except Error Unit × Statistics × Mount δ :=
  let done := m.perform (s.collect m.superblock m.options.maxDepth)
  (done.1.1, done.1.2, done.2)

/-- The statistics with the tree of the image added. -/
def survey [Lz4.Compressor] (s : Statistics) : Except Error Statistics × Mount δ :=
  m.perform (s.survey m.superblock m.options.maxDepth)

/-- Compares the checksum of the superblock with the bytes it covers. -/
def verifyChecksum : Except Error Unit × Mount δ := m.ask m.superblock.verifyChecksum

end Mount

end Erofs
