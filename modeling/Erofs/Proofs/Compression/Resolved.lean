import Erofs.Compression.ExtentMap
import Erofs.Proofs.Query
/-!
# What resolving a compressed file ensures

A resolved file has passed every rule that its map header can break. This
file collects what the readers of its index rely on: where the index
starts, how large an lcluster may be, and that in a compact index it does
not matter how a pcluster is stored.
-/

namespace Erofs

namespace CompressedFile

/-- What holds of every resolved file. -/
structure Resolved (sb : Superblock) (f : CompressedFile) : Prop where
  /-- The rules are kept. -/
  valid : f.validate sb = .ok ()
  /-- The map header ends at a multiple of its size. -/
  headerEnd_mod : f.headerEnd % 8 = 0
  /-- An lcluster is at least as large as a block. -/
  bits_le : sb.bits ≤ f.lclusterBits
  /-- And by at most seven bits larger. -/
  le_bits : f.lclusterBits ≤ sb.bits + 7

variable {image : ByteArray} {sb : Superblock} {i : Inode} {f : CompressedFile}

theorem ofHeader_eq_ok {format : IndexFormat} {position : Nat} {header : MapHeader}
    (h : ofHeader sb i format position header = .ok f) :
    f.headerEnd = position + MapHeader.recordSize ∧
      f.lclusterBits = sb.bits + header.clusterBits.toNat % 8 := by
  unfold ofHeader at h
  cases hfirst : Algorithm.ofCode (header.algorithms.toNat % 16) with
  | error cause => simp [hfirst, bind, Except.bind] at h
  | ok first =>
    cases hsecond : Algorithm.ofCode (header.algorithms.toNat / 16) with
    | error cause => simp [hfirst, hsecond, bind, Except.bind] at h
    | ok second =>
      simp only [hfirst, hsecond, bind, Except.bind, pure, Except.pure, Except.ok.injEq] at h
      subst h
      exact ⟨rfl, rfl⟩

/-- A file that passes the rules has no more lclusters than there are numbers
for. -/
theorem lclusterCount_le (h : f.validate sb = .ok ()) : f.lclusterCount ≤ maxAddressableUnits := by
  unfold validate at h
  grind

/-- A file is resolved from a map header, and passes the rules. -/
theorem exists_header_of_resolve (h : (resolve sb i).onImage image = .ok f) :
    ∃ format bytes header,
      (Query.bytes (MapHeader.positionAfter i.inlineDataPosition) MapHeader.recordSize).onImage
        image = .ok bytes ∧
      ofHeader sb i format (MapHeader.positionAfter i.inlineDataPosition) header = .ok f ∧
      f.validate sb = .ok () := by
  obtain ⟨format, -, h⟩ := Query.onImage_bind_eq_ok.mp h
  obtain ⟨bytes, hbytes, h⟩ := Query.onImage_bind_eq_ok.mp h
  obtain ⟨header, -, h⟩ := Query.onImage_bind_eq_ok.mp h
  obtain ⟨file, hfile, h⟩ := Query.onImage_bind_eq_ok.mp h
  rw [Query.onImage_report_bind] at h
  obtain ⟨⟨⟩, hvalid, h⟩ := Query.onImage_bind_eq_ok.mp h
  simp only [Query.onImage_pure, Except.ok.injEq] at h
  subst h
  rw [Query.onImage_liftM] at hfile hvalid
  exact ⟨format, bytes, header, hbytes, hfile, hvalid⟩

/-- **Resolving ensures all of it.** -/
theorem resolved_of_resolve (h : (resolve sb i).onImage image = .ok f) : Resolved sb f := by
  obtain ⟨format, bytes, header, -, hfile, hvalid⟩ := exists_header_of_resolve h
  obtain ⟨hend, hbits⟩ := ofHeader_eq_ok hfile
  refine ⟨hvalid, ?_, by omega, by omega⟩
  simp only [hend, MapHeader.positionAfter, MapHeader.recordSize]
  omega

namespace Resolved

variable (r : Resolved sb f)
include r

/-- In a compact index both kinds of pclusters may have more than one
block, or neither. -/
theorem hasBig_eq (hc : f.format = .compact) :
    f.advises MapAdvice.bigPlain = f.advises MapAdvice.bigCompressed := by
  have h := r.valid
  unfold validate at h
  grind

/-- So it does not matter how a pcluster is stored. -/
theorem hasBig_eq_hasBigPcluster (hc : f.format = .compact) (storage : Storage) :
    f.hasBig storage = f.hasBigPcluster := by
  cases storage with
  | plain => exact r.hasBig_eq hc
  | compressed => rfl

/-- An lcluster of a compact index fits the slots of every pack. -/
theorem lclusterBits_le (hc : f.format = .compact) : f.lclusterBits ≤ maxCompactBits := by
  have h := r.valid
  unfold validate at h
  grind

/-- And those of packs with two bytes a slot, if there are any. -/
theorem lclusterBits_le_twoByte (hc : f.format = .compact)
    (ht : f.advises MapAdvice.twoBytePacks = true) : f.lclusterBits ≤ maxTwoByteBits := by
  have h := r.valid
  unfold validate at h
  grind

end Resolved

end CompressedFile

/-! ## Small files

Images for concrete cases need no more than the inode, the map header and
the index of one file. -/

/-- A superblock that gives the size of a block and the features in use. -/
def Superblock.bare (blockBits : UInt8) (incompat : UInt32) : Superblock where
  magic := expectedMagic
  checksum := 0
  compat := 0
  blockBits
  reserved := 0
  rootNid := 0
  inodeCount := 1
  buildTime := 0
  buildTimeNanos := 0
  blockCount := 0
  metaBlock := 0
  xattrBlock := 0
  uuid := zeros 16
  volumeName := zeros 16
  incompat
  lz4MaxDistance := 0
  extraDevices := 0
  deviceTableSlot := 0

/-- A regular file whose compact record is at the front of the image. -/
def Inode.bare (layout : DataLayout) (size : UInt64) : Inode where
  nid := 0
  position := 0
  version := .compact
  layout
  xattrSize := 0
  ino := 1
  mode := 0o100644
  type := .regularFile
  uid := 0
  gid := 0
  linkCount := 1
  changeTime := 0
  changeTimeNanos := 0
  size
  payload := .compressedBlocks 0

/-- The record of the inode, left blank, a map header and what follows
it. -/
def indexImage (advice clusterBits : UInt8) (index : List UInt8) : ByteArray :=
  zeros 36 ++ ⟨#[advice, 0, 0, clusterBits]⟩ ++ ⟨index.toArray⟩

/-- The file that such a map header leads to. -/
def indexFile (format : IndexFormat) (sb : Superblock) (i : Inode) (advice clusterBits : UInt8) :
    CompressedFile where
  inode := i
  format
  advice := advice.toUInt16
  algorithm := .lz4
  otherAlgorithm := .lz4
  lclusterBits := sb.bits + clusterBits.toNat
  headerEnd := 40

end Erofs
