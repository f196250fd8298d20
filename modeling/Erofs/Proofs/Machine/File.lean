import Erofs.Proofs.Machine.Inode
/-!
# Compressed files in words

The map header of a compressed file and its full index, computed in words.
A file is only accepted if the numbers of its lclusters have 32 bits, so
the records of a full index all start below the limit of positions,
although most of them may lie past the end of the image.
-/

namespace Erofs.Machine

/-- Where the map header lies behind an inode that ends at `position`. -/
def headerPosition (position : Nat) : Option Nat := do
  let up ← add 64 position (MapHeader.recordSize - 1)
  alignDown 64 up MapHeader.recordSize

/-- Reads a map header at the front of a string of bytes. -/
def decodeMapHeader (b : ByteArray) : Computation MapHeader := do
  if b.size < MapHeader.recordSize then throw .shortMapHeader
  else
    let reserved ← field32 b 0
    let advice ← field16 b 4
    let algorithms ← field8 b 6
    let clusterBits ← field8 b 7
    return { reserved, advice, algorithms, clusterBits }

/-- The file of an inode, as its map header says. -/
def fileOfHeader (sb : Superblock) (i : Inode) (format : IndexFormat) (position : Nat)
    (header : MapHeader) : Computation CompressedFile := do
  let codes := header.algorithms.toNat
  let algorithm ← Algorithm.ofCode (codes % 16)
  let otherAlgorithm ← Algorithm.ofCode (codes / 16)
  let lclusterBits ← add 8 sb.bits (header.clusterBits.toNat % 8)
  let headerEnd ← add 64 position MapHeader.recordSize
  return {
    inode := i, format, advice := header.advice, algorithm, otherAlgorithm, lclusterBits,
    headerEnd }

/-- The number of lclusters that cover the file. -/
def lclusterCount (f : CompressedFile) : Option Nat := unitsCovering f.size f.lclusterBits

/-- The rules that a compressed file must keep to be read. -/
def validateFile (sb : Superblock) (f : CompressedFile) : Computation Unit := do
  let count ← lclusterCount f
  let big := f.advises MapAdvice.bigCompressed || f.advises MapAdvice.bigPlain
  let compact := f.format == .compact
  if f.advises MapAdvice.inlinePcluster ∨ f.advises MapAdvice.fragmentPcluster then
    throw .inlineOrFragment
  else if compact ∧ f.advises MapAdvice.bigCompressed ≠ f.advises MapAdvice.bigPlain then
    throw (.adviceDisagrees f.inode.nid)
  else if big ∧ !sb.hasBigPcluster then throw .bigPclusterWithoutFeature
  else if big ∧ f.lclusterBits ≠ sb.bits then throw .bigPclusterOfLargeLcluster
  else if maxAddressableUnits < count then throw (.tooManyLclusters f.inode.nid f.size)
  else if compact ∧ CompressedFile.maxCompactBits < f.lclusterBits then
    throw .compactLclusterTooLarge
  else if compact ∧ f.advises MapAdvice.twoBytePacks ∧
      CompressedFile.maxTwoByteBits < f.lclusterBits then
    throw .twoBytePackLclusterTooLarge
  else return ()

/-- Reads the map header of an inode. -/
def resolve (sb : Superblock) (i : Inode) : Program CompressedFile := do
  let format ← CompressedFile.formatOf i
  let stop ← inlineDataPosition i
  let position ← headerPosition stop
  let bytes ← Query.bytes position MapHeader.recordSize
  let header ← decodeMapHeader bytes
  let file ← fileOfHeader sb i format position header
  Query.report file.headerRead
  validateFile sb file
  return file

/-- Where the record of an lcluster lies in a full index. -/
def fullIndexPosition (f : CompressedFile) (lcn : Nat) : Option Nat := do
  let first ← add 64 f.headerEnd CompressedFile.fullIndexPadding
  let before ← mul 64 lcn FullIndexRecord.recordSize
  add 64 first before

/-- Reads a record of a full index at the front of a string of bytes. -/
def decodeIndexRecord (b : ByteArray) : Computation FullIndexRecord := do
  if b.size < FullIndexRecord.recordSize then throw .shortLclusterIndex
  else
    let advice ← field16 b 0
    let offset ← field16 b 2
    let payload ← field32 b 4
    return { advice, offset, payload }

/-- Reads what a full index says of an lcluster. -/
def loadFull (f : CompressedFile) (lcn : Nat) : Program Lcluster := do
  let position ← fullIndexPosition f lcn
  let bytes ← Query.bytes position FullIndexRecord.recordSize
  let record ← decodeIndexRecord bytes
  record.lcluster

/-! ## The map header -/

variable {image : ByteArray} {sb : Superblock} {i : Inode} {f : CompressedFile} {lcn : Nat}

theorem headerPosition_eq {position : Nat} (h : position < 2 ^ 63 + 2 ^ 32) :
    headerPosition position = some (MapHeader.positionAfter position) := by
  rw [headerPosition, add_of_lt (by simp only [MapHeader.recordSize]; omega), some_bind]
  exact alignDown_of_le (by simp only [MapHeader.recordSize]; omega) (by decide : 3 ≤ 64)

theorem decodeMapHeader_eq (b : ByteArray) : decodeMapHeader b = exact (MapHeader.decode b) := by
  unfold decodeMapHeader MapHeader.decode
  split
  · rfl
  · next h =>
    simp only [MapHeader.recordSize, Nat.not_lt] at h
    simp (disch := omega) only [field8_of_le, field16_of_le, field32_of_le, liftM_some,
      exact_ok_bind, pure_eq_exact]

theorem fileOfHeader_eq (hvalid : sb.validate = .ok ()) (i : Inode) (format : IndexFormat)
    {position : Nat} (hposition : position + MapHeader.recordSize < 2 ^ 64) (header : MapHeader) :
    fileOfHeader sb i format position header =
      exact (CompressedFile.ofHeader sb i format position header) := by
  have hbits := Superblock.bits_of_validate hvalid
  unfold fileOfHeader CompressedFile.ofHeader
  refine bind_eq_exact (liftM_except _) fun algorithm _ => ?_
  refine bind_eq_exact (liftM_except _) fun otherAlgorithm _ => ?_
  rw [value_bind (add_of_lt (by omega)), value_bind (add_of_lt hposition)]
  rfl

theorem lclusterCount_eq (hbits : f.lclusterBits < 64) :
    lclusterCount f = some f.lclusterCount :=
  unitsCovering_eq f.inode.size.toNat_lt hbits

theorem validateFile_eq (hbits : f.lclusterBits < 64) :
    validateFile sb f = exact (f.validate sb) := by
  unfold validateFile CompressedFile.validate
  rw [value_bind (lclusterCount_eq hbits)]
  simp only
  split
  · rfl
  split
  · rfl
  split
  · rfl
  split
  · rfl
  split
  · rfl
  split
  · rfl
  split <;> rfl

/-- **Resolving a compressed file does not fault.** -/
theorem resolve_matches (hvalid : sb.validate = .ok ()) (himage : image.size < 2 ^ 63)
    (hi : i.Placed image) : Program.Matches image (resolve sb i) (CompressedFile.resolve sb i) := by
  have hbits := Superblock.bits_of_validate hvalid
  have hend : i.inlineDataPosition < 2 ^ 63 + 2 ^ 32 := by
    have hle := hi.le
    have hxattr := hi.xattrSize_le
    simp only [Inode.inlineDataPosition]
    omega
  refine Program.matches_bind (Program.matches_except _) fun format _ => ?_
  refine Program.matches_value (inlineDataPosition_eq himage hi) ?_
  refine Program.matches_value (headerPosition_eq hend) ?_
  refine Program.matches_bind (Program.matches_query _) fun bytes hbytes => ?_
  obtain ⟨hle, -⟩ := le_of_onImage_bytes hbytes
  refine Program.matches_bind (Program.matches_of_exact (decodeMapHeader_eq bytes))
    fun header _ => ?_
  refine Program.matches_bind
    (Program.matches_of_exact (fileOfHeader_eq hvalid i format (by omega) header))
    fun file hfile => ?_
  rw [Query.onImage_liftM] at hfile
  have hfileBits := (CompressedFile.ofHeader_eq_ok hfile).2
  refine Program.matches_report ?_
  exact Program.matches_bind (Program.matches_of_exact (validateFile_eq (by omega)))
    fun _ _ => Program.matches_pure file

/-! ## Full indexes -/

/-- An lcluster of an accepted file has far fewer bits than a word. -/
theorem lclusterBits_lt (hvalid : sb.validate = .ok ()) (hf : f.Placed image sb) :
    f.lclusterBits < 24 := by
  have hbits := Superblock.bits_of_validate hvalid
  have hle := hf.le_bits
  omega

theorem fullIndexPosition_eq (himage : image.size < 2 ^ 63) (hf : f.Placed image sb)
    (hlcn : lcn < f.lclusterCount) :
    fullIndexPosition f lcn = some (f.fullIndexPosition lcn) := by
  have hend := hf.headerEnd_le
  have hcount := hf.count_le
  simp only [maxAddressableUnits] at hcount
  rw [fullIndexPosition]
  simp only [CompressedFile.fullIndexPadding, FullIndexRecord.recordSize]
  rw [add_of_lt (by omega), some_bind, mul_of_lt (by omega), some_bind, add_of_lt (by omega)]
  rfl

theorem decodeIndexRecord_eq (b : ByteArray) :
    decodeIndexRecord b = exact (FullIndexRecord.decode b) := by
  unfold decodeIndexRecord FullIndexRecord.decode
  split
  · rfl
  · next h =>
    simp only [FullIndexRecord.recordSize, Nat.not_lt] at h
    simp (disch := omega) only [field16_of_le, field32_of_le, liftM_some, exact_ok_bind,
      pure_eq_exact]

/-- **Reading a full index does not fault.** -/
theorem loadFull_matches (himage : image.size < 2 ^ 63) (hf : f.Placed image sb)
    (hlcn : lcn < f.lclusterCount) : Program.Matches image (loadFull f lcn) (f.loadFull lcn) := by
  refine Program.matches_value (fullIndexPosition_eq himage hf hlcn) ?_
  refine Program.matches_bind (Program.matches_query _) fun bytes _ => ?_
  exact Program.matches_bind (Program.matches_of_exact (decodeIndexRecord_eq bytes))
    fun record _ => Program.matches_except _

end Erofs.Machine
