import Erofs.Journal
import Erofs.Text
/-!
# What can go wrong

Each way in which reading an image fails is a cause of its own. A cause
has a kind, by which a caller decides what to do, a message in words,
and, where the failure is worth a line in the journal, the facts which
that line tells.
-/

namespace Erofs

/-- The kinds of failure. -/
inductive ErrorKind where
  /-- The device failed, or the image ends too early. -/
  | io
  /-- The caller asked for something that does not exist. -/
  | invalidInput
  /-- The image breaks a rule of its format. -/
  | corrupted
  /-- The image uses a feature that is recognised but not read. -/
  | unsupported
  /-- There is nothing of that name. -/
  | notFound
  /-- There is not enough memory. -/
  | resourceExhausted
  deriving DecidableEq, Repr

/-- The name of a kind. -/
def ErrorKind.label : ErrorKind → String
  | io => "Io"
  | invalidInput => "InvalidInput"
  | corrupted => "Corrupted"
  | unsupported => "Unsupported"
  | notFound => "NotFound"
  | resourceExhausted => "ResourceExhausted"

/-- The causes of failure. -/
inductive Error where
  /-- A device reports a failure in its own words. -/
  | reported (kind : ErrorKind) (text : String)
  -- Devices and ranges
  | blockSizeNotPowerOfTwo
  | rangeOverflow
  | rangePastEnd
  | rangeTooLarge
  | shortRead
  | blockEvicted
  | blockAddressOutOfRange
  | pastEndOfImage
  | deviceFailure
  | allocationFailed
  -- Records cut short
  | shortSuperblock
  | shortCompactInode
  | shortExtendedInode
  | shortMapHeader
  | shortLclusterIndex
  -- Superblock
  | badMagic
  | unsupportedBlockBits (bits : Nat)
  | multiDevice
  | checksumMismatch (stored computed : UInt32)
  -- Inodes
  | nidOutOfRange
  | chunkedLayout
  | unknownLayout
  | bogusMode (nid : Nat) (mode : UInt16)
  | tooManyBlocks (nid size : Nat)
  | blockPastEndOfFile
  | inlineTailCrossesBlock (nid offset length : Nat)
  | mappingOfCompressed
  | noDataBlocks
  -- Directories and paths
  | notADirectoryInode
  | compressedDirectory
  | entryPastBlock
  | badFirstNameOffset (nid block nameOffset : Nat)
  | nameOffsetOutOfRange
  | namesOverlap
  | badNameSpan (nid entry offset length : Nat)
  | emptyPath
  | notADirectory
  | noSuchName
  -- Compressed files
  | notCompressed
  | unknownAlgorithm
  | inlineOrFragment
  | adviceDisagrees (nid : Nat)
  | bigPclusterWithoutFeature
  | bigPclusterOfLargeLcluster
  | tooManyLclusters (nid size : Nat)
  | compactLclusterTooLarge
  | twoBytePackLclusterTooLarge
  | lclusterPastEndOfFile
  | reservedLclusterType
  | unsupportedPackGeometry
  | entryOutsidePack
  | bogusPackDelta (nid : Nat)
  | missingBlockCount (nid lcn : Nat)
  | noLeadingHead
  | noPcluster
  | lastPclusterPastEnd
  | implausibleRemainder
  | lzmaRecovery
  -- LZ4
  | lz4LengthTruncated
  | lz4InputEnded
  | lz4LiteralsPastInput
  | lz4OffsetMissing
  | lz4OffsetOutOfRange
  -- Survey of a tree
  | tooDeep
  deriving DecidableEq, Repr

namespace Error

/-- The kind of a cause. -/
def kind : Error → ErrorKind
  | reported kind _ => kind
  | blockSizeNotPowerOfTwo | rangeTooLarge | blockPastEndOfFile | noDataBlocks
  | notADirectoryInode | emptyPath | notADirectory | notCompressed | lclusterPastEndOfFile =>
    .invalidInput
  | rangeOverflow | rangePastEnd | shortRead | blockEvicted | blockAddressOutOfRange
  | pastEndOfImage | deviceFailure | shortSuperblock | shortCompactInode | shortExtendedInode
  | shortMapHeader | shortLclusterIndex => .io
  | allocationFailed => .resourceExhausted
  | badMagic | checksumMismatch .. | nidOutOfRange | bogusMode .. | tooManyBlocks ..
  | inlineTailCrossesBlock .. | entryPastBlock | badFirstNameOffset .. | nameOffsetOutOfRange
  | namesOverlap | badNameSpan .. | adviceDisagrees .. | bigPclusterWithoutFeature
  | tooManyLclusters .. | entryOutsidePack | bogusPackDelta .. | missingBlockCount ..
  | noLeadingHead | noPcluster | lastPclusterPastEnd | implausibleRemainder | lz4LengthTruncated
  | lz4InputEnded | lz4LiteralsPastInput | lz4OffsetMissing | lz4OffsetOutOfRange | tooDeep =>
    .corrupted
  | unsupportedBlockBits .. | multiDevice | chunkedLayout | unknownLayout | mappingOfCompressed
  | compressedDirectory | unknownAlgorithm | inlineOrFragment | bigPclusterOfLargeLcluster
  | compactLclusterTooLarge | twoBytePackLclusterTooLarge | reservedLclusterType
  | unsupportedPackGeometry | lzmaRecovery => .unsupported
  | noSuchName => .notFound

/-- A cause in words. -/
def message : Error → String
  | reported _ text => text
  | blockSizeNotPowerOfTwo => "Device block size must be a power of two"
  | rangeOverflow => "Read range overflows"
  | rangePastEnd => "Read beyond end of device"
  | rangeTooLarge => "Read range too large"
  | shortRead => "Short read from device"
  | blockEvicted => "Block evicted before use"
  | blockAddressOutOfRange => "Block address out of range"
  | pastEndOfImage => "Read beyond end of image"
  | deviceFailure => "Device I/O error"
  | allocationFailed => "Buffer allocation failed"
  | shortSuperblock => "Short read of superblock"
  | shortCompactInode => "Short read of compact inode"
  | shortExtendedInode => "Short read of extended inode"
  | shortMapHeader => "Short read of compression map header"
  | shortLclusterIndex => "Short read of lcluster index"
  | badMagic => "Invalid EROFS superblock magic number"
  | unsupportedBlockBits _ => "Unsupported block size"
  | multiDevice => "Multi-device images are not supported"
  | checksumMismatch .. => "Superblock checksum mismatch"
  | nidOutOfRange => "Inode nid out of range"
  | chunkedLayout => "Chunk-based data layout is not supported"
  | unknownLayout => "Unknown inode data layout"
  | bogusMode .. => "Bogus inode mode"
  | tooManyBlocks .. => "Inode size exceeds addressable blocks"
  | blockPastEndOfFile => "Logical block beyond end of file"
  | inlineTailCrossesBlock .. => "Inline data crosses metadata block boundary"
  | mappingOfCompressed => "Flat mapping of a compressed inode"
  | noDataBlocks => "Inode has no data blocks"
  | notADirectoryInode => "Inode is not a directory"
  | compressedDirectory => "Compressed directories are not supported"
  | entryPastBlock => "Directory entry header extends beyond block"
  | badFirstNameOffset .. => "Directory block has invalid first name offset"
  | nameOffsetOutOfRange => "Directory entry name offset out of range"
  | namesOverlap => "Directory entry names overlap"
  | badNameSpan .. => "Directory entry name length out of range"
  | emptyPath => "Empty path"
  | notADirectory => "Not a directory"
  | noSuchName => "Path component not found"
  | notCompressed => "Inode is not compressed"
  | unknownAlgorithm => "Unknown compression algorithm"
  | inlineOrFragment => "Inline or fragment pclusters are not supported"
  | adviceDisagrees _ => "Big pcluster head1/head2 of compact indexes disagree"
  | bigPclusterWithoutFeature => "Big pcluster advise without superblock feature"
  | bigPclusterOfLargeLcluster => "Big pcluster with lcluster larger than block"
  | tooManyLclusters .. => "Compressed size exceeds addressable lclusters"
  | compactLclusterTooLarge => "Compact indexes with lcluster beyond 16KiB"
  | twoBytePackLclusterTooLarge => "2B compact indexes with lcluster beyond 4KiB"
  | lclusterPastEndOfFile => "Logical cluster beyond end of file"
  | reservedLclusterType => "Unrecognized lcluster type"
  | unsupportedPackGeometry => "Unsupported compact index geometry"
  | entryOutsidePack => "Compact index out of pack"
  | bogusPackDelta _ => "Invalid compact big pcluster delta"
  | missingBlockCount .. => "Big pcluster head not followed by a compressed block count"
  | noLeadingHead => "Compressed file starts with a non-head lcluster"
  | noPcluster => "Compressed file has no pcluster"
  | lastPclusterPastEnd => "Last pcluster starts beyond end of file"
  | implausibleRemainder => "Remaining size exceeds what the pcluster can decode to"
  | lzmaRecovery => "LZMA pcluster size recovery is not supported"
  | lz4LengthTruncated => "Truncated LZ4 length"
  | lz4InputEnded => "LZ4 input ended before target length"
  | lz4LiteralsPastInput => "LZ4 literals run past input"
  | lz4OffsetMissing => "LZ4 input ended before match offset"
  | lz4OffsetOutOfRange => "LZ4 match offset out of range"
  | tooDeep => "Directory tree exceeds maximum depth"

/-- A cause as it is shown: its kind and its message. -/
def display (e : Error) : String := e.kind.label ++ ": " ++ e.message

/-- The line that a failure leaves in the journal, for the causes that
leave one. -/
def remark? : Error → Option Remark
  | unsupportedBlockBits bits => some ⟨.error, s!"[SB] unsupported blkszbits {bits}"⟩
  | checksumMismatch stored computed =>
    let stored := Text.hexWord stored
    let computed := Text.hexWord computed
    some ⟨.error, s!"[SB] checksum mismatch: stored {stored}, computed {computed}"⟩
  | bogusMode nid mode =>
    let mode := Text.octal mode.toNat
    some ⟨.warn, s!"[INODE] nid {nid} has bogus mode {mode}"⟩
  | tooManyBlocks nid size =>
    some ⟨.warn, s!"[INODE] nid {nid} size {size} exceeds addressable blocks"⟩
  | inlineTailCrossesBlock nid offset length =>
    some ⟨.warn, s!"[INODE] nid {nid} inline tail crosses block boundary (offset {offset}, len {length})"⟩
  | badFirstNameOffset nid block nameOffset =>
    some ⟨.warn, s!"[DIR] nid={nid} lblk={block} invalid nameoff0 {nameOffset}"⟩
  | badNameSpan nid entry offset length =>
    some ⟨.warn, s!"[DIR] nid={nid} entry {entry} bad name span {offset}+{length}"⟩
  | adviceDisagrees nid => some ⟨.warn, s!"[ZMAP] nid={nid} inconsistent big pcluster advise"⟩
  | tooManyLclusters nid size =>
    some ⟨.warn, s!"[ZMAP] nid={nid} size {size} exceeds addressable lclusters"⟩
  | bogusPackDelta nid => some ⟨.warn, s!"[ZMAP] nid={nid} bogus big pcluster delta"⟩
  | missingBlockCount nid lcn =>
    some ⟨.warn, s!"[ZMAP] nid={nid} lcn={lcn} big pcluster without CBLKCNT"⟩
  | _ => none

end Error

end Erofs
