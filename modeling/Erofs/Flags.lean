import Erofs.Bytes
import Erofs.Text
/-!
# Flags

Three words of the image are sets of flags: the compatible features and
the incompatible features of the superblock, and the advice in the map
header of a compressed file. This file names the flags of each word and
prints a word as the set that it holds.
-/

namespace Erofs

/-- A flag: the bit that stands for it, and its label. -/
structure Flag where
  bit : Nat
  label : String

namespace Flag

/-- Whether a word holds the flag. -/
def isIn (f : Flag) (word : Nat) : Bool := word.testBit f.bit

/-- The word that holds this flag alone. -/
def mask (f : Flag) : Nat := 2 ^ f.bit

end Flag

/-- The flags that one word of the image may hold, and what such a set is
called. -/
structure FlagSet where
  title : String
  flags : List Flag

namespace FlagSet

/-- The word that holds every flag of the set. -/
def allBits (s : FlagSet) : Nat := s.flags.foldl (fun word f => word ||| f.mask) 0

/-- The bits of a 32-bit word that stand for no flag of the set. -/
def unknownBits (s : FlagSet) (word : Nat) : Nat := word &&& ((2 ^ 32 - 1) ^^^ s.allBits)

/-- The labels of the flags that a word holds, in the order of the
set. -/
def labels (s : FlagSet) (word : Nat) : List String :=
  (s.flags.filter fun f => f.isIn word).map Flag.label

/-- A word as the set it holds: the labels of its flags, then the bits
that stand for none, or a bare zero if it holds nothing. -/
def render (s : FlagSet) (word : Nat) : String :=
  let unknown := s.unknownBits word
  let parts := s.labels word ++ (if unknown = 0 then [] else [Text.hex unknown])
  s.title ++ "(" ++ (if parts.isEmpty then Text.hex 0 else " | ".intercalate parts) ++ ")"

end FlagSet

/-! The features that an old reader may ignore. -/

namespace CompatFeature

/-- The superblock carries a checksum. -/
def superblockChecksum : Flag := ⟨0, "SB_CHKSUM"⟩

/-- Extended inodes carry the time of the last change of the data. -/
def modificationTime : Flag := ⟨1, "MTIME"⟩

end CompatFeature

/-- The compatible features. -/
def compatFeatures : FlagSet :=
  ⟨"FeatureCompat", [CompatFeature.superblockChecksum, CompatFeature.modificationTime]⟩

/-! The features without which an image cannot be read. -/

namespace IncompatFeature

/-- LZ4 data is moved to the end of its pcluster, with zeros before
it. -/
def lz4ZeroPadding : Flag := ⟨0, "LZ4_0PADDING"⟩

/-- A pcluster may have more than one block. -/
def bigPcluster : Flag := ⟨1, "BIG_PCLUSTER"⟩

/-- Files may be cut into chunks. -/
def chunkedFile : Flag := ⟨2, "CHUNKED_FILE"⟩

/-- Data may lie on other devices, which a table lists. -/
def deviceTable : Flag := ⟨3, "DEVICE_TABLE"⟩

end IncompatFeature

/-- The incompatible features. -/
def incompatFeatures : FlagSet :=
  ⟨"FeatureIncompat", [IncompatFeature.lz4ZeroPadding, IncompatFeature.bigPcluster,
    IncompatFeature.chunkedFile, IncompatFeature.deviceTable]⟩

/-! What the map header of a compressed file says of its index. -/

namespace MapAdvice

/-- A compact index has packs of two bytes an lcluster. -/
def twoBytePacks : Flag := ⟨0, "COMPACTED_2B"⟩

/-- Compressed pclusters may have more than one block. -/
def bigCompressed : Flag := ⟨1, "BIG_PCLUSTER_1"⟩

/-- Plain pclusters may have more than one block. -/
def bigPlain : Flag := ⟨2, "BIG_PCLUSTER_2"⟩

/-- The last pcluster lies behind the inode. -/
def inlinePcluster : Flag := ⟨3, "INLINE_PCLUSTER"⟩

/-- Plain pclusters start where their data starts in its block. -/
def interlacedPcluster : Flag := ⟨4, "INTERLACED_PCLUSTER"⟩

/-- The tail of the file lies in a pcluster shared with other files. -/
def fragmentPcluster : Flag := ⟨5, "FRAGMENT_PCLUSTER"⟩

end MapAdvice

/-- The advice of a map header. -/
def mapAdvice : FlagSet :=
  ⟨"MapAdvise", [MapAdvice.twoBytePacks, MapAdvice.bigCompressed, MapAdvice.bigPlain,
    MapAdvice.inlinePcluster, MapAdvice.interlacedPcluster, MapAdvice.fragmentPcluster]⟩

end Erofs
