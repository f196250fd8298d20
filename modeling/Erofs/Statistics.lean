import Erofs.Bytes
import Erofs.Error
import Erofs.FileType
/-!
# Statistics of a tree

Statistics count the files of each type and add up the sizes of regular
files, once as the files have them and once as their data takes in the
image. Sums stop at the largest 64-bit number. Two histograms count the
same files by size, and every failure is kept with its path.
-/

-- The zero of a sum is the numeral.
attribute [local instance (high)] Zero.ofOfNat0

namespace Erofs

/-- A failure met in a tree, and where. -/
structure TreeError where
  nid : Nat
  path : String
  cause : Error
  deriving DecidableEq, Repr

/-- The statistics of a tree, or of several. -/
structure Statistics where
  /-- The number of files of each type. -/
  byType : Vector Nat 8
  logicalSize : Nat
  occupiedSize : Nat
  /-- The number of compressed regular files. -/
  compressedFiles : Nat
  logicalHistogram : Vector Nat 16
  occupiedHistogram : Vector Nat 16
  /-- The depth of the deepest directory; the root has depth zero. -/
  maxDepth : Nat
  errors : Array TreeError

/-- The bucket of a size: the first has the sizes below 1 KiB, every
further one those up to twice as many KiB, and the last all others. -/
def sizeBucket (size : Nat) : Fin 16 :=
  let kib := size / 1024
  if kib = 0 then 0 else ⟨min (kib.log2 + 1) 15, by omega⟩

/-- A sum that stops at the largest 64-bit number. -/
def saturatingAdd (a b : Nat) : Nat := min (a + b) (addressLimit - 1)

namespace Statistics

/-- The statistics of nothing. -/
def empty : Statistics where
  byType := Vector.replicate 8 0
  logicalSize := 0
  occupiedSize := 0
  compressedFiles := 0
  logicalHistogram := Vector.replicate 16 0
  occupiedHistogram := Vector.replicate 16 0
  maxDepth := 0
  errors := #[]

variable (s : Statistics)

/-- The number of files. -/
def totalFiles : Nat := s.byType.sum

/-- The number of files of a type. -/
def filesOf (t : FileType) : Nat := s.byType[t.index]

/-- The occupied size as a share of the logical size, if there is any. -/
def ratio? : Option Float :=
  if s.logicalSize = 0 then none
  else some (s.occupiedSize.toUInt64.toFloat / s.logicalSize.toUInt64.toFloat)

/-- Counts a file of a type. -/
def count (t : FileType) : Statistics :=
  { s with byType := s.byType.set t.index (s.byType[t.index] + 1) }

/-- Adds a regular file. -/
def addRegular (logical occupied : Nat) (compressed : Bool) : Statistics :=
  let first := sizeBucket logical
  let second := sizeBucket occupied
  { s with
    logicalSize := saturatingAdd s.logicalSize logical
    occupiedSize := saturatingAdd s.occupiedSize occupied
    compressedFiles := if compressed then s.compressedFiles + 1 else s.compressedFiles
    logicalHistogram := s.logicalHistogram.set first (s.logicalHistogram[first] + 1)
    occupiedHistogram := s.occupiedHistogram.set second (s.occupiedHistogram[second] + 1) }

/-- Adds a failure. -/
def addError (e : TreeError) : Statistics := { s with errors := s.errors.push e }

/-- Notes that a directory of some depth was opened. -/
def reach (depth : Nat) : Statistics := { s with maxDepth := max s.maxDepth depth }

/-- The line that finished statistics leave in the journal. -/
def finished : Remark :=
  let files := s.totalFiles
  let logical := s.logicalSize
  let occupied := s.occupiedSize
  let compressed := s.compressedFiles
  let errors := s.errors.size
  ⟨.debug, s!"[STATS] files={files} logical={logical} occupied={occupied} compressed={compressed} errors={errors}"⟩

end Statistics

/-- The line that a failure met in a tree leaves in the journal. -/
def TreeError.met (e : TreeError) : Remark :=
  let nid := e.nid
  let path := e.path
  let cause := e.cause.display
  ⟨.warn, s!"[STATS] nid={nid} path={path} error={cause}"⟩

end Erofs
