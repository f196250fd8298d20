import Erofs.Lz4.Block
/-!
# Compressing into a budget

How much of a source can be compressed into a given number of bytes is
found by bisection between a front part that fits and one that does not.
The search asks only for the compressed size of front parts, so it is
stated for any such size. Which blocks the parts are compressed to is left
to a compressor.
-/

namespace Erofs.Lz4

/-- A compressor: the block that it makes of each source. -/
class Compressor where
  block : ByteArray → ByteArray

/-- A front part of a source that fits: its length, and the size of the
block it is compressed to. -/
structure Fit where
  consumed : Nat
  produced : Nat
  deriving DecidableEq, Repr

/-- Bisects between `low`, a length that fits with the size `produced`,
and `high`, one that does not fit. -/
def bisect (size : Nat → Nat) (capacity low high produced : Nat) : Fit :=
  if high - low ≤ 1 then ⟨low, produced⟩
  else
    let middle := low + (high - low) / 2
    let attempt := size middle
    if attempt ≤ capacity then bisect size capacity middle high attempt
    else bisect size capacity low middle produced
termination_by high - low

/-- The front part of a source of `length` bytes that is compressed into
at most `capacity` bytes: all of it if that fits, nothing if not even
nothing does, and else what bisection finds. `size` gives the compressed
size of each front part. -/
def fit (size : Nat → Nat) (length capacity : Nat) : Fit :=
  let whole := size length
  if whole ≤ capacity then ⟨length, whole⟩
  else
    let empty := size 0
    if capacity < empty then ⟨0, 0⟩ else bisect size capacity 0 length empty

/-- The size of the block that a front part of a source is compressed
to. -/
def frontSize [Compressor] (src : ByteArray) (length : Nat) : Nat :=
  (Compressor.block (slice src 0 length)).size

/-- The line that a search leaves in the journal. -/
def Fit.searched (f : Fit) (given capacity : Nat) : Remark :=
  let consumed := f.consumed
  let produced := f.produced
  ⟨.trace, s!"[LZ4] destsize {given} bytes into {capacity}: consumed {consumed} produced {produced}"⟩

/-- The front part of a source that is compressed into at most `capacity`
bytes, with a remark if it had to be searched for. -/
def compressInto [Compressor] (src : ByteArray) (capacity : Nat) : Query Fit :=
  let found := fit (frontSize src) src.size capacity
  if found.consumed < src.size ∧ frontSize src 0 ≤ capacity then
    .note (found.searched src.size capacity) (.done found)
  else .done found

end Erofs.Lz4
