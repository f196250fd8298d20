import Erofs.BlockCache
import Erofs.Device
import Erofs.Session
/-!
# Volumes

A volume is a device in use: it reads any range of bytes from a device
that hands out whole blocks. Reads on the cached route go block by block
through the cache, if there is one; all others fetch the blocks that
cover the range in one transfer. The device is asked for its size and
its block size whenever they are needed. A volume counts the reads it was
asked for and the transfers it made, keeps the journal, and runs sessions
and queries.
-/

namespace Erofs

/-- A device in use. -/
structure Volume (δ : Type) where
  device : δ
  /-- The reads whose range was accepted. -/
  reads : Nat
  /-- The transfers asked of the device. -/
  transfers : Nat
  cache : Option BlockCache
  journal : Journal

/-- A run of bytes inside one block. -/
structure Span where
  block : Nat
  start : Nat
  length : Nat
  deriving DecidableEq, Repr

/-- The part of the `length` bytes from `offset` on that lies in a
block. -/
def spanIn (blockSize offset length block : Nat) : Span :=
  let base := block * blockSize
  let first := max offset base
  let last := min (offset + length) (base + blockSize)
  ⟨block, first - base, last - first⟩

/-- The number of the blocks that the `length` bytes from `offset` on
touch. -/
def blocksTouched (blockSize offset length : Nat) : Nat :=
  (offset + length + blockSize - 1) / blockSize - offset / blockSize

/-- The number of the blocks that a transfer of the `length` bytes from
`offset` on takes, if it has 32 bits. Where the end of the range leaves
64 bits when it is rounded up, it wraps around to zero, and the number
comes out as the two's complement of the first block. -/
def transferBlocks? (blockSize offset length : Nat) : Option Nat :=
  if addressLimit < offset + length + blockSize then none
  else
    let count := blocksTouched blockSize offset length
    if count < 2 ^ 32 then some count else none

/-- The runs that make up the `length` bytes from `offset` on, one for
each block they touch. -/
def spans (blockSize offset length : Nat) : List Span :=
  (List.range' (offset / blockSize) (blocksTouched blockSize offset length)).map
    (spanIn blockSize offset length)

namespace Volume

variable {δ : Type} [BlockDevice δ] {α : Type}

/-- The size of a block, as the device tells it now. -/
def blockSize (v : Volume δ) : Nat := (BlockDevice.blockSize v.device).toNat

/-- The number of bytes, as the device tells it now. -/
def size (v : Volume δ) : Nat := (BlockDevice.size v.device).toNat

/-- Puts a device into use, with a cache of `capacity` blocks, or with
none if that is zero, and a journal that already has some lines. Block
sizes are powers of two. -/
def ofDevice (device : δ) (capacity : Nat) (journal : Journal) : Except Error (Volume δ) :=
  let blockSize := (BlockDevice.blockSize device).toNat
  if 2 ^ blockSize.log2 = blockSize then
    let cache := BlockCache.ofCapacity? capacity blockSize
    .ok {
      device
      reads := 0
      transfers := 0
      cache
      journal := (cache.map BlockCache.created).elim journal journal.push }
  else .error .blockSizeNotPowerOfTwo

omit [BlockDevice δ] in
/-- Adds a line to the journal. -/
def note (v : Volume δ) (remark : Remark) : Volume δ := { v with journal := v.journal.push remark }

/-- Fetches `count` whole blocks from the device. A transfer that falls
short is a failure. -/
def transfer (v : Volume δ) (first count : Nat) : Except Error ByteArray × Volume δ :=
  let room := count * v.blockSize
  let (result, device) := BlockDevice.readBlocks v.device first count room
  let v := { v with device, transfers := v.transfers + 1 }
  match result with
  | .error cause => (.error cause, v)
  | .ok delivered =>
    if delivered.reported < room then (.error .shortRead, v) else (.ok delivered.data, v)

/-- Reads a range past the cache: fetches the blocks that cover it and
cuts it out. -/
def readDirect (v : Volume δ) (offset length : Nat) : Except Error ByteArray × Volume δ :=
  let blockSize := v.blockSize
  match transferBlocks? blockSize offset length with
  | none => (.error .rangeTooLarge, v)
  | some count =>
    let first := offset / blockSize
    match v.transfer first count with
    | (.error cause, v) => (.error cause, v)
    | (.ok blocks, v) => (.ok (slice blocks (offset - first * blockSize) length), v)

/-- The bytes of one block from a cache of the volume, where they are put
first if they are not there. -/
def readBlock (v : Volume δ) (cache : BlockCache) (block : Nat) :
    Except Error ByteArray × BlockCache × Volume δ :=
  match cache.touch block with
  | (true, cache) => (cache.bytesOf block, cache, v)
  | (false, cache) =>
    match v.transfer block 1 with
    | (.error cause, v) => (.error cause, cache, v)
    | (.ok data, v) =>
      let (cache, lost) := cache.insert block data
      (cache.bytesOf block, cache, lost.elim v fun last => v.note (BlockCache.evicted last))

/-- Reads runs of bytes through a cache of the volume and appends them to
`before`. A failure ends the read, but what was cached stays cached. -/
def readSpans (v : Volume δ) (cache : BlockCache) (before : ByteArray) :
    List Span → Except Error ByteArray × BlockCache × Volume δ
  | [] => (.ok before, cache, v)
  | span :: rest =>
    match v.readBlock cache span.block with
    | (.error cause, cache, v) => (.error cause, cache, v)
    | (.ok data, cache, v) =>
      v.readSpans cache (before ++ slice data span.start span.length) rest

/-- Reads the `length` bytes from `offset` on. A range that does not fit
in 64 bits or ends past the device is refused before anything is
counted. -/
def read (v : Volume δ) (route : Route) (offset length : Nat) :
    Except Error ByteArray × Volume δ :=
  match checkRange v.size offset length with
  | .error cause => (.error cause, v)
  | .ok () =>
    let v := { v with reads := v.reads + 1 }
    if length = 0 then (.ok .empty, v)
    else
      match route, v.cache with
      | .cached, some cache =>
        let (result, cache, v) := v.readSpans cache .empty (spans v.blockSize offset length)
        (result, { v with cache := some cache })
      | _, _ => v.readDirect offset length

/-- Prepares the device for use. -/
def attach (v : Volume δ) : Except Error Unit × Volume δ :=
  let (result, device) := BlockDevice.attach v.device
  (result, { v with device })

/-- Empties the cache and ends the use of the device. -/
def close (v : Volume δ) : Except Error Unit × Volume δ :=
  let (result, device) := BlockDevice.detach v.device
  (result, { v with device, cache := v.cache.map BlockCache.clear })

/-- Runs a session. -/
def perform (v : Volume δ) : Session α → α × Volume δ
  | .done answer => (answer, v)
  | .note remark rest => (v.note remark).perform rest
  | .read route offset length rest =>
    let (result, v) := v.read route offset length
    v.perform (rest result)

/-- Runs a query. -/
def ask (v : Volume δ) (q : Query α) : Except Error α × Volume δ := v.perform q.attempt

end Volume

end Erofs
