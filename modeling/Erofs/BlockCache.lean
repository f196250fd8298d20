import Erofs.Error
/-!
# The block cache

A cache keeps whole blocks, the most recently used first, and at most as
many as its capacity. Looking a block up counts as a use and only tells
whether it is there; its bytes are taken in a second step. A block that is
added to a full cache pushes out the one that was used least recently.
-/

namespace Erofs

/-- What a cache has counted, and how full it is. -/
structure CacheCounts where
  accesses : Nat
  hits : Nat
  misses : Nat
  evictions : Nat
  used : Nat
  capacity : Nat
  deriving DecidableEq, Repr

/-- The share of accesses that were hits, and zero before the first. -/
def CacheCounts.hitRate (c : CacheCounts) : Float :=
  if c.accesses = 0 then 0.0 else c.hits.toUInt64.toFloat / c.accesses.toUInt64.toFloat

/-- A cache of blocks. -/
structure BlockCache where
  capacity : Nat
  blockSize : Nat
  /-- The blocks with their numbers, the most recently used first. -/
  entries : List (Nat × ByteArray)
  accesses : Nat
  hits : Nat
  misses : Nat
  evictions : Nat
  /-- The number of the blocks, noted whenever one is added or taken out. -/
  used : Nat

namespace BlockCache

/-- The number of blocks that a cache keeps if nobody says otherwise. -/
def defaultCapacity : Nat := 256

/-- An empty cache; with a capacity of zero there is none. -/
def ofCapacity? (capacity blockSize : Nat) : Option BlockCache :=
  if capacity = 0 then none else some ⟨capacity, blockSize, [], 0, 0, 0, 0, 0⟩

/-- The line that a new cache leaves in the journal. -/
def created (c : BlockCache) : Remark :=
  let capacity := c.capacity
  let blockSize := c.blockSize
  ⟨.debug, s!"[CACHE] capacity={capacity} blocks, block_size={blockSize}"⟩

/-- The line that the eviction of a block leaves in the journal. -/
def evicted (block : Nat) : Remark := ⟨.trace, s!"[CACHE] evict block {block}"⟩

/-- What the cache has counted. -/
def counts (c : BlockCache) : CacheCounts :=
  ⟨c.accesses, c.hits, c.misses, c.evictions, c.used, c.capacity⟩

/-- The entries of the other blocks. -/
def others (c : BlockCache) (block : Nat) : List (Nat × ByteArray) :=
  c.entries.filter fun entry => entry.1 != block

/-- The bytes of a block, if it is there. This is no use of it. -/
def peek? (c : BlockCache) (block : Nat) : Option ByteArray := c.entries.lookup block

/-- Whether a block is there. This is no use of it. -/
def contains (c : BlockCache) (block : Nat) : Bool := (c.peek? block).isSome

/-- The bytes of a block that was used or added just before. -/
def bytesOf (c : BlockCache) (block : Nat) : Except Error ByteArray :=
  match c.peek? block with
  | some data => .ok data
  | none => .error .blockEvicted

/-- Uses a block: counts a hit and moves it to the front, or counts a
miss. Says whether it is there. -/
def touch (c : BlockCache) (block : Nat) : Bool × BlockCache :=
  match c.peek? block with
  | some data =>
    (true, { c with
      accesses := c.accesses + 1, hits := c.hits + 1, entries := (block, data) :: c.others block })
  | none => (false, { c with accesses := c.accesses + 1, misses := c.misses + 1 })

/-- Puts other blocks into the cache and notes how many they are. -/
def fill (c : BlockCache) (entries : List (Nat × ByteArray)) : BlockCache :=
  { c with entries, used := entries.length }

/-- Adds a block at the front, in place of its older bytes if it is
there already. A full cache loses its last block, whose number is
returned. -/
def insert (c : BlockCache) (block : Nat) (data : ByteArray) : BlockCache × Option Nat :=
  let kept := c.others block
  match (if kept.length < c.capacity then none else kept.getLast?) with
  | none => (c.fill ((block, data) :: kept), none)
  | some (last, _) =>
    ({ c with evictions := c.evictions + 1 }.fill ((block, data) :: kept.dropLast), some last)

/-- Takes one block out. -/
def invalidate (c : BlockCache) (block : Nat) : BlockCache := c.fill (c.others block)

/-- Takes every block out and leaves the counts. -/
def clear (c : BlockCache) : BlockCache := { c with entries := [], used := 0 }

end BlockCache

end Erofs
