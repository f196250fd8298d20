import Erofs.Proofs.Machine.Program
import Erofs.Proofs.Volume.Answers
/-!
# Reading in words

A volume on an image in memory, with every position computed in words of
64 bits and every slice checked. The loop through the cache goes on from
byte to byte as far as blocks allow, and each turn copies one byte at
least. If the image has less than half of the address space and block
sizes have 32 bits, nothing faults, and what comes out is what the volume
does (`read_eq`); so programs that match a query run on it without a fault
(`run_eq`).
-/

namespace Erofs.Machine

variable {α : Type}

/-- Hands over blocks of an image in memory. The product that gives the
start is compared with the limit, so it may have any value. -/
def readBlocks (d : MemoryDevice) (first count room : Nat) : Computation Transfer := do
  let length ← mul 64 count d.blockSize.toNat
  let start := first * d.blockSize.toNat
  if addressLimit ≤ start then throw .blockAddressOutOfRange
  else if d.image.size ≤ start ∨ room < length then throw .pastEndOfImage
  else
    let stop ← add 64 start length
    let present ← sub (min stop d.image.size) start
    let data ← sliceAt d.image start present
    let missing ← sub length present
    return ⟨length, data ++ zeros missing⟩

/-- What a step leaves: its result and the volume after it. -/
abbrev Outcome (α : Type) : Type := Except Error α × Volume MemoryDevice

/-- Fetches whole blocks. -/
def transfer (v : Volume MemoryDevice) (first count : Nat) : Option (Outcome ByteArray) := do
  let room ← mul 64 count v.blockSize
  let result ← (readBlocks v.device first count room).run
  return (result.bind (Volume.accept room), { v with transfers := v.transfers + 1 })

/-- Reads a range past the cache. -/
def readDirect (v : Volume MemoryDevice) (offset length : Nat) : Option (Outcome ByteArray) := do
  let first ← div offset v.blockSize
  let stop ← add 64 offset length
  let up ← add 64 stop v.blockSize
  let up ← sub up 1
  let last ← div up v.blockSize
  let count ← sub last first
  if 2 ^ 32 ≤ count then return (.error .rangeTooLarge, v)
  else
    let base ← mul 64 first v.blockSize
    let head ← sub offset base
    match ← transfer v first count with
    | (.error cause, v) => return (.error cause, v)
    | (.ok blocks, v) =>
      let bytes ← sliceAt blocks head length
      return (.ok bytes, v)

/-- What a step through a cache leaves. -/
abbrev CacheOutcome (α : Type) : Type := Except Error α × BlockCache × Volume MemoryDevice

/-- The bytes of one block. -/
def readBlock (v : Volume MemoryDevice) (cache : BlockCache) (block : Nat) :
    Option (CacheOutcome ByteArray) :=
  match cache.touch block with
  | (true, cache) => some (cache.bytesOf block, cache, v)
  | (false, cache) => do
    match ← transfer v block 1 with
    | (.error cause, v) => return (.error cause, cache, v)
    | (.ok data, v) =>
      let (cache, lost) := cache.insert block data
      return (cache.bytesOf block, cache, lost.elim v fun last => v.note (BlockCache.evicted last))

/-- Copies the bytes of a range from `done` on, at most one block at each
turn. -/
def copyBlocks (offset length : Nat) :
    (turns : Nat) → Volume MemoryDevice → BlockCache → (done : Nat) → (before : ByteArray) →
      Option (CacheOutcome ByteArray)
  | 0, v, cache, done, before => if done < length then none else some (.ok before, cache, v)
  | turns + 1, v, cache, done, before =>
    if done < length then do
      let position ← add 64 offset done
      let block ← div position v.blockSize
      let start := position % v.blockSize
      let left ← sub v.blockSize start
      let missing ← sub length done
      let count := min left missing
      match ← readBlock v cache block with
      | (.error cause, cache, v) => return (.error cause, cache, v)
      | (.ok data, cache, v) =>
        let bytes ← sliceAt data start count
        let next ← add 64 done count
        if length < next then none
        else copyBlocks offset length turns v cache next (before ++ bytes)
    else some (.ok before, cache, v)

/-- Reads a range. -/
def read (v : Volume MemoryDevice) (route : Route) (offset length : Nat) :
    Option (Outcome ByteArray) :=
  match checkRange v.size offset length with
  | .error cause => some (.error cause, v)
  | .ok () =>
    let v := { v with reads := v.reads + 1 }
    if length = 0 then some (.ok .empty, v)
    else
      match route, v.cache with
      | .cached, some cache => do
        let (result, cache, v) ← copyBlocks offset length length v cache 0 .empty
        return (result, { v with cache := some cache })
      | _, _ => readDirect v offset length

/-- Runs a program on a volume. -/
def run (v : Volume MemoryDevice) : Query (Option α) → Option (Outcome α)
  | .done answer => do
    let a ← answer
    return (.ok a, v)
  | .fail cause => some (.error cause, cause.remark?.elim v v.note)
  | .note remark rest => run (v.note remark) rest
  | .read route offset length rest => do
    match ← read v route offset length with
    | (.error cause, v) => return (.error cause, v)
    | (.ok bytes, v) => run v (rest bytes)

/-! ## Without a fault -/

variable {v : Volume MemoryDevice} {image : ByteArray} {k offset length first count : Nat}

/-- A padded slice, in its two parts. -/
theorem slice_append_zeros {b : ByteArray} {start length : Nat} (hstart : start ≤ b.size) :
    slice b start (min (start + length) b.size - start) ++
        zeros (length - (min (start + length) b.size - start)) = paddedSlice b start length := by
  have hsize : (slice b start length).size = min (start + length) b.size - start := by
    simp only [slice, ByteArray.size_extract]
  have hslice : slice b start (min (start + length) b.size - start) = slice b start length := by
    refine ext_byteAt ?_ fun i hi => ?_
    · rw [hsize, size_slice (by omega)]
    · rw [size_slice (by omega)] at hi
      rw [byteAt_slice hi, byteAt_slice (by omega)]
  rw [hslice, paddedSlice, hsize]

theorem readBlocks_eq (d : MemoryDevice) (first room : Nat) {count : Nat}
    (hend : first * d.blockSize.toNat + count * d.blockSize.toNat < 2 ^ 64) :
    readBlocks d first count room = exact (d.readBlocks first count room) := by
  unfold readBlocks MemoryDevice.readBlocks
  rw [value_bind (mul_of_lt (by omega))]
  simp only
  split
  · rfl
  · split
    · rfl
    · next hstart =>
      obtain ⟨hstart, -⟩ := not_or.mp hstart
      rw [value_bind (add_of_lt hend), value_bind (sub_of_le (by omega)),
        value_bind (sliceAt_of_le (by omega) (by omega)), value_bind (sub_of_le (by omega)),
        pure_eq_exact, slice_append_zeros (by omega)]

section

variable (h : v.Holds image (2 ^ k)) (hk : k < 32) (hsize : image.size < 2 ^ 63)

include h in
theorem transfer_eq (hend : first * 2 ^ k + count * 2 ^ k < 2 ^ 64) :
    transfer v first count = some (v.transfer first count) := by
  have hblock : v.device.blockSize.toNat = 2 ^ k := h.served.blockSize_eq .refl
  rw [transfer, h.blockSize_eq, mul_of_lt (by omega), some_bind,
    readBlocks_eq v.device first _ (by rw [hblock]; exact hend), Volume.transfer_eq,
    h.blockSize_eq]
  rfl

include hk in
theorem blockSize_le : 2 ^ k ≤ 2 ^ 31 := Nat.pow_le_pow_right (by decide) (by omega)

include h hk hsize

theorem readDirect_eq (hlength : 0 < length) (hin : offset + length ≤ image.size) :
    readDirect v offset length = some (v.readDirect offset length) := by
  have hpos : 0 < 2 ^ k := Nat.two_pow_pos k
  have hpow := blockSize_le hk
  have hbase := Nat.div_mul_le_self offset (2 ^ k)
  have hlast := Nat.div_mul_le_self (offset + length + 2 ^ k - 1) (2 ^ k)
  have hle : offset / 2 ^ k ≤ (offset + length + 2 ^ k - 1) / 2 ^ k :=
    Nat.div_le_div_right (by omega)
  have hcover := @Volume.range_le_blocksTouched (2 ^ k) offset length hpos hlength
  have hend : offset / 2 ^ k * 2 ^ k + blocksTouched (2 ^ k) offset length * 2 ^ k < 2 ^ 64 := by
    rw [blocksTouched, Nat.sub_mul]
    omega
  have hfits : offset + length + 2 ^ k ≤ addressLimit := by
    rw [addressLimit]
    omega
  have hdata : ∀ blocks, (v.transfer (offset / 2 ^ k) (blocksTouched (2 ^ k) offset length)).1 =
      .ok blocks → blocks.size = blocksTouched (2 ^ k) offset length * 2 ^ k := by
    intro blocks hblocks
    rw [h.transfer_data hblocks, size_paddedSlice]
  unfold readDirect
  rw [h.blockSize_eq, div_of_pos hpos, some_bind, add_of_lt (by omega), some_bind,
    add_of_lt (by omega), some_bind, sub_of_le (by omega), some_bind, div_of_pos hpos, some_bind,
    sub_of_le hle, some_bind, show (offset + length + 2 ^ k - 1) / 2 ^ k - offset / 2 ^ k =
      blocksTouched (2 ^ k) offset length from rfl]
  by_cases hmany : 2 ^ 32 ≤ blocksTouched (2 ^ k) offset length
  · have hcount : transferBlocks? v.blockSize offset length = none := by
      rw [h.blockSize_eq, transferBlocks?, if_neg (Nat.not_lt.mpr hfits)]
      exact if_neg (Nat.not_lt.mpr hmany)
    rw [if_pos hmany, Volume.readDirect_of_none hcount]
    rfl
  · have hcount : transferBlocks? v.blockSize offset length =
        some (blocksTouched (2 ^ k) offset length) := by
      rw [h.blockSize_eq]
      exact transferBlocks?_eq_some.mpr ⟨hfits, Nat.lt_of_not_le hmany, rfl⟩
    rw [if_neg hmany, Volume.readDirect_of_some hcount, h.blockSize_eq, mul_of_lt (by omega),
      some_bind, sub_of_le hbase, some_bind, transfer_eq h hend, some_bind]
    revert hdata
    rcases v.transfer (offset / 2 ^ k) (blocksTouched (2 ^ k) offset length) with
      ⟨cause | blocks, w⟩
    · intro _
      rfl
    · intro hdata
      have hblocks := hdata blocks rfl
      simp only
      rw [sliceAt_of_le (by omega) (by omega), some_bind]
      rfl

theorem readBlock_eq (cache : BlockCache) {block : Nat} (hblock : block * 2 ^ k < image.size) :
    readBlock v cache block = some (v.readBlock cache block) := by
  have hpow := blockSize_le hk
  unfold readBlock Volume.readBlock
  rcases cache.touch block with ⟨_ | _, cache'⟩
  · simp only
    rw [transfer_eq h (by omega), some_bind]
    rcases v.transfer block 1 with ⟨cause | data, w⟩
    · rfl
    · simp only
      rcases cache'.insert block data with ⟨kept, lost⟩
      rfl
  · rfl

omit h hk hsize in
/-- A range that is there is copied. -/
theorem copyBlocks_length (turns : Nat) (cache : BlockCache) (before : ByteArray) :
    copyBlocks offset length turns v cache length before = some (.ok before, cache, v) := by
  cases turns <;> simp [copyBlocks]

omit h in
/-- One turn of the loop copies the first run of what is left. -/
theorem copyBlocks_turn {turns done count : Nat} {cache : BlockCache} {before : ByteArray}
    (h : v.Holds image (2 ^ k)) (hc : cache.Holds image (2 ^ k))
    (hin : offset + length ≤ image.size) (hdone : done < length)
    (hcount : count = min (2 ^ k - (offset + done) % 2 ^ k) (length - done)) :
    copyBlocks offset length (turns + 1) v cache done before =
      match v.readBlock cache ((offset + done) / 2 ^ k) with
      | (.error cause, cache, v) => some (.error cause, cache, v)
      | (.ok data, cache, v) => copyBlocks offset length turns v cache (done + count)
          (before ++ slice data ((offset + done) % 2 ^ k) count) := by
  have hpos : 0 < 2 ^ k := Nat.two_pow_pos k
  have hpow := blockSize_le hk
  have hbase := Nat.div_add_mod' (offset + done) (2 ^ k)
  have hmod := Nat.mod_lt (offset + done) hpos
  have hblock : (offset + done) / 2 ^ k * 2 ^ k < image.size := by omega
  have hdata := (h.readBlock hc ((offset + done) / 2 ^ k)).2.2
  rw [copyBlocks, if_pos hdone, add_of_lt (by omega), some_bind, h.blockSize_eq, div_of_pos hpos,
    some_bind]
  simp only
  rw [sub_of_le (by omega), some_bind, sub_of_le (by omega), some_bind, ← hcount,
    readBlock_eq h hk hsize cache hblock, some_bind]
  revert hdata
  rcases v.readBlock cache ((offset + done) / 2 ^ k) with ⟨cause | data, cache', w⟩
  · intro _
    rfl
  · intro hdata
    have hlength : data.size = 2 ^ k := by
      rw [hdata data rfl, blockOf, size_paddedSlice]
    simp only
    rw [sliceAt_of_le (by omega) (by omega), some_bind, add_of_lt (by omega), some_bind,
      if_neg (by omega)]

omit h in
/-- So the loop goes over the runs of what is left of the range. -/
theorem copyBlocks_eq {turns done : Nat} {cache : BlockCache} {before : ByteArray}
    (h : v.Holds image (2 ^ k)) (hc : cache.Holds image (2 ^ k))
    (hin : offset + length ≤ image.size) (hdone : done < length) (hturns : length - done ≤ turns) :
    copyBlocks offset length turns v cache done before =
      some (v.readSpans cache before (spans (2 ^ k) (offset + done) (length - done))) := by
  have hpos : 0 < 2 ^ k := Nat.two_pow_pos k
  induction turns generalizing v cache done before with
  | zero => omega
  | succ turns ih =>
    have hmod := Nat.mod_lt (offset + done) hpos
    have hkeep := h.readBlock hc ((offset + done) / 2 ^ k)
    rcases Nat.lt_or_ge (2 ^ k - (offset + done) % 2 ^ k) (length - done) with hlt | hge
    · rw [copyBlocks_turn hk hsize h hc hin hdone (Nat.min_eq_left (Nat.le_of_lt hlt)).symm,
        spans_of_lt hpos hlt, Volume.readSpans]
      revert hkeep
      rcases v.readBlock cache ((offset + done) / 2 ^ k) with ⟨cause | data, cache', w⟩
      · intro _
        rfl
      · rintro ⟨hcache, hw, -⟩
        simp only
        rw [ih hw hcache (by omega) (by omega)]
        simp only [Nat.add_assoc, Nat.sub_sub]
    · rw [copyBlocks_turn hk hsize h hc hin hdone (Nat.min_eq_right hge).symm,
        spans_of_le (by omega) hge, Volume.readSpans]
      rcases v.readBlock cache ((offset + done) / 2 ^ k) with ⟨cause | data, cache', w⟩
      · rfl
      · simp only [Volume.readSpans]
        rw [Nat.add_sub_cancel' (Nat.le_of_lt hdone), copyBlocks_length]

omit h hk hsize in
/-- A read through the cache is the loop. -/
theorem read_of_cached {cache : BlockCache} (hrange : checkRange v.size offset length = .ok ())
    (hlength : 0 < length) (hcache : v.cache = some cache) :
    read v .cached offset length = do
      let r ← copyBlocks offset length length { v with reads := v.reads + 1 } cache 0 .empty
      return (r.1, { r.2.2 with cache := some r.2.1 }) := by
  simp only [read, hrange, if_neg (Nat.ne_of_gt hlength), hcache]

/-- **A read does not fault**, and is the read of the volume. -/
theorem read_eq (route : Route) (offset length : Nat) :
    read v route offset length = some (v.read route offset length) := by
  have hin : checkRange v.size offset length = .ok () → offset + length ≤ image.size := by
    rw [h.size_eq]
    intro hrange
    exact (Volume.checkRange_eq_ok.mp hrange).2
  have hnext := h.counted (v.reads + 1)
  cases v.read_cases route offset length with
  | refused hrange =>
    rw [Volume.read_of_refused hrange]
    simp only [read, hrange]
  | empty hrange =>
    rw [Volume.read_empty hrange]
    simp only [read, hrange, if_true]
  | direct hrange hlength hroute =>
    rw [Volume.read_of_direct hrange hlength hroute,
      ← readDirect_eq hnext hk hsize hlength (hin hrange)]
    simp only [read, hrange, if_neg (Nat.ne_of_gt hlength)]
    cases route with
    | direct => rfl
    | cached => rcases hroute with hroute | hroute <;> simp_all
  | @cached _ _ cache hrange hlength hcache =>
    have hloop : copyBlocks offset length length { v with reads := v.reads + 1 } cache 0 .empty =
        some ({ v with reads := v.reads + 1 }.readSpans cache .empty
          (spans (2 ^ k) offset length)) :=
      copyBlocks_eq hk hsize hnext (h.cached hcache) (hin hrange) hlength (Nat.le_refl _)
    rw [← h.blockSize_eq] at hloop
    rw [Volume.read_of_cached hrange hlength hcache, read_of_cached hrange hlength hcache, hloop]
    rfl

/-- **Programs that match a query run on the volume as the query does**,
without a fault. -/
theorem run_eq {p : Program α} {q : Query α} (hp : Program.Matches image p q) :
    run v p = some (v.ask q) := by
  induction hp generalizing v with
  | done a => rfl
  | fail cause =>
    simp only [run, Volume.ask, Query.attempt, Session.reportFailure]
    cases cause.remark? <;> rfl
  | note remark _ ih => exact ih (h.note remark)
  | read route offset length _ ih =>
    obtain ⟨hkeep, hdata⟩ := h.read_spec route offset length
    rw [run, read_eq h hk hsize, some_bind, Volume.ask, Query.attempt, Volume.perform]
    revert hkeep hdata
    rcases v.read route offset length with ⟨cause | bytes, w⟩
    · intro _ _
      rfl
    · intro hkeep hdata
      exact ih bytes (hdata bytes rfl) hkeep

end

end Erofs.Machine
