import Erofs.Proofs.Volume.Cache
import Erofs.Proofs.Volume.Serving
/-!
# Reading from a volume

A volume on a device that serves an image keeps one invariant through
every call, whatever fails: its cache has nothing but blocks of the image
(`Holds`). Each step of a read keeps it, and what a step that succeeds
hands over are the bytes of the image. If the device delivers the image, a
read answers what the image does (`read_fst`).
-/

namespace Erofs

variable {δ : Type} [BlockDevice δ] {image : ByteArray} {blockSize : Nat}

namespace Volume

/-- What calls can make of a volume. -/
inductive Becomes (v : Volume δ) : Volume δ → Prop
  /-- There was no call. -/
  | refl : Becomes v v
  /-- A range was read, or could not be read. -/
  | read {w : Volume δ} (route : Route) (offset length : Nat) :
      Becomes v w → Becomes v (w.read route offset length).2
  /-- A line was added to the journal. -/
  | note {w : Volume δ} (remark : Remark) : Becomes v w → Becomes v (w.note remark)
  /-- The device was prepared for use. -/
  | attach {w : Volume δ} : Becomes v w → Becomes v w.attach.2
  /-- The cache was emptied, and the use of the device was ended. -/
  | close {w : Volume δ} : Becomes v w → Becomes v w.close.2

/-- What every volume on a device that serves an image keeps. -/
structure Holds (image : ByteArray) (blockSize : Nat) (v : Volume δ) : Prop where
  served : BlockDevice.Serves image blockSize v.device
  /-- The cache, if there is one, has blocks of the image only. -/
  cached {c : BlockCache} : v.cache = some c → c.Holds image blockSize

variable {v w : Volume δ} {cache : BlockCache} {before bytes : ByteArray} {runs : List Span}
variable {route : Route} {offset length first count block : Nat}

/-- A device whose block size is a power of two can be put into use. -/
theorem exists_ofDevice {device : δ}
    (h : 2 ^ (BlockDevice.blockSize device).toNat.log2 = (BlockDevice.blockSize device).toNat)
    (capacity : Nat) (journal : Journal) :
    ∃ v, ofDevice device capacity journal = .ok v ∧ v.device = device ∧ v.transfers = 0 ∧
      v.cache = BlockCache.ofCapacity? capacity (BlockDevice.blockSize device).toNat := by
  unfold ofDevice
  simp only [if_pos h]
  exact ⟨_, rfl, rfl, rfl, rfl⟩

/-! ## A transfer -/

/-- What a transfer makes of what the device hands over. -/
def accept (room : Nat) (t : Transfer) : Except Error ByteArray :=
  if t.reported < room then .error .shortRead else .ok t.data

/-- A transfer changes the device and is counted, whatever comes of it. -/
theorem transfer_eq (v : Volume δ) (first count : Nat) :
    v.transfer first count =
      ((BlockDevice.readBlocks v.device first count (count * v.blockSize)).1.bind
          (accept (count * v.blockSize)),
        { v with
          device := (BlockDevice.readBlocks v.device first count (count * v.blockSize)).2
          transfers := v.transfers + 1 }) := by
  unfold transfer
  simp only
  cases (BlockDevice.readBlocks v.device first count (count * v.blockSize)).1 with
  | error cause => rfl
  | ok t =>
    simp only [Except.bind, accept]
    split <;> rfl

/-- It hands over what the device reports in full. -/
theorem transfer_eq_ok :
    (v.transfer first count).1 = .ok bytes ↔
      ∃ t, (BlockDevice.readBlocks v.device first count (count * v.blockSize)).1 = .ok t ∧
        count * v.blockSize ≤ t.reported ∧ t.data = bytes := by
  rw [transfer_eq]
  cases (BlockDevice.readBlocks v.device first count (count * v.blockSize)).1 with
  | error cause => simp [Except.bind]
  | ok t =>
    simp only [Except.bind, accept, Except.ok.injEq, exists_eq_left']
    split <;> simp <;> omega

namespace Holds

theorem blockSize_eq (h : v.Holds image blockSize) : v.blockSize = blockSize :=
  h.served.blockSize_eq .refl

theorem size_eq (h : v.Holds image blockSize) : v.size = image.size :=
  h.served.size_eq .refl

theorem transfer (h : v.Holds image blockSize) (first count : Nat) :
    (v.transfer first count).2.Holds image blockSize := by
  rw [transfer_eq]
  exact ⟨h.served.of_becomes (.read _ _ _ .refl), h.cached⟩

theorem transfer_data (h : v.Holds image blockSize)
    (ht : (v.transfer first count).1 = .ok bytes) :
    bytes = paddedSlice image (first * blockSize) (count * blockSize) := by
  obtain ⟨t, hread, hfull, rfl⟩ := transfer_eq_ok.mp ht
  rw [h.blockSize_eq] at hread hfull
  exact h.served.data_eq .refl hread hfull

theorem note (h : v.Holds image blockSize) (remark : Remark) :
    (v.note remark).Holds image blockSize :=
  ⟨h.served, h.cached⟩

theorem attach (h : v.Holds image blockSize) : v.attach.2.Holds image blockSize :=
  ⟨h.served.of_becomes (.attach .refl), h.cached⟩

theorem close (h : v.Holds image blockSize) : v.close.2.Holds image blockSize := by
  refine ⟨h.served.of_becomes (.detach .refl), fun {c} hc => ?_⟩
  obtain ⟨old, -, rfl⟩ := Option.map_eq_some_iff.mp hc
  exact .clear old

end Holds

/-! ## Past the cache -/

/-- The blocks that a range touches cover it. -/
theorem range_le_blocksTouched (hpos : 0 < blockSize) (hlength : 0 < length) :
    offset - offset / blockSize * blockSize + length ≤
      blocksTouched blockSize offset length * blockSize := by
  have hdiv := Nat.div_add_mod' offset blockSize
  have hup := Nat.div_add_mod' (offset + length + blockSize - 1) blockSize
  have hmod := Nat.mod_lt (offset + length + blockSize - 1) hpos
  rw [blocksTouched, Nat.sub_mul]
  omega

/-- And lie in every image that has the range. -/
theorem blocksTouched_le (hlength : 0 < length) (hin : offset + length ≤ image.size) :
    offset / blockSize + blocksTouched blockSize offset length ≤ blocksIn image blockSize := by
  have hfirst : offset / blockSize ≤ (offset + length + blockSize - 1) / blockSize :=
    Nat.div_le_div_right (by omega)
  have hlast : (offset + length + blockSize - 1) / blockSize ≤ blocksIn image blockSize :=
    Nat.div_le_div_right (by omega)
  simp only [blocksTouched]
  omega

theorem blocksTouched_pos (hpos : 0 < blockSize) (hlength : 0 < length) :
    0 < blocksTouched blockSize offset length := by
  have h : offset - offset / blockSize * blockSize + length ≤
      blocksTouched blockSize offset length * blockSize := range_le_blocksTouched hpos hlength
  rcases Nat.eq_zero_or_pos (blocksTouched blockSize offset length) with hzero | hcount
  · simp only [hzero] at h
    omega
  · exact hcount

/-- A range of too many blocks is not read past the cache. -/
theorem readDirect_of_none (h : transferBlocks? v.blockSize offset length = none) :
    v.readDirect offset length = (.error .rangeTooLarge, v) := by
  simp only [readDirect, h]

/-- Any other is cut out of one transfer. -/
theorem readDirect_of_some (h : transferBlocks? v.blockSize offset length = some count) :
    v.readDirect offset length =
      ((v.transfer (offset / v.blockSize) count).1.map fun blocks =>
          slice blocks (offset - offset / v.blockSize * v.blockSize) length,
        (v.transfer (offset / v.blockSize) count).2) := by
  simp only [readDirect, h]
  rcases v.transfer (offset / v.blockSize) count with ⟨cause | blocks, w⟩ <;> rfl

namespace Holds

theorem readDirect (h : v.Holds image blockSize) (offset length : Nat) :
    (v.readDirect offset length).2.Holds image blockSize := by
  cases hcount : transferBlocks? v.blockSize offset length with
  | none =>
    rw [readDirect_of_none hcount]
    exact h
  | some count =>
    rw [readDirect_of_some hcount]
    exact h.transfer ..

/-- What is cut out of the transferred blocks is the range. -/
theorem readDirect_data (h : v.Holds image blockSize) (hlength : 0 < length)
    (hin : offset + length ≤ image.size) (hr : (v.readDirect offset length).1 = .ok bytes) :
    bytes = slice image offset length := by
  cases hcount : transferBlocks? v.blockSize offset length with
  | none =>
    rw [readDirect_of_none hcount] at hr
    cases hr
  | some count =>
    rw [readDirect_of_some hcount] at hr
    obtain ⟨-, -, rfl⟩ := transferBlocks?_eq_some.mp hcount
    cases ht : (v.transfer (offset / v.blockSize) (blocksTouched v.blockSize offset length)).1 with
    | error cause =>
      rw [ht] at hr
      cases hr
    | ok blocks =>
      rw [ht] at hr
      cases hr
      have hbase := Nat.div_mul_le_self offset blockSize
      rw [h.transfer_data ht, h.blockSize_eq]
      change slice _ (offset - offset / blockSize * blockSize) length = _
      rw [slice_paddedSlice
        (range_le_blocksTouched h.served.blockSize_pos hlength) (by omega)]
      congr 1
      omega

end Holds

/-! ## Through the cache -/

/-- A block that is in the cache is taken from there. -/
theorem readBlock_of_hit (v : Volume δ) (h : cache.peek? block = some bytes) :
    v.readBlock cache block = (.ok bytes, (cache.touch block).2, v) := by
  have hfound : (cache.touch block).1 = true := by
    rw [BlockCache.touch_fst, BlockCache.contains, h, Option.isSome_some]
  have hbytes := BlockCache.bytesOf_touch h
  unfold readBlock
  revert hfound hbytes
  rcases cache.touch block with ⟨found, cache'⟩
  rintro rfl hbytes
  exact congrArg (·, cache', v) hbytes

/-- Any other is missed, -/
theorem touch_of_miss (h : cache.peek? block = none) :
    cache.touch block = (false, (cache.touch block).2) := by
  refine Prod.ext ?_ rfl
  rw [BlockCache.touch_fst, BlockCache.contains, h, Option.isSome_none]

/-- and nothing is added if its transfer fails. -/
theorem readBlock_of_failed {cause : Error} (h : cache.peek? block = none)
    (ht : v.transfer block 1 = (.error cause, w)) :
    v.readBlock cache block = (.error cause, (cache.touch block).2, w) := by
  rw [readBlock, touch_of_miss h]
  simp only [ht]

/-- Otherwise it is added and found there, whatever has to leave. -/
theorem readBlock_of_transferred (h : cache.peek? block = none)
    (ht : v.transfer block 1 = (.ok bytes, w)) :
    v.readBlock cache block =
      (.ok bytes, ((cache.touch block).2.insert block bytes).1,
        ((cache.touch block).2.insert block bytes).2.elim w fun last =>
          w.note (BlockCache.evicted last)) := by
  rw [readBlock, touch_of_miss h]
  simp only [ht, BlockCache.bytesOf_insert]

/-- The ways in which a block is read through a cache. -/
inductive BlockCase (v : Volume δ) (cache : BlockCache) (block : Nat) : Prop
  /-- It is there. -/
  | hit {bytes : ByteArray} : cache.peek? block = some bytes → BlockCase v cache block
  /-- It is not there, and its transfer fails. -/
  | failed {cause : Error} {w : Volume δ} : cache.peek? block = none →
      v.transfer block 1 = (.error cause, w) → BlockCase v cache block
  /-- It is not there, and put there. -/
  | transferred {bytes : ByteArray} {w : Volume δ} : cache.peek? block = none →
      v.transfer block 1 = (.ok bytes, w) → BlockCase v cache block

theorem block_cases (v : Volume δ) (cache : BlockCache) (block : Nat) :
    v.BlockCase cache block := by
  cases hpeek : cache.peek? block with
  | some bytes => exact .hit hpeek
  | none =>
    rcases ht : v.transfer block 1 with ⟨cause | bytes, w⟩
    · exact .failed hpeek ht
    · exact .transferred hpeek ht

namespace Holds

variable (h : v.Holds image blockSize) (hc : cache.Holds image blockSize)
include h hc

/-- A block comes from the cache or from the device. In both cases it is
the block of the image, and a failed transfer adds nothing. -/
theorem readBlock (block : Nat) :
    (v.readBlock cache block).2.1.Holds image blockSize ∧
      (v.readBlock cache block).2.2.Holds image blockSize ∧
      ∀ bytes, (v.readBlock cache block).1 = .ok bytes →
        bytes = blockOf image blockSize block := by
  have htouch := hc.touch block
  have ht := h.transfer block 1
  cases v.block_cases cache block with
  | hit hpeek =>
    rw [readBlock_of_hit v hpeek]
    refine ⟨htouch, h, fun bytes hb => ?_⟩
    cases hb
    exact hc.peek? hpeek
  | failed hpeek hw =>
    rw [readBlock_of_failed hpeek hw]
    rw [hw] at ht
    exact ⟨htouch, ht, fun bytes hb => by cases hb⟩
  | @transferred data w hpeek hw =>
    have hdata : data = blockOf image blockSize block := by
      rw [h.transfer_data (congrArg Prod.fst hw), Nat.one_mul, blockOf]
    rw [readBlock_of_transferred hpeek hw]
    rw [hw] at ht
    refine ⟨htouch.insert hdata, ?_, fun bytes hb => ?_⟩
    · simp only
      cases ((cache.touch block).2.insert block data).2 with
      | none => exact ht
      | some last => exact ht.note _
    · cases hb
      exact hdata

/-- So reading runs gathers the bytes of the image, as far as it gets. -/
theorem readSpans (before : ByteArray) (runs : List Span) :
    (v.readSpans cache before runs).2.1.Holds image blockSize ∧
      (v.readSpans cache before runs).2.2.Holds image blockSize ∧
      ∀ bytes, (v.readSpans cache before runs).1 = .ok bytes →
        bytes = gathered image blockSize before runs := by
  induction runs generalizing v cache before with
  | nil => exact ⟨hc, h, fun bytes hb => by cases hb; rfl⟩
  | cons run rest ih =>
    have hblock := h.readBlock hc run.block
    rw [Volume.readSpans]
    split
    · next cause cache' w hx =>
      rw [hx] at hblock
      exact ⟨hblock.1, hblock.2.1, fun bytes hb => by cases hb⟩
    · next data cache' w hx =>
      rw [hx] at hblock
      obtain ⟨hcache, hw, hdata⟩ := hblock
      have hrest := ih hw hcache (before ++ slice data run.start run.length)
      refine ⟨hrest.1, hrest.2.1, fun bytes hb => ?_⟩
      rw [hrest.2.2 bytes hb, hdata data rfl]
      rfl

end Holds

/-! ## A read -/

/-- A range that is refused changes nothing. -/
theorem read_of_refused {cause : Error} (h : checkRange v.size offset length = .error cause) :
    v.read route offset length = (.error cause, v) := by
  simp only [read, h]

theorem read_empty (h : checkRange v.size offset 0 = .ok ()) :
    v.read route offset 0 = (.ok .empty, { v with reads := v.reads + 1 }) := by
  simp only [read, h, if_true]

/-- A read on the direct route, or without a cache, goes past the cache. -/
theorem read_of_direct (h : checkRange v.size offset length = .ok ()) (hlength : 0 < length)
    (hroute : route = .direct ∨ v.cache = none) :
    v.read route offset length = { v with reads := v.reads + 1 }.readDirect offset length := by
  simp only [read, h, if_neg (Nat.ne_of_gt hlength)]
  cases route with
  | direct => rfl
  | cached => rcases hroute with hroute | hroute <;> simp_all

/-- Any other read goes through it. -/
theorem read_of_cached (h : checkRange v.size offset length = .ok ()) (hlength : 0 < length)
    (hcache : v.cache = some cache) :
    v.read .cached offset length =
      let r := { v with reads := v.reads + 1 }.readSpans cache .empty
        (spans v.blockSize offset length)
      (r.1, { r.2.2 with cache := some r.2.1 }) := by
  simp only [read, h, if_neg (Nat.ne_of_gt hlength), hcache]
  rfl

theorem checkRange_eq_ok {size : Nat} :
    checkRange size offset length = .ok () ↔
      offset + length < addressLimit ∧ offset + length ≤ size := by
  unfold checkRange
  grind

/-- The ways in which a read goes. -/
inductive ReadCase (v : Volume δ) : Route → Nat → Nat → Prop
  | refused {route : Route} {offset length : Nat} {cause : Error} :
      checkRange v.size offset length = .error cause → ReadCase v route offset length
  | empty {route : Route} {offset : Nat} :
      checkRange v.size offset 0 = .ok () → ReadCase v route offset 0
  | direct {route : Route} {offset length : Nat} :
      checkRange v.size offset length = .ok () → 0 < length →
      route = .direct ∨ v.cache = none → ReadCase v route offset length
  | cached {offset length : Nat} {cache : BlockCache} :
      checkRange v.size offset length = .ok () → 0 < length →
      v.cache = some cache → ReadCase v .cached offset length

theorem read_cases (v : Volume δ) (route : Route) (offset length : Nat) :
    v.ReadCase route offset length := by
  cases hrange : checkRange v.size offset length with
  | error cause => exact .refused hrange
  | ok checked =>
    rcases Nat.eq_zero_or_pos length with rfl | hlength
    · exact .empty hrange
    · cases route with
      | direct => exact .direct hrange hlength (.inl rfl)
      | cached =>
        cases hcache : v.cache with
        | none => exact .direct hrange hlength (.inr hcache)
        | some cache => exact .cached hrange hlength hcache

/-- A volume that has been asked one more time. -/
theorem Holds.counted (h : v.Holds image blockSize) (reads : Nat) :
    { v with reads }.Holds image blockSize :=
  ⟨h.served, h.cached⟩

namespace Holds

/-- **A read keeps the invariant, and what it answers are the bytes of the
image.** -/
theorem read_spec (h : v.Holds image blockSize) (route : Route) (offset length : Nat) :
    (v.read route offset length).2.Holds image blockSize ∧
      ∀ bytes, (v.read route offset length).1 = .ok bytes →
        imageRange image offset length = .ok bytes := by
  have hin : checkRange v.size offset length = .ok () →
      offset + length < addressLimit ∧ offset + length ≤ image.size := by
    rw [h.size_eq]
    exact checkRange_eq_ok.mp
  cases v.read_cases route offset length with
  | refused hrange =>
    rw [read_of_refused hrange]
    exact ⟨h, fun bytes hb => by cases hb⟩
  | empty hrange =>
    rw [read_empty hrange]
    refine ⟨h.counted _, fun bytes hb => imageRange_eq_ok.mpr ⟨(hin hrange).1, (hin hrange).2, ?_⟩⟩
    cases hb
    rw [slice_zero]
  | direct hrange hlength hroute =>
    rw [read_of_direct hrange hlength hroute]
    obtain ⟨hlimit, hsize⟩ := hin hrange
    exact ⟨(h.counted _).readDirect .., fun bytes hb =>
      imageRange_eq_ok.mpr ⟨hlimit, hsize, (h.counted _).readDirect_data hlength hsize hb⟩⟩
  | cached hrange hlength hcache =>
    rw [read_of_cached hrange hlength hcache]
    obtain ⟨hlimit, hsize⟩ := hin hrange
    obtain ⟨hc, hw, hdata⟩ := (h.counted (v.reads + 1)).readSpans (h.cached hcache) .empty
      (spans v.blockSize offset length)
    refine ⟨⟨hw.served, fun hx => by cases hx; exact hc⟩,
      fun bytes hb => imageRange_eq_ok.mpr ⟨hlimit, hsize, ?_⟩⟩
    rw [hdata bytes hb, h.blockSize_eq, gathered_spans h.served.blockSize_pos hlength hsize,
      ByteArray.empty_append]

/-- Every call keeps the invariant. -/
theorem of_becomes (h : v.Holds image blockSize) (hb : v.Becomes w) : w.Holds image blockSize := by
  induction hb with
  | refl => exact h
  | read route offset length _ ih => exact (ih.read_spec route offset length).1
  | note remark _ ih => exact ih.note remark
  | attach _ ih => exact ih.attach
  | close _ ih => exact ih.close

end Holds

/-! ## A device that does not fail -/

theorem transfer_device (v : Volume δ) (first count : Nat) :
    BlockDevice.Becomes v.device (v.transfer first count).2.device := by
  rw [transfer_eq]
  exact .read _ _ _ .refl

theorem readBlock_device (v : Volume δ) (cache : BlockCache) (block : Nat) :
    BlockDevice.Becomes v.device (v.readBlock cache block).2.2.device := by
  have ht := v.transfer_device block 1
  cases v.block_cases cache block with
  | hit hpeek =>
    rw [readBlock_of_hit v hpeek]
    exact .refl
  | failed hpeek hw =>
    rw [readBlock_of_failed hpeek hw]
    rwa [hw] at ht
  | @transferred data w hpeek hw =>
    rw [readBlock_of_transferred hpeek hw]
    rw [hw] at ht
    simp only
    cases ((cache.touch block).2.insert block data).2 with
    | none => exact ht
    | some last => exact ht

theorem readSpans_device (v : Volume δ) (cache : BlockCache) (before : ByteArray)
    (runs : List Span) :
    BlockDevice.Becomes v.device (v.readSpans cache before runs).2.2.device := by
  induction runs generalizing v cache before with
  | nil => exact .refl
  | cons run rest ih =>
    have hblock := v.readBlock_device cache run.block
    rw [readSpans]
    split
    · next hx => rwa [hx] at hblock
    · next hx =>
      rw [hx] at hblock
      exact hblock.trans (ih ..)

theorem readDirect_device (v : Volume δ) (offset length : Nat) :
    BlockDevice.Becomes v.device (v.readDirect offset length).2.device := by
  cases hcount : transferBlocks? v.blockSize offset length with
  | none =>
    rw [readDirect_of_none hcount]
    exact .refl
  | some count =>
    rw [readDirect_of_some hcount]
    exact v.transfer_device ..

theorem read_device (v : Volume δ) (route : Route) (offset length : Nat) :
    BlockDevice.Becomes v.device (v.read route offset length).2.device := by
  unfold Volume.read
  split
  · exact .refl
  · simp only
    split
    · exact .refl
    · split
      · exact readSpans_device { v with reads := v.reads + 1 } ..
      · exact readDirect_device { v with reads := v.reads + 1 } ..

/-- Whatever becomes of a volume, its device has only been used. -/
theorem Becomes.device (h : v.Becomes w) : BlockDevice.Becomes v.device w.device := by
  induction h with
  | refl => exact .refl
  | read route offset length _ ih => exact ih.trans (read_device ..)
  | note _ _ ih => exact ih
  | attach _ ih => exact .attach ih
  | close _ ih => exact .detach ih

namespace Holds

variable (h : v.Holds image blockSize) (hd : BlockDevice.Delivers image blockSize v.device)
include h hd

theorem transfer_fst (hcount : 0 < count) (hin : first + count ≤ blocksIn image blockSize)
    (hlimit : first * blockSize < addressLimit) :
    (v.transfer first count).1 =
      .ok (paddedSlice image (first * blockSize) (count * blockSize)) := by
  obtain ⟨t, ht, hfull⟩ := hd.delivers .refl hcount hin hlimit
  rw [transfer_eq_ok, h.blockSize_eq]
  exact ⟨t, ht, hfull, hd.data_eq .refl ht hfull⟩

/-- Every range of the image is read past the cache, if there are not too
many blocks to transfer. -/
theorem readDirect_fst (hlength : 0 < length) (hin : offset + length ≤ image.size)
    (hlimit : offset + length < addressLimit)
    (hcount : transferBlocks? blockSize offset length = some count) :
    (v.readDirect offset length).1 = .ok (slice image offset length) := by
  obtain ⟨-, -, rfl⟩ := transferBlocks?_eq_some.mp hcount
  have hbase := Nat.div_mul_le_self offset blockSize
  have ht := h.transfer_fst hd (blocksTouched_pos h.served.blockSize_pos hlength)
    (blocksTouched_le hlength hin) (by omega)
  rw [← h.blockSize_eq] at hcount
  obtain ⟨bytes, hok⟩ : ∃ bytes, (v.readDirect offset length).1 = .ok bytes := by
    rw [readDirect_of_some hcount, h.blockSize_eq, ht]
    exact ⟨_, rfl⟩
  rw [hok, h.readDirect_data hlength hin hok]

/-- So is every block of it through the cache. -/
theorem readBlock_fst (hc : cache.Holds image blockSize) (hin : block < blocksIn image blockSize)
    (hlimit : block * blockSize < addressLimit) :
    (v.readBlock cache block).1 = .ok (blockOf image blockSize block) := by
  have ht := h.transfer_fst hd Nat.one_pos hin hlimit
  have hbytes := (h.readBlock hc block).2.2
  cases v.block_cases cache block with
  | hit hpeek =>
    rw [readBlock_of_hit v hpeek] at hbytes ⊢
    rw [hbytes _ rfl]
  | failed hpeek hw =>
    rw [hw] at ht
    cases ht
  | transferred hpeek hw =>
    rw [readBlock_of_transferred hpeek hw] at hbytes ⊢
    rw [hbytes _ rfl]

theorem readSpans_fst (hc : cache.Holds image blockSize) (before : ByteArray)
    (hin : ∀ run ∈ runs,
      run.block < blocksIn image blockSize ∧ run.block * blockSize < addressLimit) :
    (v.readSpans cache before runs).1 = .ok (gathered image blockSize before runs) := by
  induction runs generalizing v cache before with
  | nil => rfl
  | cons run rest ih =>
    obtain ⟨hrun, hlimit⟩ := hin run List.mem_cons_self
    have hfst := h.readBlock_fst hd hc hrun hlimit
    have hkeep := h.readBlock hc run.block
    have hdevice := hd.of_becomes (v.readBlock_device cache run.block)
    rw [Volume.readSpans]
    split
    · next hx => simp [hx] at hfst
    · next data cache' w hx =>
      rw [hx] at hfst hkeep hdevice
      cases hfst
      exact ih hkeep.2.1 hdevice hkeep.1 _ fun run hmem => hin run (List.mem_cons_of_mem _ hmem)

/-- **A read answers what the image does.** Only for a read past the cache
must there not be too many blocks to transfer. -/
theorem read_fst (hfew : route = .direct ∨ v.cache = none → offset + length ≤ image.size →
      ∃ count, transferBlocks? blockSize offset length = some count) :
    (v.read route offset length).1 = imageRange image offset length := by
  have himage : checkRange v.size offset length = .ok () →
      offset + length < addressLimit ∧ offset + length ≤ image.size ∧
        imageRange image offset length = .ok (slice image offset length) := by
    rw [h.size_eq]
    intro hrange
    obtain ⟨hlimit, hsize⟩ := checkRange_eq_ok.mp hrange
    exact ⟨hlimit, hsize, imageRange_eq_ok.mpr ⟨hlimit, hsize, rfl⟩⟩
  cases v.read_cases route offset length with
  | refused hrange =>
    rw [read_of_refused hrange, imageRange, ← h.size_eq, hrange]
    rfl
  | empty hrange =>
    rw [read_empty hrange, (himage hrange).2.2, slice_zero]
  | direct hrange hlength hroute =>
    obtain ⟨hlimit, hsize, himage⟩ := himage hrange
    obtain ⟨count, hcount⟩ := hfew hroute hsize
    rw [read_of_direct hrange hlength hroute, himage]
    exact (h.counted (v.reads + 1)).readDirect_fst hd hlength hsize hlimit hcount
  | cached hrange hlength hcache =>
    obtain ⟨hlimit, hsize, himage⟩ := himage hrange
    have hpos := h.served.blockSize_pos
    have hblocks : ∀ run ∈ spans blockSize offset length,
        run.block < blocksIn image blockSize ∧ run.block * blockSize < addressLimit := by
      intro run hmem
      have hlt := block_lt_of_mem_spans hmem
      exact ⟨Nat.lt_of_lt_of_le hlt (Nat.div_le_div_right (by omega)),
        Nat.lt_trans (mul_lt_of_lt_blocks hpos hlt) hlimit⟩
    have hspans := (h.counted (v.reads + 1)).readSpans_fst hd (h.cached hcache) .empty hblocks
    rw [← h.blockSize_eq] at hspans
    rw [read_of_cached hrange hlength hcache, himage, hspans, h.blockSize_eq,
      gathered_spans hpos hlength hsize, ByteArray.empty_append]

end Holds

end Volume

end Erofs
