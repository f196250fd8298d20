import Erofs.Proofs.Volume.Reading
/-!
# What a read asks of its device

A recorder is a device that also keeps what came of every request for
blocks. A volume answers the same on it (`recorded_read`), so the requests
that a read makes are those on the record. Of these at most the last is no
good, and then it is what the read reports: no failure is passed over, and
no block of such a request gets into the cache (`failed_of_deliveries`).
What each step of a read asks for can be told from the volume alone
(`blockDeliveries`, `spanDeliveries`, `directDeliveries`).
-/

namespace Erofs

variable {δ : Type} [BlockDevice δ]

/-- A request for blocks, and what came of it. -/
structure Delivery where
  first : Nat
  count : Nat
  room : Nat
  outcome : Except Error Transfer

/-- Why a delivery is no good: the device failed, or it reported fewer
bytes than it was asked for. -/
def Delivery.failure? (d : Delivery) : Option Error :=
  match d.outcome with
  | .error cause => some cause
  | .ok handed => if handed.reported < d.room then some .shortRead else none

/-- A device with the record of its deliveries, the oldest first. -/
structure Recorder (δ : Type) where
  device : δ
  deliveries : List Delivery

instance : BlockDevice (Recorder δ) where
  blockSize r := BlockDevice.blockSize r.device
  totalBlocks r := BlockDevice.totalBlocks r.device
  size r := BlockDevice.size r.device
  readBlocks r first count room :=
    let (outcome, device) := BlockDevice.readBlocks r.device first count room
    (outcome, ⟨device, r.deliveries ++ [⟨first, count, room, outcome⟩]⟩)
  attach r :=
    let (result, device) := BlockDevice.attach r.device
    (result, { r with device })
  detach r :=
    let (result, device) := BlockDevice.detach r.device
    (result, { r with device })

namespace Volume

variable {v : Volume δ} {before : List Delivery} {cause : Error}

omit [BlockDevice δ] in
/-- A volume on a recorder of its device, with some deliveries on the
record. -/
def recorded (v : Volume δ) (before : List Delivery) : Volume (Recorder δ) where
  device := ⟨v.device, before⟩
  reads := v.reads
  transfers := v.transfers
  cache := v.cache
  journal := v.journal

/-- The deliveries that a read asks for. -/
def deliveries (v : Volume δ) (route : Route) (offset length : Nat) : List Delivery :=
  ((v.recorded []).read route offset length).2.device.deliveries

/-- The delivery that a transfer asks for. -/
def delivery (v : Volume δ) (first count : Nat) : Delivery :=
  let room := count * v.blockSize
  ⟨first, count, room, (BlockDevice.readBlocks v.device first count room).1⟩

/-- The deliveries that a read past the cache asks for: one at most. -/
def directDeliveries (v : Volume δ) (offset length : Nat) : List Delivery :=
  (transferBlocks? v.blockSize offset length).toList.map (v.delivery (offset / v.blockSize))

/-- Those that the read of a block through a cache asks for: one for a block
that is missed. -/
def blockDeliveries (v : Volume δ) (cache : BlockCache) (block : Nat) : List Delivery :=
  if cache.contains block then [] else [v.delivery block 1]

/-- Those that reading some runs through a cache asks for. -/
def spanDeliveries (v : Volume δ) (cache : BlockCache) : List Span → List Delivery
  | [] => []
  | span :: rest =>
    v.blockDeliveries cache span.block ++
      match v.readBlock cache span.block with
      | (.error _, _, _) => []
      | (.ok _, cache, v) => v.spanDeliveries cache rest

/-! ## The steps of a read on a recorder -/

/-- A transfer fails exactly if its delivery is no good. -/
theorem transfer_eq_error {first count : Nat} :
    (v.transfer first count).1 = .error cause ↔
      (v.delivery first count).failure? = some cause := by
  simp only [transfer_eq, delivery, Delivery.failure?]
  cases (BlockDevice.readBlocks v.device first count (count * v.blockSize)).1 with
  | error cause => simp [Except.bind]
  | ok handed =>
    simp only [Except.bind, accept]
    split <;> simp [*]

/-- It is the one on the record. -/
theorem recorded_transfer (v : Volume δ) (before : List Delivery) (first count : Nat) :
    (v.recorded before).transfer first count =
      ((v.transfer first count).1,
        (v.transfer first count).2.recorded (before ++ [v.delivery first count])) := by
  rw [transfer_eq, transfer_eq]
  rfl

theorem recorded_readDirect (v : Volume δ) (before : List Delivery) (offset length : Nat) :
    (v.recorded before).readDirect offset length =
      ((v.readDirect offset length).1,
        (v.readDirect offset length).2.recorded (before ++ v.directDeliveries offset length)) := by
  unfold directDeliveries
  cases hcount : transferBlocks? v.blockSize offset length with
  | none =>
    rw [readDirect_of_none hcount, readDirect_of_none (v := v.recorded before) hcount]
    simp only [Option.toList_none, List.map_nil, List.append_nil]
  | some count =>
    have ht := v.recorded_transfer before (offset / v.blockSize) count
    rw [readDirect_of_some hcount, readDirect_of_some (v := v.recorded before) hcount]
    exact congrArg (fun r => (r.1.map fun blocks =>
      slice blocks (offset - offset / v.blockSize * v.blockSize) length, r.2)) ht

theorem recorded_readBlock (v : Volume δ) (before : List Delivery) (cache : BlockCache)
    (block : Nat) :
    (v.recorded before).readBlock cache block =
      ((v.readBlock cache block).1, (v.readBlock cache block).2.1,
        (v.readBlock cache block).2.2.recorded (before ++ v.blockDeliveries cache block)) := by
  have ht := v.recorded_transfer before block 1
  unfold blockDeliveries BlockCache.contains
  cases v.block_cases cache block with
  | hit hpeek =>
    rw [readBlock_of_hit v hpeek, readBlock_of_hit _ hpeek, hpeek, Option.isSome_some, if_pos rfl,
      List.append_nil]
  | failed hpeek hw =>
    rw [hw] at ht
    rw [readBlock_of_failed hpeek hw, readBlock_of_failed hpeek ht, hpeek]
    rfl
  | @transferred data w hpeek hw =>
    rw [hw] at ht
    rw [readBlock_of_transferred hpeek hw, readBlock_of_transferred hpeek ht, hpeek]
    cases ((cache.touch block).2.insert block data).2 with
    | none => rfl
    | some last => rfl

theorem recorded_readSpans (v : Volume δ) (before : List Delivery) (cache : BlockCache)
    (sofar : ByteArray) (runs : List Span) :
    (v.recorded before).readSpans cache sofar runs =
      ((v.readSpans cache sofar runs).1, (v.readSpans cache sofar runs).2.1,
        (v.readSpans cache sofar runs).2.2.recorded (before ++ v.spanDeliveries cache runs)) := by
  induction runs generalizing v before cache sofar with
  | nil => simp only [readSpans, spanDeliveries, List.append_nil]
  | cons run rest ih =>
    simp only [readSpans, spanDeliveries, v.recorded_readBlock before cache run.block]
    rcases v.readBlock cache run.block with ⟨cause | data, cache', w⟩
    · simp only [List.append_nil]
    · simp only [ih, List.append_assoc]

/-! ## A read on a recorder -/

/-- A range that is refused is not asked for. -/
theorem deliveries_of_refused {route : Route} {offset length : Nat}
    (h : checkRange v.size offset length = .error cause) :
    v.deliveries route offset length = [] := by
  rw [deliveries, read_of_refused (v := v.recorded []) h]
  rfl

theorem deliveries_empty {route : Route} {offset : Nat}
    (h : checkRange v.size offset 0 = .ok ()) : v.deliveries route offset 0 = [] := by
  rw [deliveries, read_empty (v := v.recorded []) h]
  rfl

theorem deliveries_of_direct {route : Route} {offset length : Nat}
    (h : checkRange v.size offset length = .ok ()) (hlength : 0 < length)
    (hroute : route = .direct ∨ v.cache = none) :
    v.deliveries route offset length = v.directDeliveries offset length := by
  rw [deliveries, read_of_direct (v := v.recorded []) h hlength hroute]
  exact congrArg (fun r => r.2.device.deliveries)
    (recorded_readDirect { v with reads := v.reads + 1 } [] offset length)

theorem deliveries_of_cached {offset length : Nat} {cache : BlockCache}
    (h : checkRange v.size offset length = .ok ()) (hlength : 0 < length)
    (hcache : v.cache = some cache) :
    v.deliveries .cached offset length =
      { v with reads := v.reads + 1 }.spanDeliveries cache (spans v.blockSize offset length) := by
  rw [deliveries, read_of_cached (v := v.recorded []) h hlength hcache]
  exact congrArg (fun r => r.2.2.device.deliveries)
    (recorded_readSpans { v with reads := v.reads + 1 } [] cache .empty _)

/-- **On a recorder a volume answers the same**, and its deliveries are
put on the record. -/
theorem recorded_read (v : Volume δ) (before : List Delivery) (route : Route)
    (offset length : Nat) :
    (v.recorded before).read route offset length =
      ((v.read route offset length).1,
        (v.read route offset length).2.recorded
          (before ++ v.deliveries route offset length)) := by
  cases v.read_cases route offset length with
  | refused hrange =>
    rw [read_of_refused hrange, read_of_refused (v := v.recorded before) hrange,
      deliveries_of_refused hrange, List.append_nil]
  | empty hrange =>
    rw [read_empty hrange, read_empty (v := v.recorded before) hrange, deliveries_empty hrange,
      List.append_nil]
    rfl
  | direct hrange hlength hroute =>
    rw [read_of_direct hrange hlength hroute,
      read_of_direct (v := v.recorded before) hrange hlength hroute,
      deliveries_of_direct hrange hlength hroute]
    exact recorded_readDirect { v with reads := v.reads + 1 } before offset length
  | cached hrange hlength hcache =>
    rw [read_of_cached hrange hlength hcache,
      read_of_cached (v := v.recorded before) hrange hlength hcache,
      deliveries_of_cached hrange hlength hcache]
    exact congrArg (fun r => (r.1, { r.2.2 with cache := some r.2.1 }))
      (recorded_readSpans { v with reads := v.reads + 1 } before _ .empty _)

/-! ## Deliveries that are no good -/

/-- A delivery of a read past the cache that is no good is its answer. -/
theorem readDirect_of_failure {offset length : Nat} {d : Delivery}
    (hd : d ∈ v.directDeliveries offset length) (hcause : d.failure? = some cause) :
    (v.readDirect offset length).1 = .error cause := by
  unfold directDeliveries at hd
  cases hcount : transferBlocks? v.blockSize offset length with
  | none =>
    rw [hcount] at hd
    cases hd
  | some count =>
    rw [hcount] at hd
    obtain rfl := List.mem_singleton.mp hd
    rw [readDirect_of_some hcount, transfer_eq_error.mpr hcause]
    rfl

/-- One of the read of a block is the answer too, and the block is not there
afterwards. -/
theorem readBlock_of_failure {cache : BlockCache} {block : Nat} {d : Delivery}
    (hd : d ∈ v.blockDeliveries cache block) :
    d.first = block ∧ d.count = 1 ∧ ∀ cause, d.failure? = some cause →
      (v.readBlock cache block).1 = .error cause ∧
        (v.readBlock cache block).2.1.peek? block = none := by
  unfold blockDeliveries at hd
  split at hd
  · cases hd
  · next hout =>
    obtain rfl := List.mem_singleton.mp hd
    refine ⟨rfl, rfl, fun cause hcause => ?_⟩
    have hpeek : cache.peek? block = none := by simpa [BlockCache.contains] using hout
    have ht := transfer_eq_error.mpr hcause
    rw [readBlock_of_failed hpeek (Prod.ext ht rfl)]
    exact ⟨rfl, BlockCache.peek?_touch_of_none hpeek⟩

theorem readSpans_of_failure {cache : BlockCache} {sofar : ByteArray} {runs : List Span}
    {d : Delivery} (hd : d ∈ v.spanDeliveries cache runs) :
    d.count = 1 ∧ ∀ cause, d.failure? = some cause →
      (v.readSpans cache sofar runs).1 = .error cause ∧
        (v.readSpans cache sofar runs).2.1.peek? d.first = none := by
  induction runs generalizing v cache sofar with
  | nil => cases hd
  | cons run rest ih =>
    have hblock : d ∈ v.blockDeliveries cache run.block → _ := readBlock_of_failure
    simp only [spanDeliveries, List.mem_append] at hd
    rw [readSpans]
    revert hblock hd
    rcases v.readBlock cache run.block with ⟨_ | data, cache', w⟩
    · intro hblock hd
      obtain ⟨hfirst, hcount, hfail⟩ := hblock (hd.resolve_right List.not_mem_nil)
      exact ⟨hcount, fun cause hcause => hfirst ▸ hfail cause hcause⟩
    · intro hblock hd
      rcases hd with hd | hd
      · -- the block was handed over, so its delivery was good
        obtain ⟨-, hcount, hfail⟩ := hblock hd
        exact ⟨hcount, fun cause hcause => by cases (hfail cause hcause).1⟩
      · exact ih hd

/-- What a failed delivery leaves of a read: its cause is the answer, and
the blocks asked for are not in the cache, or it is the cache of before. -/
structure Failed (v : Volume δ) (route : Route) (offset length : Nat) (d : Delivery)
    (cause : Error) : Prop where
  answer : (v.read route offset length).1 = .error cause
  /-- Past the cache, nothing gets into it. -/
  direct : route = .direct → (v.read route offset length).2.cache = v.cache
  /-- Through the cache, the blocks that were asked for are not in it. -/
  cached {c : BlockCache} {block : Nat} : route = .cached →
    (v.read route offset length).2.cache = some c →
    d.first ≤ block → block < d.first + d.count → c.contains block = false

theorem readDirect_cache (v : Volume δ) (offset length : Nat) :
    (v.readDirect offset length).2.cache = v.cache := by
  cases hcount : transferBlocks? v.blockSize offset length with
  | none => rw [readDirect_of_none hcount]
  | some count => rw [readDirect_of_some hcount, transfer_eq]

/-- **A delivery that is no good is what the read reports.** -/
theorem failed_of_deliveries {route : Route} {offset length : Nat} {d : Delivery}
    (hd : d ∈ v.deliveries route offset length) (hcause : d.failure? = some cause) :
    v.Failed route offset length d cause := by
  cases v.read_cases route offset length with
  | refused hrange =>
    rw [deliveries_of_refused hrange] at hd
    cases hd
  | empty hrange =>
    rw [deliveries_empty hrange] at hd
    cases hd
  | direct hrange hlength hroute =>
    rw [deliveries_of_direct hrange hlength hroute] at hd
    have heq := read_of_direct hrange hlength hroute
    have hcache : (v.read route offset length).2.cache = v.cache := by
      rw [heq, readDirect_cache]
    refine ⟨?_, fun _ => hcache, fun {c block} hcached hc => ?_⟩
    · rw [heq]
      exact readDirect_of_failure hd hcause
    · rw [hcache] at hc
      rcases hroute with rfl | hnone
      · cases hcached
      · cases hnone.symm.trans hc
  | cached hrange hlength hcache =>
    rw [deliveries_of_cached hrange hlength hcache] at hd
    have heq := read_of_cached hrange hlength hcache
    obtain ⟨hcount, hfail⟩ := readSpans_of_failure hd
    obtain ⟨hanswer, hgone⟩ := hfail cause hcause
    refine ⟨by rw [heq]; exact hanswer, (nomatch ·), fun {c block} _ hc hle hlt => ?_⟩
    rw [heq] at hc
    cases hc
    obtain rfl : block = d.first := by omega
    simp only [BlockCache.contains, hgone, Option.isSome_none]

end Volume

end Erofs
