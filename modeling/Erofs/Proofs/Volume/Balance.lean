import Mathlib.Data.Finset.Card
import Mathlib.Data.List.Dedup
import Erofs.Proofs.Volume.Faults
import Erofs.Proofs.Volume.Recency
/-!
# The counts of a volume

A volume counts its reads and its transfers, and its cache counts accesses,
hits, misses and evictions. They are counted at different points of a read,
which may fail between them. All the same they balance after any operations
on any device (`balances_ofDevice`). Each of the blocks that were missed is in
the cache, was evicted, was dropped by a close, or never came
(`BlockCache.Grows`).
-/

namespace Erofs

/-! ## Caches -/

namespace BlockCache

variable {c d e : BlockCache} {block : Nat} {data : ByteArray} {missed lost more gone : Nat}

theorem contains_iff : c.contains block ↔ block ∈ c.blocks := by
  rw [contains, ← not_iff_not, Bool.not_eq_true, Option.isSome_eq_false_iff,
    Option.isNone_iff_eq_none, peek?, List.lookup_eq_none_iff, blocks, List.mem_map]
  constructor
  · rintro hnone ⟨entry, hmem, rfl⟩
    simpa using hnone entry hmem
  · intro hout entry hmem
    simp only [bne_iff_ne]
    rintro rfl
    exact hout ⟨entry, hmem, rfl⟩

theorem peek?_eq_none : c.peek? block = none ↔ block ∉ c.blocks := by
  rw [← contains_iff, contains, Bool.not_eq_true, Option.isSome_eq_false_iff,
    Option.isNone_iff_eq_none]

/-- The other blocks. -/
theorem map_others (c : BlockCache) (block : Nat) :
    (c.others block).map Prod.fst = c.blocks.filter (· != block) := by
  rw [others, blocks, List.filter_map]
  rfl

theorem others_of_not_mem (h : block ∉ c.blocks) : c.others block = c.entries := by
  refine List.filter_eq_self.mpr fun entry hmem => ?_
  simp only [bne_iff_ne]
  rintro rfl
  exact h (List.mem_map_of_mem hmem)

/-- What is true of every cache in use. -/
structure Sound (c : BlockCache) : Prop where
  /-- There is room for one block at least. -/
  pos : 0 < c.capacity
  /-- No block is there twice. -/
  nodup : c.blocks.Nodup
  /-- The number of blocks that was noted is the right one. -/
  used_eq : c.used = c.blocks.length
  used_le : c.used ≤ c.capacity
  /-- Every access was a hit or a miss. -/
  accesses_eq : c.accesses = c.hits + c.misses

/-- A cache after some more misses. Some of the blocks that were missed are
lost, because the device did not hand them over. The others came into the
cache, and each of them added to its blocks or pushed one out. -/
structure Grows (missed lost : Nat) (c d : BlockCache) : Prop where
  sound : d.Sound
  capacity_eq : d.capacity = c.capacity
  misses_eq : d.misses = c.misses + missed
  balance : d.used + d.evictions + lost = c.used + c.evictions + missed

theorem Grows.refl (h : c.Sound) : c.Grows 0 0 c := ⟨h, rfl, rfl, rfl⟩

theorem Grows.trans (h : c.Grows missed lost d) (h' : d.Grows more gone e) :
    c.Grows (missed + more) (lost + gone) e where
  sound := h'.sound
  capacity_eq := h'.capacity_eq.trans h.capacity_eq
  misses_eq := by
    rw [h'.misses_eq, h.misses_eq, Nat.add_assoc]
  balance := by
    have hfirst := h.balance
    have hsecond := h'.balance
    omega

namespace Sound

/-- A new cache. -/
theorem ofCapacity? {capacity blockSize : Nat}
    (h : BlockCache.ofCapacity? capacity blockSize = some c) :
    c.Sound ∧ c.capacity = capacity ∧ c.misses = 0 ∧ c.used = 0 ∧ c.evictions = 0 := by
  unfold BlockCache.ofCapacity? at h
  split at h
  · cases h
  · next hpos =>
    cases h
    exact ⟨⟨Nat.pos_of_ne_zero hpos, List.nodup_nil, rfl, Nat.zero_le _, rfl⟩, rfl, rfl, rfl, rfl⟩

theorem clear (h : c.Sound) : c.clear.Sound :=
  ⟨h.pos, List.nodup_nil, rfl, Nat.zero_le _, h.accesses_eq⟩

/-- A hit moves a block to the front. -/
theorem touch_of_some (h : c.Sound) (hpeek : c.peek? block = some data) :
    c.Grows 0 0 (c.touch block).2 := by
  have hmem : block ∈ c.blocks := List.mem_map_of_mem (mem_of_peek? hpeek)
  have hothers : (c.others block).map Prod.fst = c.blocks.erase block := by
    rw [map_others, h.nodup.erase_eq_filter]
  have hblocks : (((block, data) :: c.others block).map Prod.fst).length = c.blocks.length := by
    rw [List.map_cons, hothers, List.length_cons, List.length_erase_add_one hmem]
  have hnodup : (((block, data) :: c.others block).map Prod.fst).Nodup := by
    rw [List.map_cons, hothers, List.nodup_cons]
    exact ⟨h.nodup.not_mem_erase, h.nodup.erase block⟩
  have haccesses := h.accesses_eq
  unfold touch
  simp only [hpeek]
  refine ⟨⟨h.pos, hnodup, h.used_eq.trans hblocks.symm, h.used_le, ?_⟩, rfl, rfl, rfl⟩
  simp only
  omega

/-- A miss is counted, and leaves the block to be fetched. -/
theorem touch_of_none (h : c.Sound) (hpeek : c.peek? block = none) :
    c.Grows 1 1 (c.touch block).2 := by
  unfold touch
  simp only [hpeek]
  exact ⟨⟨h.pos, h.nodup, h.used_eq, h.used_le, congrArg (· + 1) h.accesses_eq⟩, rfl, rfl, rfl⟩

end Sound

/-- The block that was fetched is put at the front. If the cache is full it
takes the place of another one, which is counted. -/
theorem Grows.insert (h : c.Grows missed (lost + 1) d) (hout : block ∉ d.blocks)
    (data : ByteArray) : c.Grows missed lost (d.insert block data).1 := by
  have hpos := h.sound.pos
  have hused : d.used = d.entries.length := by
    rw [h.sound.used_eq, blocks, List.length_map]
  have hle := h.sound.used_le
  have hbalance := h.balance
  have hnodup (rest : List (Nat × ByteArray)) (hrest : rest.Sublist d.entries) :
      (((block, data) :: rest).map Prod.fst).Nodup := by
    rw [List.map_cons, List.nodup_cons]
    have hsub : (rest.map Prod.fst).Sublist d.blocks := hrest.map _
    exact ⟨fun hmem => hout (hsub.subset hmem), h.sound.nodup.sublist hsub⟩
  have hnoted (entries : List (Nat × ByteArray)) :
      entries.length = (entries.map Prod.fst).length := (List.length_map _).symm
  simp only [BlockCache.insert, others_of_not_mem hout]
  by_cases hroom : d.entries.length < d.capacity
  · rw [if_pos hroom]
    refine ⟨⟨hpos, hnodup _ (.refl _), hnoted _, hroom, h.sound.accesses_eq⟩, h.capacity_eq,
      h.misses_eq, ?_⟩
    simp only [fill, List.length_cons]
    omega
  · rw [if_neg hroom]
    have hne : d.entries ≠ [] := by
      intro hnil
      simp only [hnil, List.length_nil] at hroom
      omega
    rw [List.getLast?_eq_some_getLast hne]
    have hlength : ((block, data) :: d.entries.dropLast).length = d.entries.length := by
      have hcount := List.length_pos_iff.mpr hne
      rw [List.length_cons, List.length_dropLast]
      omega
    refine ⟨⟨hpos, hnodup _ (List.dropLast_sublist _), hnoted _,
      hlength.trans_le (hused.symm.trans_le hle), h.sound.accesses_eq⟩, h.capacity_eq,
      h.misses_eq, ?_⟩
    simp only [fill, hlength]
    omega

end BlockCache

variable {δ : Type} [BlockDevice δ]

/-! ## Operations -/

/-- Something that is done with a volume. -/
inductive Operation where
  | read (route : Route) (offset length : Nat)
  /-- The device is prepared for use. -/
  | attach
  /-- The use of the device ends. -/
  | close
  deriving DecidableEq, Repr

/-- What some operations come to. -/
structure Ledger where
  /-- The number of reads whose range is accepted. -/
  accepted : Nat := 0
  /-- The number of reads past the cache that reach the device. -/
  direct : Nat := 0
  /-- The deliveries that reads through the cache ask for. -/
  missed : List Delivery := []
  /-- The number of blocks that are in the cache when it is emptied. -/
  dropped : Nat := 0

/-- The number of deliveries that are no good. -/
def spoiled (asked : List Delivery) : Nat := asked.countP fun d => d.failure?.isSome

theorem spoiled_append (asked more : List Delivery) :
    spoiled (asked ++ more) = spoiled asked + spoiled more := List.countP_append

namespace Volume

variable {v w x : Volume δ} {c d e : BlockCache} {asked more : List Delivery}

/-- A range is accepted if it fits in 64 bits and ends in the device. -/
def Accepts (v : Volume δ) (offset length : Nat) : Prop :=
  offset + length < addressLimit ∧ offset + length ≤ v.size

instance (v : Volume δ) (offset length : Nat) : Decidable (v.Accepts offset length) :=
  inferInstanceAs (Decidable (_ ∧ _))

/-- A read past the cache reaches the device if its range is accepted, is not
empty, and has not too many blocks to transfer. -/
def Reaches (v : Volume δ) (offset length : Nat) : Prop :=
  v.Accepts offset length ∧ 0 < length ∧ (transferBlocks? v.blockSize offset length).isSome

instance (v : Volume δ) (offset length : Nat) : Decidable (v.Reaches offset length) :=
  inferInstanceAs (Decidable (_ ∧ _))

/-- What an operation makes of a volume. -/
def operate (v : Volume δ) : Operation → Volume δ
  | .read route offset length => (v.read route offset length).2
  | .attach => v.attach.2
  | .close => v.close.2

/-- What some operations make of it, one after another. -/
def operated (v : Volume δ) (ops : List Operation) : Volume δ := ops.foldl operate v

/-- The ledger after one more operation. -/
def book (v : Volume δ) (l : Ledger) : Operation → Ledger
  | .read .cached offset length => { l with
    accepted := l.accepted + if v.Accepts offset length then 1 else 0
    missed := l.missed ++ v.deliveries .cached offset length }
  | .read .direct offset length => { l with
    accepted := l.accepted + if v.Accepts offset length then 1 else 0
    direct := l.direct + if v.Reaches offset length then 1 else 0 }
  | .attach => l
  | .close => { l with dropped := l.dropped + v.cache.elim 0 BlockCache.used }

/-- The ledger after some more of them. -/
def ledger (v : Volume δ) (l : Ledger) : List Operation → Ledger
  | [] => l
  | op :: rest => ledger (v.operate op) (v.book l op) rest

/-! ## Reads -/

/-- What a part of a read through the cache does to the counts, if it asks
the device for some blocks. -/
structure Booked (asked : List Delivery) (v w : Volume δ) (c d : BlockCache) : Prop where
  grows : c.Grows asked.length (spoiled asked) d
  reads_eq : w.reads = v.reads
  transfers_eq : w.transfers = v.transfers + asked.length

omit [BlockDevice δ] in
theorem Booked.refl (h : c.Sound) : Booked [] v v c c := ⟨.refl h, rfl, rfl⟩

omit [BlockDevice δ] in
theorem Booked.trans (h : Booked asked v w c d) (h' : Booked more w x d e) :
    Booked (asked ++ more) v x c e where
  grows := by
    rw [List.length_append, spoiled_append]
    exact h.grows.trans h'.grows
  reads_eq := h'.reads_eq.trans h.reads_eq
  transfers_eq := by
    rw [h'.transfers_eq, h.transfers_eq, List.length_append, Nat.add_assoc]

theorem spoiled_delivery (v : Volume δ) (first count : Nat) :
    spoiled [v.delivery first count] =
      match (v.transfer first count).1 with
      | .error _ => 1
      | .ok _ => 0 := by
  rw [spoiled, List.countP_singleton]
  cases ht : (v.transfer first count).1 with
  | error cause => simp [transfer_eq_error.mp ht]
  | ok data =>
    have hgood : (v.delivery first count).failure? = none := by
      refine Option.eq_none_iff_forall_ne_some.mpr fun cause hcause => ?_
      cases ht.symm.trans (transfer_eq_error.mpr hcause)
    simp [hgood]

/-- A block is looked up, and asked for if it was missed. -/
theorem booked_readBlock (v : Volume δ) (h : c.Sound) (block : Nat) :
    Booked (v.blockDeliveries c block) v (v.readBlock c block).2.2 c
      (v.readBlock c block).2.1 := by
  have hspoiled := v.spoiled_delivery block 1
  have htransfer := congrArg Prod.snd (v.transfer_eq block 1)
  unfold blockDeliveries BlockCache.contains
  cases v.block_cases c block with
  | hit hpeek =>
    rw [readBlock_of_hit v hpeek, hpeek]
    exact ⟨h.touch_of_some hpeek, rfl, rfl⟩
  | failed hpeek hw =>
    rw [hw] at hspoiled htransfer
    subst htransfer
    rw [readBlock_of_failed hpeek hw, hpeek]
    refine ⟨?_, rfl, rfl⟩
    change c.Grows 1 (spoiled [v.delivery block 1]) _
    rw [hspoiled]
    exact h.touch_of_none hpeek
  | @transferred data w hpeek hw =>
    have hout := BlockCache.peek?_eq_none.mp (BlockCache.peek?_touch_of_none hpeek)
    have hinsert := (h.touch_of_none hpeek).insert hout data
    rw [hw] at hspoiled htransfer
    subst htransfer
    rw [readBlock_of_transferred hpeek hw, hpeek]
    refine ⟨?_, ?_, ?_⟩
    · change c.Grows 1 (spoiled [v.delivery block 1]) _
      rw [hspoiled]
      exact hinsert
    all_goals
      simp only
      cases ((c.touch block).2.insert block data).2 <;> rfl

/-- So is each block of some runs, as far as it gets. -/
theorem booked_readSpans (v : Volume δ) (h : c.Sound) (sofar : ByteArray) (runs : List Span) :
    Booked (v.spanDeliveries c runs) v (v.readSpans c sofar runs).2.2 c
      (v.readSpans c sofar runs).2.1 := by
  induction runs generalizing v c sofar with
  | nil => exact .refl h
  | cons run rest ih =>
    have hfirst := v.booked_readBlock h run.block
    rw [readSpans, spanDeliveries]
    revert hfirst
    rcases v.readBlock c run.block with ⟨cause | data, d, w⟩
    · intro hfirst
      rw [List.append_nil]
      exact hfirst
    · intro hfirst
      exact hfirst.trans (ih w hfirst.grows.sound _)

/-- A read past the cache asks for its blocks at once, if there are not too
many of them. -/
theorem length_directDeliveries (v : Volume δ) (offset length : Nat) :
    (v.directDeliveries offset length).length =
      if (transferBlocks? v.blockSize offset length).isSome then 1 else 0 := by
  rw [directDeliveries]
  cases transferBlocks? v.blockSize offset length <;> rfl

theorem readDirect_counts (v : Volume δ) (offset length : Nat) :
    (v.readDirect offset length).2.reads = v.reads ∧
      (v.readDirect offset length).2.transfers =
        v.transfers + (v.directDeliveries offset length).length := by
  rw [directDeliveries]
  cases hcount : transferBlocks? v.blockSize offset length with
  | none =>
    rw [readDirect_of_none hcount]
    exact ⟨rfl, rfl⟩
  | some count =>
    rw [readDirect_of_some hcount, transfer_eq]
    exact ⟨rfl, rfl⟩

/-- Nothing is asked for if a range is refused or empty. -/
theorem read_of_not_wanted (route : Route) {offset length : Nat}
    (h : ¬ (v.Accepts offset length ∧ 0 < length)) :
    v.deliveries route offset length = [] ∧
      (v.read route offset length).2 =
        { v with reads := v.reads + if v.Accepts offset length then 1 else 0 } := by
  by_cases hin : v.Accepts offset length
  · obtain rfl : length = 0 := by
      by_contra hlength
      exact h ⟨hin, Nat.pos_of_ne_zero hlength⟩
    have hrange : checkRange v.size offset 0 = .ok () := checkRange_eq_ok.mpr hin
    rw [if_pos hin, read_empty hrange, deliveries_empty hrange]
    exact ⟨rfl, rfl⟩
  · cases hrange : checkRange v.size offset length with
    | ok checked => exact absurd (checkRange_eq_ok.mp hrange) hin
    | error cause =>
      rw [if_neg hin, read_of_refused hrange, deliveries_of_refused hrange]
      exact ⟨rfl, rfl⟩

/-- A read through the cache is counted if its range is accepted. What it asks
the device for are its misses. -/
theorem exists_booked_read (hcache : v.cache = some c) (h : c.Sound) (offset length : Nat) :
    ∃ d, (v.read .cached offset length).2.cache = some d ∧
      Booked (v.deliveries .cached offset length)
        { v with reads := v.reads + if v.Accepts offset length then 1 else 0 }
        (v.read .cached offset length).2 c d := by
  by_cases hwanted : v.Accepts offset length ∧ 0 < length
  · obtain ⟨hin, hlength⟩ := hwanted
    have hrange : checkRange v.size offset length = .ok () := checkRange_eq_ok.mpr hin
    have hbooked := booked_readSpans { v with reads := v.reads + 1 } h .empty
      (spans v.blockSize offset length)
    rw [if_pos hin, read_of_cached hrange hlength hcache,
      deliveries_of_cached hrange hlength hcache]
    exact ⟨_, rfl, hbooked.grows, hbooked.reads_eq, hbooked.transfers_eq⟩
  · obtain ⟨hasked, hread⟩ := read_of_not_wanted .cached hwanted
    refine ⟨c, ?_, ?_⟩
    · rw [hread, hcache]
    · rw [hread, hasked]
      exact .refl h

/-- A read past the cache leaves it alone. It reaches the device if there is
something to read, and not too much. -/
theorem read_direct_counts (v : Volume δ) (offset length : Nat) :
    (v.deliveries .direct offset length).length =
        (if v.Reaches offset length then 1 else 0) ∧
      (v.read .direct offset length).2.cache = v.cache ∧
      (v.read .direct offset length).2.reads =
        v.reads + (if v.Accepts offset length then 1 else 0) ∧
      (v.read .direct offset length).2.transfers =
        v.transfers + (v.deliveries .direct offset length).length := by
  by_cases hwanted : v.Accepts offset length ∧ 0 < length
  · obtain ⟨hin, hlength⟩ := hwanted
    have hrange : checkRange v.size offset length = .ok () := checkRange_eq_ok.mpr hin
    have hcounts := readDirect_counts { v with reads := v.reads + 1 } offset length
    have hcache := readDirect_cache { v with reads := v.reads + 1 } offset length
    rw [if_pos hin, read_of_direct hrange hlength (.inl rfl),
      deliveries_of_direct hrange hlength (.inl rfl)]
    refine ⟨?_, hcache, hcounts⟩
    rw [length_directDeliveries]
    simp only [Reaches, hin, hlength, true_and]
  · obtain ⟨hasked, hread⟩ := read_of_not_wanted .direct hwanted
    have hout : ¬ v.Reaches offset length := fun hreaches => hwanted ⟨hreaches.1, hreaches.2.1⟩
    rw [if_neg hout, hasked, hread]
    exact ⟨rfl, rfl, rfl, rfl⟩

/-! ## Any operations -/

/-- What is known of a volume with a cache after some operations that come to
a ledger, if the device was asked for some deliveries. -/
structure Balanced (capacity : Nat) (asked : List Delivery) (l : Ledger) (v : Volume δ)
    (c : BlockCache) : Prop where
  cache_eq : v.cache = some c
  capacity_eq : c.capacity = capacity
  /-- Every access was a hit or a miss, no block is there twice, and there are
  not too many. -/
  sound : c.Sound
  /-- A delivery was asked for with each miss. -/
  misses_eq : c.misses = l.missed.length
  /-- All others were asked for by reads past the cache. -/
  transfers_eq : v.transfers = c.misses + l.direct
  /-- Every transfer is a delivery that was asked for. -/
  asked_eq : asked.length = v.transfers
  /-- Each block that was handed over is in the cache, or one had to leave it
  by now. -/
  blocks_eq : c.used + c.evictions + l.dropped + spoiled l.missed = c.misses
  /-- Reads are counted if their range is accepted. -/
  reads_eq : v.reads = l.accepted

namespace Balanced

variable {capacity : Nat} {l : Ledger}

/-- A device that was put into use was not asked for anything yet. -/
theorem ofDevice {device : δ} {journal : Journal} (hpos : 1 ≤ capacity)
    (hv : ofDevice device capacity journal = .ok v) : ∃ c, Balanced capacity [] {} v c := by
  unfold Volume.ofDevice at hv
  simp only at hv
  split at hv
  case isFalse => cases hv
  cases hv
  have hempty : BlockCache.ofCapacity? capacity (BlockDevice.blockSize device).toNat =
      some ⟨capacity, (BlockDevice.blockSize device).toNat, [], 0, 0, 0, 0, 0⟩ :=
    if_neg (Nat.ne_of_gt hpos)
  obtain ⟨hsound, hcapacity, hmisses, hused, hevictions⟩ := BlockCache.Sound.ofCapacity? hempty
  exact ⟨_, hempty, hcapacity, hsound, rfl, rfl, rfl, rfl, rfl⟩

/-- **Every operation keeps the balance.** -/
theorem operate (h : Balanced capacity asked l v c) (op : Operation) :
    ∃ more d, (∀ before, (v.recorded before).operate op =
        (v.operate op).recorded (before ++ more)) ∧
      Balanced capacity (asked ++ more) (v.book l op) (v.operate op) d := by
  have hmisses := h.misses_eq
  have htransfers := h.transfers_eq
  have hasked := h.asked_eq
  have hblocks := h.blocks_eq
  have hreads := h.reads_eq
  cases op with
  | read route offset length =>
    have hrecord (before : List Delivery) :=
      congrArg Prod.snd (v.recorded_read before route offset length)
    cases route with
    | cached =>
      obtain ⟨d, hcache, hbooked⟩ := exists_booked_read h.cache_eq h.sound offset length
      have hgrows := hbooked.grows
      have hmisses' := hgrows.misses_eq
      have hbalance := hgrows.balance
      have htransfers' : (v.read .cached offset length).2.transfers =
          v.transfers + (v.deliveries .cached offset length).length := hbooked.transfers_eq
      refine ⟨_, d, hrecord, hcache, hgrows.capacity_eq.trans h.capacity_eq, hgrows.sound,
        ?_, ?_, ?_, ?_, ?_⟩
      · rw [hmisses', hmisses, book, List.length_append]
      · rw [Volume.operate, htransfers', hmisses', book, htransfers, Nat.add_right_comm]
      · rw [Volume.operate, htransfers', List.length_append, hasked]
      · rw [book, spoiled_append, hmisses']
        simp only
        omega
      · rw [Volume.operate, hbooked.reads_eq, book, hreads]
    | direct =>
      obtain ⟨hlength, hcache, hreads', htransfers'⟩ := v.read_direct_counts offset length
      refine ⟨_, c, hrecord, hcache.trans h.cache_eq, h.capacity_eq, h.sound, hmisses,
        ?_, ?_, hblocks, ?_⟩
      · rw [Volume.operate, htransfers', hlength, book, htransfers, Nat.add_assoc]
      · rw [Volume.operate, htransfers', List.length_append, hasked]
      · rw [Volume.operate, hreads', book, hreads]
  | attach =>
    exact ⟨[], c, fun before => by rw [List.append_nil]; rfl, h.cache_eq, h.capacity_eq, h.sound,
      hmisses, htransfers, by rwa [List.append_nil], hblocks, hreads⟩
  | close =>
    refine ⟨[], c.clear, fun before => by rw [List.append_nil]; rfl,
      congrArg (Option.map _) h.cache_eq, h.capacity_eq, h.sound.clear, hmisses, htransfers,
      by rwa [List.append_nil], ?_, hreads⟩
    have hused : c.clear.used = 0 := rfl
    have hmisses' : c.clear.misses = c.misses := rfl
    have hevictions : c.clear.evictions = c.evictions := rfl
    rw [hused, hmisses', hevictions, book, h.cache_eq, Option.elim]
    simp only
    omega

/-- **So they balance after any operations.** -/
theorem operated (h : Balanced capacity asked l v c) (ops : List Operation) :
    ∃ d, Balanced capacity ((v.recorded asked).operated ops).device.deliveries
      (v.ledger l ops) (v.operated ops) d := by
  induction ops generalizing v c l asked with
  | nil => exact ⟨c, h⟩
  | cons op rest ih =>
    obtain ⟨more, d, hrecord, hstep⟩ := h.operate op
    obtain ⟨e, hrest⟩ := ih hstep
    rw [← hrecord] at hrest
    exact ⟨e, hrest⟩

end Balanced

/-- **The counts balance.** Any device is put into use with a cache. After any
operations, of which any may have failed at any point, the counts are those
of the ledger, the deliveries are those that a recorder of the device has,
and the cache has as many blocks as it says. -/
theorem balances_ofDevice {device : δ} {capacity : Nat} {journal : Journal}
    (hpos : 1 ≤ capacity) (hv : ofDevice device capacity journal = .ok v)
    (ops : List Operation) :
    ∃ c, Balanced capacity ((v.recorded []).operated ops).device.deliveries (v.ledger {} ops)
        (v.operated ops) c ∧
      ∃ present : Finset Nat, present.card = c.used ∧
        ∀ block, block ∈ present ↔ c.contains block := by
  obtain ⟨fresh, hfresh⟩ := Balanced.ofDevice hpos hv
  obtain ⟨c, hbalanced⟩ := hfresh.operated ops
  refine ⟨c, hbalanced, c.blocks.toFinset, ?_, fun block => ?_⟩
  · rw [List.toFinset_card_of_nodup hbalanced.sound.nodup, hbalanced.sound.used_eq]
  · rw [List.mem_toFinset, BlockCache.contains_iff]

/-- Operations of all kinds: the first read fails, the next two evict a block
and hit one, the third one goes past the cache, two are refused or empty, and
the last one follows a close. -/
def mixedUse : List Operation :=
  [.attach, .read .cached 2 4, .read .cached 2 4, .read .cached 5 1, .read .direct 0 8,
    .read .direct 8 1, .read .cached 0 0, .close, .read .cached 0 1]

/-- The device of `shortFirst` in use, with a cache of one block. -/
def shortInUse : Volume FaultyDevice where
  device := shortFirst
  reads := 0
  transfers := 0
  cache := some ⟨1, 4, [], 0, 0, 0, 0, 0⟩
  journal := #[BlockCache.created ⟨1, 4, [], 0, 0, 0, 0, 0⟩]

/-- Of four blocks that were missed one is in the cache, one was evicted, one
was dropped, and one never came. -/
theorem balances_mixedUse :
    ofDevice shortFirst 1 #[] = .ok shortInUse ∧
      ∃ c, (shortInUse.operated mixedUse).cache = some c ∧ c.misses = 4 ∧
        c.used + c.evictions = 2 ∧ (shortInUse.operated mixedUse).transfers = 5 ∧
        (shortInUse.operated mixedUse).reads = 6 := by
  have hv : ofDevice shortFirst 1 #[] = .ok shortInUse := rfl
  obtain ⟨c, h, -⟩ := balances_ofDevice (Nat.le_refl 1) hv mixedUse
  have hmissed : (shortInUse.ledger {} mixedUse).missed.length = 4 := by decide
  have hspoiled : spoiled (shortInUse.ledger {} mixedUse).missed = 1 := by decide
  have hdropped : (shortInUse.ledger {} mixedUse).dropped = 1 := by decide
  have hdirect : (shortInUse.ledger {} mixedUse).direct = 1 := by decide
  have haccepted : (shortInUse.ledger {} mixedUse).accepted = 6 := by decide
  have hmisses := h.misses_eq.trans hmissed
  have hblocks := h.blocks_eq
  have htransfers := h.transfers_eq
  exact ⟨hv, c, h.cache_eq, hmisses, by omega, by omega, h.reads_eq.trans haccepted⟩

end Volume

end Erofs
