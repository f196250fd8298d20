import Erofs.Proofs.Volume.Reliability
/-!
# Caches of two sizes

Two volumes on one device that does not fail, with caches of different
sizes, are asked for the same reads. They answer the same, both caches keep
the latest blocks, and the larger one saves at least the transfers that
the smaller one saves. Each read keeps this (`InStep.read`), and so does
the end of the use of the device, because both then start over with empty
caches (`InStep.close`).
-/

namespace Erofs

variable {δ : Type} [BlockDevice δ] {content : Nat → Nat → ByteArray}
variable {blockSize size capacity larger : Nat} {seen : List Nat}

/-! ## Calls -/

/-- A call on a volume: a read, or the end of its use. -/
inductive Call where
  | read (route : Route) (offset length : Nat)
  | close
  deriving DecidableEq, Repr

namespace Call

/-- The blocks that a read accesses through the cache, one after another. -/
def accesses (blockSize size : Nat) (route : Route) (offset length : Nat) : List Nat :=
  match route with
  | .cached =>
    if 0 < length ∧ offset + length < addressLimit ∧ offset + length ≤ size then
      (spans blockSize offset length).map Span.block
    else []
  | .direct => []

/-- The accesses since the last close, the latest first, after one more
call. -/
def extend (blockSize size : Nat) (seen : List Nat) : Call → List Nat
  | .read route offset length => (accesses blockSize size route offset length).reverse ++ seen
  | .close => []

variable {route : Route} {offset length : Nat}

/-- A range that is refused or empty has no blocks. -/
theorem extend_of_not_wanted
    (h : ¬ (0 < length ∧ offset + length < addressLimit ∧ offset + length ≤ size)) :
    extend blockSize size seen (.read route offset length) = seen := by
  cases route with
  | cached => rw [extend, accesses, if_neg h]; rfl
  | direct => rfl

theorem extend_of_wanted (hlength : 0 < length) (hlimit : offset + length < addressLimit)
    (hsize : offset + length ≤ size) :
    extend blockSize size seen (.read .cached offset length) =
      ((spans blockSize offset length).map Span.block).reverse ++ seen := by
  rw [extend, accesses, if_pos ⟨hlength, hlimit, hsize⟩]

end Call

/-- The accesses that some calls make after the last close among them, the
latest first. -/
def accessed (blockSize size : Nat) (calls : List Call) : List Nat :=
  calls.foldl (Call.extend blockSize size) []

namespace Volume

/-- What a call makes of a volume. -/
def call (v : Volume δ) : Call → Volume δ
  | .read route offset length => (v.read route offset length).2
  | .close => v.close.2

/-- What some calls make of it, one after another. -/
def after (v : Volume δ) (calls : List Call) : Volume δ := calls.foldl call v

/-- What the reads among them answer. -/
def answers (v : Volume δ) : List Call → List (Except Error ByteArray)
  | [] => []
  | .read route offset length :: rest =>
    (v.read route offset length).1 :: answers (v.call (.read route offset length)) rest
  | .close :: rest => answers (v.call .close) rest

/-- A volume on a device that does not fail, whose cache has the latest
blocks. -/
structure Tracks (content : Nat → Nat → ByteArray) (blockSize size capacity : Nat)
    (seen : List Nat) (v : Volume δ) (c : BlockCache) : Prop where
  reliable : v.Reliable content blockSize size
  cache_eq : v.cache = some c
  mirrors : c.Mirrors (content · 1) seen
  capacity_eq : c.capacity = capacity

/-- Two volumes on one device, of which the second one has the larger
cache, after the same calls. -/
structure InStep (content : Nat → Nat → ByteArray) (blockSize size capacity larger : Nat)
    (seen : List Nat) (v w : Volume δ) (c d : BlockCache) : Prop where
  small : v.Tracks content blockSize size capacity seen c
  large : w.Tracks content blockSize size larger seen d
  hits_le : c.hits ≤ d.hits
  transfers_le : w.transfers ≤ v.transfers

variable {v w : Volume δ} {c d : BlockCache} {offset length : Nat}

/-- Counting a read changes nothing else. -/
theorem Tracks.counted (h : v.Tracks content blockSize size capacity seen c) (reads : Nat) :
    Tracks content blockSize size capacity seen { v with reads } c :=
  ⟨⟨h.reliable.device⟩, h.cache_eq, h.mirrors, h.capacity_eq⟩

/-- A cache is empty at first. -/
theorem exists_tracks {device : δ}
    (h : BlockDevice.Reliable content blockSize size device) (hpos : 1 ≤ capacity)
    (journal : Journal) :
    ∃ v c, ofDevice device capacity journal = .ok v ∧
      v.Tracks content blockSize size capacity [] c ∧ c.hits = 0 ∧ v.transfers = 0 := by
  have hsize : (BlockDevice.blockSize device).toNat = blockSize := h.blockSize_eq .refl
  have hempty : BlockCache.ofCapacity? capacity (BlockDevice.blockSize device).toNat =
      some ⟨capacity, (BlockDevice.blockSize device).toNat, [], 0, 0, 0, 0, 0⟩ :=
    if_neg (Nat.ne_of_gt hpos)
  obtain ⟨v, hv, rfl, htransfers, hcache⟩ :=
    exists_ofDevice (hsize.symm ▸ h.blockSize_pow) capacity journal
  exact ⟨v, _, hv, ⟨⟨h⟩, hcache.trans hempty, .ofCapacity? hempty, rfl⟩, rfl, htransfers⟩

/-- Accesses go into the cache that the volume has afterwards. -/
theorem Tracks.of_accessed {x : Volume δ} {blocks : List Nat}
    (h : v.Tracks content blockSize size capacity seen c)
    (ha : Accessed content blockSize size seen blocks v c x d) :
    Tracks content blockSize size capacity (blocks.reverse ++ seen) { x with cache := some d }
      d where
  reliable := ⟨ha.reliable.device⟩
  cache_eq := rfl
  mirrors := ha.mirrors
  capacity_eq := ha.capacity_eq.trans h.capacity_eq

theorem Tracks.close (h : v.Tracks content blockSize size capacity seen c) :
    v.close.2.Tracks content blockSize size capacity [] c.clear where
  reliable := ⟨h.reliable.device.of_becomes (.detach .refl)⟩
  cache_eq := congrArg (Option.map _) h.cache_eq
  mirrors := h.mirrors.clear
  capacity_eq := h.capacity_eq

namespace InStep

/-- Both start over when the use of the device ends. -/
theorem close (h : InStep content blockSize size capacity larger seen v w c d) :
    InStep content blockSize size capacity larger [] v.close.2 w.close.2 c.clear d.clear where
  small := h.small.close
  large := h.large.close
  hits_le := h.hits_le
  transfers_le := h.transfers_le

theorem counted (h : InStep content blockSize size capacity larger seen v w c d) (m n : Nat) :
    InStep content blockSize size capacity larger seen { v with reads := m } { w with reads := n }
      c d where
  small := h.small.counted m
  large := h.large.counted n
  hits_le := h.hits_le
  transfers_le := h.transfers_le

/-- A read past the caches is the same transfer in both, and leaves the
caches alone. -/
theorem readDirect (h : InStep content blockSize size capacity larger seen v w c d)
    (hlength : 0 < length) (hsize : offset + length ≤ size)
    (hlimit : offset + length < addressLimit) :
    (v.readDirect offset length).1 = (w.readDirect offset length).1 ∧
      InStep content blockSize size capacity larger seen (v.readDirect offset length).2
        (w.readDirect offset length).2 c d := by
  obtain ⟨x, answer, hx, hreliable, hcache, hcase⟩ :=
    h.small.reliable.readDirect hlength hsize hlimit
  obtain ⟨x', answer', hx', hreliable', hcache', hcase'⟩ :=
    h.large.reliable.readDirect hlength hsize hlimit
  have hle := h.transfers_le
  obtain ⟨hanswer, htransfers⟩ : answer = answer' ∧ x'.transfers ≤ x.transfers := by
    revert hcase hcase'
    cases transferBlocks? blockSize offset length with
    | none =>
      rintro ⟨hanswer, htransfers⟩ ⟨hanswer', htransfers'⟩
      exact ⟨hanswer.trans hanswer'.symm, by omega⟩
    | some count =>
      rintro ⟨hanswer, htransfers⟩ ⟨hanswer', htransfers'⟩
      exact ⟨hanswer.trans hanswer'.symm, by omega⟩
  rw [hx, hx']
  have htracks : x.Tracks content blockSize size capacity seen c :=
    ⟨hreliable, hcache.trans h.small.cache_eq, h.small.mirrors, h.small.capacity_eq⟩
  have htracks' : x'.Tracks content blockSize size larger seen d :=
    ⟨hreliable', hcache'.trans h.large.cache_eq, h.large.mirrors, h.large.capacity_eq⟩
  exact ⟨hanswer, htracks, htracks', h.hits_le, htransfers⟩

/-- A read through the caches makes the same accesses in both, and those
that are no hits are transfers. -/
theorem readSpans (h : InStep content blockSize size capacity larger seen v w c d)
    (hle : capacity ≤ larger) {runs : List Span}
    (hin : ∀ run ∈ runs, run.block * blockSize < size ∧ run.block * blockSize < addressLimit) :
    ∃ bytes x x' c' d', v.readSpans c .empty runs = (.ok bytes, c', x) ∧
      w.readSpans d .empty runs = (.ok bytes, d', x') ∧
      InStep content blockSize size capacity larger ((runs.map Span.block).reverse ++ seen)
        { x with cache := some c' } { x' with cache := some d' } c' d' := by
  obtain ⟨c', x, hx, ha⟩ := h.small.reliable.readSpans h.small.mirrors .empty hin
  obtain ⟨d', x', hx', ha'⟩ := h.large.reliable.readSpans h.large.mirrors .empty hin
  have hmore := hitsAmong_le hle seen (runs.map Span.block)
  have hhits := ha.hits_eq
  have hhits' := ha'.hits_eq
  have htransfers := ha.transfers_eq
  have htransfers' := ha'.transfers_eq
  rw [h.small.capacity_eq] at hhits htransfers
  rw [h.large.capacity_eq] at hhits' htransfers'
  have hhits_le := h.hits_le
  have htransfers_le := h.transfers_le
  refine ⟨_, x, x', c', d', hx, hx', h.small.of_accessed ha, h.large.of_accessed ha', ?_, ?_⟩
  · omega
  · simp only
    omega

/-- **Both answer a read alike, and stay in step.** -/
theorem read (h : InStep content blockSize size capacity larger seen v w c d)
    (hle : capacity ≤ larger) (route : Route) (offset length : Nat) :
    (v.read route offset length).1 = (w.read route offset length).1 ∧
      ∃ c' d', InStep content blockSize size capacity larger
        (Call.extend blockSize size seen (.read route offset length))
        (v.read route offset length).2 (w.read route offset length).2 c' d' := by
  have hcounted := h.counted (v.reads + 1) (w.reads + 1)
  have hv := h.small.reliable.size_eq
  have hw := h.large.reliable.size_eq
  have hsame : v.size = w.size := hv.trans hw.symm
  cases v.read_cases route offset length with
  | refused hrange =>
    rw [read_of_refused hrange, read_of_refused (hsame ▸ hrange), Call.extend_of_not_wanted]
    · exact ⟨rfl, c, d, h⟩
    · rintro ⟨-, hin⟩
      rw [checkRange_eq_ok.mpr (hv ▸ hin)] at hrange
      cases hrange
  | empty hrange =>
    rw [read_empty hrange, read_empty (hsame ▸ hrange), Call.extend_of_not_wanted]
    · exact ⟨rfl, c, d, hcounted⟩
    · exact fun hwanted => Nat.lt_irrefl 0 hwanted.1
  | direct hrange hlength hroute =>
    obtain rfl : route = .direct := hroute.resolve_right (by simp [h.small.cache_eq])
    obtain ⟨hlimit, hsize⟩ := checkRange_eq_ok.mp hrange
    rw [read_of_direct hrange hlength (.inl rfl),
      read_of_direct (hsame ▸ hrange) hlength (.inl rfl)]
    obtain ⟨hanswer, hstep⟩ := hcounted.readDirect hlength (hv ▸ hsize) hlimit
    exact ⟨hanswer, c, d, hstep⟩
  | cached hrange hlength hcache =>
    obtain ⟨hlimit, hsize⟩ := checkRange_eq_ok.mp hrange
    have hpos := h.small.reliable.device.blockSize_pos
    have hin : ∀ run ∈ spans blockSize offset length,
        run.block * blockSize < size ∧ run.block * blockSize < addressLimit := by
      intro run hmem
      have hlt := mul_lt_of_lt_blocks hpos (block_lt_of_mem_spans hmem)
      omega
    obtain ⟨bytes, x, x', c', d', hx, hx', hstep⟩ := hcounted.readSpans hle hin
    have hspans : spans v.blockSize offset length = spans blockSize offset length := by
      rw [h.small.reliable.blockSize_eq]
    have hspans' : spans w.blockSize offset length = spans blockSize offset length := by
      rw [h.large.reliable.blockSize_eq]
    rw [read_of_cached hrange hlength h.small.cache_eq,
      read_of_cached (hsame ▸ hrange) hlength h.large.cache_eq, hspans, hspans', hx, hx',
      Call.extend_of_wanted hlength hlimit (hv ▸ hsize)]
    exact ⟨rfl, c', d', hstep⟩

theorem call (h : InStep content blockSize size capacity larger seen v w c d)
    (hle : capacity ≤ larger) (x : Call) :
    ∃ c' d', InStep content blockSize size capacity larger (Call.extend blockSize size seen x)
      (v.call x) (w.call x) c' d' := by
  cases x with
  | read route offset length => exact (h.read hle route offset length).2
  | close => exact ⟨_, _, h.close⟩

/-- **So they do after any calls.** -/
theorem after (h : InStep content blockSize size capacity larger seen v w c d)
    (hle : capacity ≤ larger) (calls : List Call) :
    v.answers calls = w.answers calls ∧
      ∃ c' d', InStep content blockSize size capacity larger
        (calls.foldl (Call.extend blockSize size) seen) (v.after calls) (w.after calls) c' d' := by
  induction calls generalizing v w c d seen with
  | nil => exact ⟨rfl, c, d, h⟩
  | cons x rest ih =>
    obtain ⟨c', d', hstep⟩ := h.call hle x
    obtain ⟨hrest, hafter⟩ := ih hstep
    refine ⟨?_, hafter⟩
    cases x with
    | read route offset length =>
      exact congrArg₂ List.cons (h.read hle route offset length).1 hrest
    | close => exact hrest

end InStep

/-- What a larger cache is good for: two volumes on one device, of which the
second one has the larger cache, after some calls. -/
structure NeverWorse (blockSize size capacity larger : Nat) (calls : List Call)
    (v w : Volume δ) : Prop where
  /-- The reads answer the same. -/
  answers_eq : v.answers calls = w.answers calls
  /-- The larger cache does not cost transfers. -/
  transfers_le : (w.after calls).transfers ≤ (v.after calls).transfers
  /-- Both caches have the latest distinct blocks since the last close, as
  many as they have room for. So the larger one has those of the smaller
  one, and no fewer hits. -/
  caches : ∃ c d, (v.after calls).cache = some c ∧ (w.after calls).cache = some d ∧
    c.blocks = latest capacity (accessed blockSize size calls) ∧
    d.blocks = latest larger (accessed blockSize size calls) ∧
    c.blocks ⊆ d.blocks ∧ c.hits ≤ d.hits

/-- **A larger cache never does worse**, whatever is read, and however often
the use of the device ends in between. -/
theorem neverWorse_of_capacity_le {device : δ}
    (h : BlockDevice.Reliable content blockSize size device) (hpos : 1 ≤ capacity)
    (hle : capacity ≤ larger) (journal journal' : Journal) :
    ∃ v w, ofDevice device capacity journal = .ok v ∧ ofDevice device larger journal' = .ok w ∧
      ∀ calls, NeverWorse blockSize size capacity larger calls v w := by
  obtain ⟨v, c, hv, hsmall, hhits, htransfers⟩ := exists_tracks h hpos journal
  obtain ⟨w, d, hw, hlarge, hhits', htransfers'⟩ :=
    exists_tracks h (Nat.le_trans hpos hle) journal'
  have hstep : InStep content blockSize size capacity larger [] v w c d :=
    ⟨hsmall, hlarge, by omega, by omega⟩
  refine ⟨v, w, hv, hw, fun calls => ?_⟩
  obtain ⟨hanswers, c', d', hafter⟩ := hstep.after hle calls
  have hblocks := hafter.small.mirrors.blocks_eq
  have hblocks' := hafter.large.mirrors.blocks_eq
  rw [hafter.small.capacity_eq] at hblocks
  rw [hafter.large.capacity_eq] at hblocks'
  exact {
    answers_eq := hanswers
    transfers_le := hafter.transfers_le
    caches := by
      refine ⟨c', d', hafter.small.cache_eq, hafter.large.cache_eq, hblocks, hblocks', ?_,
        hafter.hits_le⟩
      rw [hblocks, hblocks']
      exact fun block hb => mem_latest_of_le hle hb }

/-- An image of zeros in four blocks. -/
def blankDevice : MemoryDevice where
  image := zeros 2048
  blockSize := 512
  size_lt := by
    rw [size_zeros]
    decide

/-- Two reads through the cache, with one past it between them. -/
def rereading : List Call := [.read .cached 0 1024, .read .direct 1536 10, .read .cached 0 5]

theorem neverWorse_rereading :
    ∃ v w : Volume MemoryDevice,
      ofDevice blankDevice 1 #[] = .ok v ∧ ofDevice blankDevice 2 #[] = .ok w ∧
      (∃ c d, (v.after rereading).cache = some c ∧ (w.after rereading).cache = some d ∧
        c.blocks = [0] ∧ d.blocks = [0, 1] ∧ c.hits ≤ d.hits) ∧
      (w.after rereading).transfers ≤ (v.after rereading).transfers := by
  obtain ⟨v, w, hv, hw, hnever⟩ := neverWorse_of_capacity_le
    (delivers_memory blankDevice (show _ = 2 ^ 9 from rfl)).reliable (show 1 ≤ 1 by decide)
    (show 1 ≤ 2 by decide) #[] #[]
  obtain ⟨-, htransfers, c, d, hc, hd, hblocks, hblocks', -, hhits⟩ := hnever rereading
  refine ⟨v, w, hv, hw, ⟨c, d, hc, hd, ?_, ?_, hhits⟩, htransfers⟩
  · rw [hblocks, blankDevice, size_zeros]
    decide
  · rw [hblocks', blankDevice, size_zeros]
    decide

end Volume

end Erofs
