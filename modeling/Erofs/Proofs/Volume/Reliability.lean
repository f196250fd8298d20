import Erofs.Proofs.Volume.Reading
import Erofs.Proofs.Volume.Recency
/-!
# Devices that do not fail

On a device that does not fail (`BlockDevice.Reliable`) every part of a
read can be told in advance: what it hands over, what it leaves in the
cache, and how many transfers it takes. A block that is accessed through
the cache is a hit if it is one of the latest and a transfer otherwise
(`Reliable.readBlock`), and the blocks of a range are accessed one after
another (`Reliable.readSpans`).
-/

namespace Erofs

variable {δ : Type} [BlockDevice δ] {content : Nat → Nat → ByteArray}
variable {blockSize size : Nat} {seen : List Nat}

/-! ## Devices that do not fail -/

namespace BlockDevice

/-- A device that does not fail: it keeps its block size and its size, and
hands over in full the blocks that start in it. What these are does not
depend on what it was asked before. Ending its use may fail. -/
structure Reliable (content : Nat → Nat → ByteArray) (blockSize size : Nat) (d : δ) : Prop where
  /-- Block sizes are powers of two. -/
  blockSize_pow : 2 ^ blockSize.log2 = blockSize
  blockSize_eq {e : δ} : Becomes d e → (BlockDevice.blockSize e).toNat = blockSize
  size_eq {e : δ} : Becomes d e → (BlockDevice.size e).toNat = size
  delivers {e : δ} {first count : Nat} : Becomes d e → 0 < count →
    (first + count - 1) * blockSize < size → (first + count - 1) * blockSize < addressLimit →
    ∃ t, (BlockDevice.readBlocks e first count (count * blockSize)).1 = .ok t ∧
      count * blockSize ≤ t.reported ∧ t.data = content first count

variable {d e : δ}

theorem Reliable.of_becomes (h : Reliable content blockSize size d) (hb : Becomes d e) :
    Reliable content blockSize size e where
  blockSize_pow := h.blockSize_pow
  blockSize_eq he := h.blockSize_eq (hb.trans he)
  size_eq he := h.size_eq (hb.trans he)
  delivers he := h.delivers (hb.trans he)

theorem Reliable.blockSize_pos (h : Reliable content blockSize size d) : 0 < blockSize := by
  rw [← h.blockSize_pow]
  exact Nat.two_pow_pos _

/-- A device that delivers an image does not fail. -/
theorem Delivers.reliable {image : ByteArray} (h : Delivers image blockSize d) :
    Reliable (fun first count => paddedSlice image (first * blockSize) (count * blockSize))
      blockSize image.size d where
  blockSize_pow := h.blockSize_pow
  blockSize_eq := h.blockSize_eq
  size_eq := h.size_eq
  delivers {e first count} hb hcount hsize hlimit := by
    have hfirst : first * blockSize ≤ (first + count - 1) * blockSize :=
      Nat.mul_le_mul_right _ (by omega)
    have hin : first + count ≤ blocksIn image blockSize := by
      rw [blocksIn, Nat.le_div_iff_mul_le h.blockSize_pos]
      have hlast : (first + count) * blockSize = (first + count - 1) * blockSize + blockSize := by
        rw [← Nat.succ_mul]
        congr 1
        omega
      omega
    obtain ⟨t, ht, hfull⟩ := h.delivers hb hcount hin (by omega)
    exact ⟨t, ht, hfull, h.data_eq hb ht hfull⟩

end BlockDevice

/-- The last block that a range touches starts before its end. -/
theorem last_mul_lt {offset length : Nat} (hpos : 0 < blockSize) (hlength : 0 < length) :
    (offset / blockSize + blocksTouched blockSize offset length - 1) * blockSize <
      offset + length := by
  have hcount : 0 < blocksTouched blockSize offset length := Volume.blocksTouched_pos hpos hlength
  refine mul_lt_of_lt_blocks hpos ?_
  rw [blocksTouched] at hcount ⊢
  generalize offset / blockSize = first at *
  omega

namespace Volume

variable {v w : Volume δ} {offset length count block : Nat}

/-- A volume on a device that does not fail. -/
structure Reliable (content : Nat → Nat → ByteArray) (blockSize size : Nat) (v : Volume δ) :
    Prop where
  device : BlockDevice.Reliable content blockSize size v.device

/-! ## Past the cache -/

namespace Reliable

theorem blockSize_eq (h : v.Reliable content blockSize size) : v.blockSize = blockSize :=
  h.device.blockSize_eq .refl

theorem size_eq (h : v.Reliable content blockSize size) : v.size = size :=
  h.device.size_eq .refl

theorem transfer (h : v.Reliable content blockSize size) (first : Nat) (hcount : 0 < count)
    (hsize : (first + count - 1) * blockSize < size)
    (hlimit : (first + count - 1) * blockSize < addressLimit) :
    ∃ w, v.transfer first count = (.ok (content first count), w) ∧
      w.Reliable content blockSize size ∧ w.transfers = v.transfers + 1 ∧ w.cache = v.cache := by
  obtain ⟨t, ht, hfull, hdata⟩ := h.device.delivers .refl hcount hsize hlimit
  refine ⟨(v.transfer first count).2, Prod.ext ?_ rfl, ⟨?_⟩, ?_, ?_⟩
  · rw [transfer_eq_ok, h.blockSize_eq]
    exact ⟨t, ht, hfull, hdata⟩
  · exact h.device.of_becomes (v.transfer_device ..)
  all_goals rw [transfer_eq]

/-- A range of too many blocks is refused, and any other is one transfer. -/
theorem readDirect (h : v.Reliable content blockSize size) (hlength : 0 < length)
    (hsize : offset + length ≤ size) (hlimit : offset + length < addressLimit) :
    ∃ w answer, v.readDirect offset length = (answer, w) ∧ w.Reliable content blockSize size ∧
      w.cache = v.cache ∧
      match transferBlocks? blockSize offset length with
      | none => answer = .error .rangeTooLarge ∧ w.transfers = v.transfers
      | some count =>
        answer = .ok (slice (content (offset / blockSize) count)
          (offset - offset / blockSize * blockSize) length) ∧ w.transfers = v.transfers + 1 := by
  have hsame := h.blockSize_eq
  cases hcount : transferBlocks? blockSize offset length with
  | none =>
    exact ⟨v, _, readDirect_of_none (hsame.symm ▸ hcount), h, rfl, rfl, rfl⟩
  | some count =>
    obtain ⟨-, -, rfl⟩ := transferBlocks?_eq_some.mp hcount
    have hpos := h.device.blockSize_pos
    have hlast : (offset / blockSize + blocksTouched blockSize offset length - 1) * blockSize <
        offset + length := last_mul_lt hpos hlength
    obtain ⟨w, hw, hreliable, htransfers, hcache⟩ := h.transfer (offset / blockSize)
      (blocksTouched_pos hpos hlength) (Nat.lt_of_lt_of_le hlast hsize) (Nat.lt_trans hlast hlimit)
    have hread := readDirect_of_some (v := v) (hsame.symm ▸ hcount)
    rw [hsame, hw] at hread
    exact ⟨w, _, hread, hreliable, hcache, rfl, htransfers⟩

end Reliable

/-! ## Through the cache -/

/-- What accesses to `blocks`, one after another, make of a volume and its
cache. Those that are no hits are transfers. -/
structure Accessed (content : Nat → Nat → ByteArray) (blockSize size : Nat)
    (seen blocks : List Nat) (v : Volume δ) (c : BlockCache) (w : Volume δ) (d : BlockCache) :
    Prop where
  reliable : w.Reliable content blockSize size
  mirrors : d.Mirrors (content · 1) (blocks.reverse ++ seen)
  capacity_eq : d.capacity = c.capacity
  hits_eq : d.hits = c.hits + hitsAmong c.capacity seen blocks
  transfers_eq : w.transfers + hitsAmong c.capacity seen blocks = v.transfers + blocks.length

/-- The bytes of some runs after those in `before`. -/
def gatheredFrom (content : Nat → Nat → ByteArray) (before : ByteArray) (runs : List Span) :
    ByteArray :=
  runs.foldl (fun out run => out ++ slice (content run.block 1) run.start run.length) before

variable {c d e : BlockCache} {x : Volume δ} {blocks : List Nat}

/-- The first access, then the others. -/
theorem Accessed.cons (hfirst : Accessed content blockSize size seen [block] v c w d)
    (hrest : Accessed content blockSize size (block :: seen) blocks w d x e) :
    Accessed content blockSize size seen (block :: blocks) v c x e where
  reliable := hrest.reliable
  mirrors := by
    rw [List.reverse_cons, List.append_assoc]
    exact hrest.mirrors
  capacity_eq := hrest.capacity_eq.trans hfirst.capacity_eq
  hits_eq := by
    have hhits := hfirst.hits_eq
    have hhits' := hrest.hits_eq
    rw [hfirst.capacity_eq] at hhits'
    simp only [hitsAmong] at hhits ⊢
    omega
  transfers_eq := by
    have htransfers := hfirst.transfers_eq
    have htransfers' := hrest.transfers_eq
    rw [hfirst.capacity_eq] at htransfers'
    simp only [hitsAmong, List.length_cons, List.length_nil] at htransfers ⊢
    omega

namespace Reliable

variable (h : v.Reliable content blockSize size) (hc : c.Mirrors (content · 1) seen)
include h hc

theorem readBlock (hsize : block * blockSize < size) (hlimit : block * blockSize < addressLimit) :
    ∃ d w, v.readBlock c block = (.ok (content block 1), d, w) ∧
      Accessed content blockSize size seen [block] v c w d := by
  by_cases hb : block ∈ latest c.capacity seen
  · obtain ⟨d, htouch, hmirrors, hcapacity, hhits⟩ := hc.touch_of_mem hb
    have hpeek : c.peek? block = some (content block 1) := by
      rw [hc.peek?_eq, if_pos hb]
    have hread := readBlock_of_hit v hpeek
    rw [htouch] at hread
    refine ⟨d, v, hread, h, hmirrors, hcapacity, ?_, ?_⟩
    all_goals simp only [hitsAmong, if_pos hb]
    · exact hhits
    · rfl
  · obtain ⟨c', htouch, hmirrors, hcapacity, hhits⟩ := hc.touch_of_not_mem hb
    obtain ⟨w, hw, hreliable, htransfers, -⟩ := h.transfer block Nat.one_pos hsize hlimit
    have hpeek : c.peek? block = none := by
      rw [hc.peek?_eq, if_neg hb]
    have hread := readBlock_of_transferred hpeek hw
    rw [htouch] at hread
    obtain ⟨hmirrors', hcapacity', hhits'⟩ := hmirrors.insert block
    refine ⟨_, _, hread, ⟨?_, hmirrors', hcapacity'.trans hcapacity, ?_, ?_⟩⟩
    · cases (c'.insert block (content block 1)).2 with
      | none => exact hreliable
      | some last => exact ⟨hreliable.device⟩
    · simp only [hitsAmong, if_neg hb]
      exact hhits'.trans hhits
    · simp only [hitsAmong, if_neg hb]
      cases (c'.insert block (content block 1)).2 with
      | none => exact htransfers
      | some last => exact htransfers

/-- So reading runs gathers what the device has there. -/
theorem readSpans {runs : List Span} (before : ByteArray)
    (hin : ∀ run ∈ runs, run.block * blockSize < size ∧ run.block * blockSize < addressLimit) :
    ∃ d w, v.readSpans c before runs = (.ok (gatheredFrom content before runs), d, w) ∧
      Accessed content blockSize size seen (runs.map Span.block) v c w d := by
  induction runs generalizing v c seen before with
  | nil => exact ⟨c, v, rfl, h, hc, rfl, rfl, rfl⟩
  | cons run rest ih =>
    obtain ⟨hrun, hlimit⟩ := hin run List.mem_cons_self
    obtain ⟨d, w, hread, hfirst⟩ := h.readBlock hc hrun hlimit
    obtain ⟨e, x, hreads, hrest⟩ := ih hfirst.reliable hfirst.mirrors
      (before ++ slice (content run.block 1) run.start run.length)
      fun run hmem => hin run (List.mem_cons_of_mem _ hmem)
    refine ⟨e, x, ?_, hfirst.cons hrest⟩
    rw [Volume.readSpans, hread]
    exact hreads

end Reliable

end Volume

end Erofs
