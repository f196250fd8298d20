import Mathlib.Data.List.Nodup
import Erofs.BlockCache
/-!
# What a cache keeps

A cache is described by the blocks that were accessed through it, the
latest first: it keeps the distinct ones among them, as many as it has
room for (`latest`), in this order (`Mirrors`). One access puts its block
at the front, whether it was a hit or a miss (`latest_cons`). So of two
caches with the same accesses the larger one has every block of the
smaller one (`mem_latest_of_le`) and no fewer hits (`hitsAmong_le`).
-/

namespace Erofs

variable {seen : List Nat} {capacity larger block : Nat}

/-! ## The latest blocks -/

/-- Dropping some blocks and dropping repetitions can be done in either
order. -/
theorem eraseDups_filter (p : Nat → Bool) (blocks : List Nat) :
    (blocks.filter p).eraseDups = blocks.eraseDups.filter p := by
  match blocks with
  | [] => rfl
  | block :: rest =>
    have hrest := eraseDups_filter p (rest.filter (!· == block))
    rw [List.filter_filter] at hrest
    by_cases hp : p block
    · rw [List.filter_cons_of_pos hp, List.eraseDups_cons, List.eraseDups_cons,
        List.filter_cons_of_pos hp, List.filter_filter, ← hrest]
      simp only [Bool.and_comm]
    · rw [List.filter_cons_of_neg hp, List.eraseDups_cons, List.filter_cons_of_neg hp, ← hrest]
      refine congrArg _ (List.filter_congr fun b _ => ?_)
      by_cases hb : b = block
      · simp [hb, hp]
      · simp [hb]
termination_by blocks.length
decreasing_by exact Nat.lt_succ_of_le (List.length_filter_le ..)

theorem eraseDups_cons_eq (block : Nat) (seen : List Nat) :
    (block :: seen).eraseDups = block :: seen.eraseDups.filter (· != block) := by
  rw [List.eraseDups_cons, eraseDups_filter]
  rfl

theorem nodup_eraseDups (blocks : List Nat) : blocks.eraseDups.Nodup := by
  induction blocks with
  | nil => exact List.nodup_nil
  | cons block rest ih =>
    rw [eraseDups_cons_eq, List.nodup_cons]
    exact ⟨by simp, ih.filter _⟩

/-- The blocks that a cache of some capacity keeps after some accesses: the
latest ones, each of them once. -/
def latest (capacity : Nat) (seen : List Nat) : List Nat := seen.eraseDups.take capacity

theorem nodup_latest (capacity : Nat) (seen : List Nat) : (latest capacity seen).Nodup :=
  (nodup_eraseDups seen).sublist (List.take_sublist ..)

theorem length_latest_le (capacity : Nat) (seen : List Nat) :
    (latest capacity seen).length ≤ capacity :=
  List.length_take_le ..

/-- **A larger cache keeps what a smaller one keeps.** -/
theorem mem_latest_of_le (h : capacity ≤ larger) (hb : block ∈ latest capacity seen) :
    block ∈ latest larger seen :=
  (List.take_subset_take_left _ h) hb

/-- Of distinct blocks, dropping one makes room for one. -/
theorem take_filter_take {blocks : List Nat} (hnodup : blocks.Nodup) (block room : Nat) :
    ((blocks.take (room + 1)).filter (· != block)).take room =
      (blocks.filter (· != block)).take room := by
  rcases Nat.le_total blocks.length (room + 1) with hall | hmore
  · rw [List.take_of_length_le hall]
  · obtain ⟨rest, hrest⟩ := (List.take_prefix (room + 1) blocks).filter (· != block)
    have hlength : room ≤ ((blocks.take (room + 1)).filter (· != block)).length := by
      rw [← (hnodup.sublist (List.take_sublist ..)).erase_eq_filter, List.length_erase,
        List.length_take_of_le hmore]
      split <;> omega
    rw [← hrest, List.take_append_of_le_length hlength]

/-- **One more access.** Its block comes first, and the last one goes if
there is no room for it any more. -/
theorem latest_cons (hpos : 0 < capacity) (block : Nat) (seen : List Nat) :
    latest capacity (block :: seen) =
      block :: ((latest capacity seen).filter (· != block)).take (capacity - 1) := by
  obtain ⟨room, rfl⟩ : ∃ room, capacity = room + 1 := ⟨capacity - 1, by omega⟩
  rw [latest, eraseDups_cons_eq, List.take_succ_cons, latest, Nat.add_sub_cancel,
    take_filter_take (nodup_eraseDups seen)]

/-! ## Hits -/

/-- The number of hits among accesses to `blocks`, one after another, after
some others. -/
def hitsAmong (capacity : Nat) : (seen blocks : List Nat) → Nat
  | _, [] => 0
  | seen, block :: rest =>
    (if block ∈ latest capacity seen then 1 else 0) + hitsAmong capacity (block :: seen) rest

/-- **A larger cache has no fewer hits.** -/
theorem hitsAmong_le (h : capacity ≤ larger) (seen blocks : List Nat) :
    hitsAmong capacity seen blocks ≤ hitsAmong larger seen blocks := by
  induction blocks generalizing seen with
  | nil => exact Nat.le_refl _
  | cons block rest ih =>
    refine Nat.add_le_add ?_ (ih _)
    by_cases hb : block ∈ latest capacity seen
    · exact Nat.le_of_eq (by rw [if_pos hb, if_pos (mem_latest_of_le h hb)])
    · rw [if_neg hb]
      exact Nat.zero_le _

/-! ## Caches -/

namespace BlockCache

variable {c : BlockCache} {content : Nat → ByteArray}

/-- The numbers of the blocks in a cache, the most recently used first. -/
def blocks (c : BlockCache) : List Nat := c.entries.map Prod.fst

/-- A cache keeps the latest blocks, and of each of them the bytes that a
device has there. -/
structure Mirrors (content : Nat → ByteArray) (seen : List Nat) (c : BlockCache) : Prop where
  pos : 0 < c.capacity
  entries_eq : c.entries = (latest c.capacity seen).map fun block => (block, content block)

namespace Mirrors

theorem ofCapacity? {size : Nat} (h : BlockCache.ofCapacity? capacity size = some c) :
    c.Mirrors content [] := by
  unfold BlockCache.ofCapacity? at h
  split at h
  · cases h
  · next hpos =>
    cases h
    exact ⟨Nat.pos_of_ne_zero hpos, by simp [latest]⟩

theorem clear (h : c.Mirrors content seen) : c.clear.Mirrors content [] :=
  ⟨h.pos, by simp [BlockCache.clear, latest]⟩

theorem blocks_eq (h : c.Mirrors content seen) : c.blocks = latest c.capacity seen := by
  simp [blocks, h.entries_eq, Function.comp_def]

/-- A block is found if it is one of the latest. -/
theorem peek?_eq (h : c.Mirrors content seen) (block : Nat) :
    c.peek? block = if block ∈ latest c.capacity seen then some (content block) else none := by
  rw [peek?, h.entries_eq]
  induction latest c.capacity seen with
  | nil => rfl
  | cons first rest ih =>
    rw [List.map_cons, List.lookup_cons, ih]
    by_cases hfirst : block = first
    · simp [hfirst]
    · simp [hfirst, beq_eq_false_iff_ne.mpr hfirst]

theorem others_eq (h : c.Mirrors content seen) (block : Nat) :
    c.others block =
      ((latest c.capacity seen).filter (· != block)).map fun b => (b, content b) := by
  rw [others, h.entries_eq, List.filter_map]
  rfl

/-- What a cache has to be once a block was accessed. -/
theorem cons (h : c.Mirrors content seen) {d : BlockCache} (hcapacity : d.capacity = c.capacity)
    (hentries : d.entries = (block, content block) :: (c.others block).take (c.capacity - 1)) :
    d.Mirrors content (block :: seen) where
  pos := hcapacity ▸ h.pos
  entries_eq := by
    rw [hentries, hcapacity, latest_cons h.pos, h.others_eq, List.map_cons, List.map_take]

theorem length_others_le (h : c.Mirrors content seen) (block : Nat) :
    (c.others block).length ≤ c.capacity := by
  rw [h.others_eq, List.length_map]
  exact Nat.le_trans (List.length_filter_le ..) (length_latest_le ..)

/-- A hit moves the block to the front. The others leave room for it
already. -/
theorem touch_of_mem (h : c.Mirrors content seen) (hb : block ∈ latest c.capacity seen) :
    ∃ d, c.touch block = (true, d) ∧ d.Mirrors content (block :: seen) ∧
      d.capacity = c.capacity ∧ d.hits = c.hits + 1 := by
  have hroom : (c.others block).length ≤ c.capacity - 1 := by
    have hlatest := length_latest_le c.capacity seen
    rw [h.others_eq, List.length_map, ← (nodup_latest ..).erase_eq_filter,
      List.length_erase_of_mem hb]
    omega
  refine ⟨{ c with
    accesses := c.accesses + 1, hits := c.hits + 1
    entries := (block, content block) :: c.others block }, ?_, h.cons rfl ?_, rfl, rfl⟩
  · rw [touch, h.peek?_eq, if_pos hb]
  · rw [List.take_of_length_le hroom]

/-- A miss changes the counts only. -/
theorem touch_of_not_mem (h : c.Mirrors content seen) (hb : block ∉ latest c.capacity seen) :
    ∃ d, c.touch block = (false, d) ∧ d.Mirrors content seen ∧
      d.capacity = c.capacity ∧ d.hits = c.hits := by
  refine ⟨{ c with accesses := c.accesses + 1, misses := c.misses + 1 }, ?_,
    ⟨h.pos, h.entries_eq⟩, rfl, rfl⟩
  rw [touch, h.peek?_eq, if_neg hb]

/-- The block that was missed is put at the front. If there is no room for
it, it takes that of the last one. -/
theorem insert (h : c.Mirrors content seen) (block : Nat) :
    (c.insert block (content block)).1.Mirrors content (block :: seen) ∧
      (c.insert block (content block)).1.capacity = c.capacity ∧
      (c.insert block (content block)).1.hits = c.hits := by
  have hroom := h.length_others_le block
  have hpos := h.pos
  simp only [BlockCache.insert]
  by_cases hfull : (c.others block).length < c.capacity
  · rw [if_pos hfull]
    refine ⟨h.cons rfl ?_, rfl, rfl⟩
    change (block, content block) :: c.others block = _
    rw [List.take_of_length_le (by omega)]
  · rw [if_neg hfull]
    cases hlast : (c.others block).getLast? with
    | none =>
      rw [List.getLast?_eq_none_iff] at hlast
      simp [hlast] at hfull
      omega
    | some last =>
      refine ⟨h.cons rfl ?_, rfl, rfl⟩
      change _ :: (c.others block).dropLast = _
      rw [List.dropLast_eq_take, Nat.le_antisymm hroom (Nat.le_of_not_lt hfull)]

end Mirrors

end BlockCache

end Erofs
