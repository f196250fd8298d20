import Erofs.BlockCache
import Erofs.Proofs.Volume.Spans
/-!
# What a cache holds

Whatever a cache holds was put into it: a use keeps its entries, and adding
a block adds that block alone. So a cache that is given nothing but blocks
of an image holds nothing else (`Holds`). A block that was used or added is
there afterwards, so taking its bytes does not fail (`bytesOf_touch`,
`bytesOf_insert`).
-/

namespace Erofs

namespace BlockCache

variable {c : BlockCache} {block : Nat} {data : ByteArray} {image : ByteArray} {blockSize : Nat}

/-- Every block in the cache is the one that the image has there. -/
def Holds (image : ByteArray) (blockSize : Nat) (c : BlockCache) : Prop :=
  ∀ entry ∈ c.entries, entry.2 = blockOf image blockSize entry.1

theorem mem_others {entry : Nat × ByteArray} (h : entry ∈ c.others block) : entry ∈ c.entries :=
  (List.mem_filter.mp h).1

/-- What is found in the cache is one of its entries. -/
theorem mem_of_peek? (h : c.peek? block = some data) : (block, data) ∈ c.entries := by
  obtain ⟨before, after, hentries, -⟩ := List.lookup_eq_some_iff.mp h
  rw [hentries]
  exact List.mem_append_right _ List.mem_cons_self

/-- The bytes of the first block can be taken. -/
theorem bytesOf_of_entries {rest : List (Nat × ByteArray)}
    (h : c.entries = (block, data) :: rest) : c.bytesOf block = .ok data := by
  rw [bytesOf, peek?, h, List.lookup_cons_self]

/-- A use finds what is there. -/
theorem touch_fst (c : BlockCache) (block : Nat) : (c.touch block).1 = c.contains block := by
  unfold touch contains
  cases c.peek? block <;> rfl

/-- What was found can be taken. -/
theorem bytesOf_touch (h : c.peek? block = some data) :
    (c.touch block).2.bytesOf block = .ok data := by
  unfold touch
  simp only [h]
  exact bytesOf_of_entries rfl

/-- And so can what was added, whatever had to leave. -/
theorem bytesOf_insert (c : BlockCache) (block : Nat) (data : ByteArray) :
    (c.insert block data).1.bytesOf block = .ok data := by
  unfold insert
  simp only
  split
  · exact bytesOf_of_entries rfl
  · exact bytesOf_of_entries rfl

/-- A use adds nothing. -/
theorem mem_of_mem_touch {entry : Nat × ByteArray} (h : entry ∈ (c.touch block).2.entries) :
    entry ∈ c.entries := by
  unfold touch at h
  cases hpeek : c.peek? block with
  | none => simpa [hpeek] using h
  | some data =>
    simp only [hpeek, List.mem_cons] at h
    rcases h with rfl | h
    · exact mem_of_peek? hpeek
    · exact mem_others h

/-- A block that was missed is still not there. -/
theorem peek?_touch_of_none (h : c.peek? block = none) :
    (c.touch block).2.peek? block = none := by
  unfold touch
  simp only [h]
  exact h

/-- Adding a block adds that block alone. -/
theorem mem_insert {entry : Nat × ByteArray} (h : entry ∈ (c.insert block data).1.entries) :
    entry = (block, data) ∨ entry ∈ c.entries := by
  unfold insert at h
  simp only at h
  split at h
  · exact (List.mem_cons.mp h).imp_right mem_others
  · exact (List.mem_cons.mp h).imp_right fun h => mem_others ((List.dropLast_sublist _).subset h)

namespace Holds

theorem peek? (h : c.Holds image blockSize) (hpeek : c.peek? block = some data) :
    data = blockOf image blockSize block :=
  h _ (mem_of_peek? hpeek)

theorem touch (h : c.Holds image blockSize) (block : Nat) :
    (c.touch block).2.Holds image blockSize :=
  fun entry hmem => h entry (mem_of_mem_touch hmem)

theorem insert (h : c.Holds image blockSize) (hdata : data = blockOf image blockSize block) :
    (c.insert block data).1.Holds image blockSize := by
  intro entry hmem
  rcases mem_insert hmem with rfl | hmem
  · exact hdata
  · exact h entry hmem

theorem clear (c : BlockCache) : c.clear.Holds image blockSize := by
  intro entry hmem
  simp [BlockCache.clear] at hmem

theorem ofCapacity? {capacity size : Nat} (h : BlockCache.ofCapacity? capacity size = some c) :
    c.Holds image blockSize := by
  unfold BlockCache.ofCapacity? at h
  split at h
  · cases h
  · cases h
    intro entry hmem
    simp at hmem

end Holds

end BlockCache

end Erofs
