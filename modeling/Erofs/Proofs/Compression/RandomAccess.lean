import Erofs.Proofs.Compression.PackReading
/-!
# Random access to a compact index

Any lcluster of a compact index is read on its own, from the bytes of its
pack, and it is read as the table has it (`compact_random_access`). One
figure may be lost. An lcluster in the last slot of a pack that gives the
number of blocks of its pcluster has no place for the distance ahead, so that
it seems to be right before the next head.
-/

namespace Erofs

namespace CompressedFile

variable {f : CompressedFile} {sb : Superblock} {image : ByteArray}
variable {s : TableShape} {t : IndexTable s}

/-- The slot of an lcluster is the last one of its pack. -/
def InLastSlot (f : CompressedFile) (lcn : Nat) : Prop :=
  (f.packPlace lcn).slot + 1 = (f.packPlace lcn).kind.slots

instance (f : CompressedFile) (lcn : Nat) : Decidable (f.InLastSlot lcn) :=
  inferInstanceAs (Decidable ((f.packPlace lcn).slot + 1 = (f.packPlace lcn).kind.slots))

/-- What is read of the lcluster `lcn` is what a table has there. -/
structure ReadExactly (f : CompressedFile) (lcn : Nat) (l found : Lcluster) : Prop where
  type : found.type = l.type
  /-- An lcluster in which no pcluster starts gives its own end. -/
  offset : found.offset f.lclusterSize = l.offset f.lclusterSize
  block : found.block = l.block
  blockCount : found.blockCount = l.blockCount
  back : found.distances.1 = l.distances.1
  /-- The distance to the next head, if there is one, and if a number of
  blocks does not take its place. -/
  ahead : lcn + l.distances.2 < f.lclusterCount →
    found.distances.2 = if f.InLastSlot lcn ∧ l.blockCount ≠ 0 then 1 else l.distances.2

/-- **Every lcluster of a compact index is read exactly**, whichever are
read before. -/
theorem compact_random_access (r : Resolved sb f) (hformat : f.format = .compact)
    (himage : image.size < addressLimit) (hfits : f.Fits sb t)
    (hindex : HoldsPacks image s (f.advises MapAdvice.twoBytePacks) f.headerEnd t.lclusters) :
    ∀ lcn, lcn < f.lclusterCount → ∃ l found, t.lclusters[lcn]? = some l ∧
      (f.loadLcluster lcn).onImage image = .ok found ∧ f.ReadExactly lcn l found := by
  intro lcn hlt
  rw [hfits.count] at hlt
  obtain ⟨head, e, k, run, hk, rfl⟩ := IndexTable.exists_run hlt
  cases k with
  | zero =>
    refine ⟨_, _, run.get 0 hk, load_head_of_holdsPacks r hformat himage hfits hindex run, ?_⟩
    refine ⟨rfl, rfl, rfl, rfl, rfl, fun _ => ?_⟩
    rw [if_neg (fun h => h.2 rfl)]
    rfl
  | succ k =>
    obtain ⟨found, hload, hahead⟩ :=
      exists_load_inner_of_holdsPacks r hformat himage hfits hindex run (Nat.succ_pos k) hk
    refine ⟨_, _, run.get (k + 1) hk, hload, rfl, rfl, rfl, rfl, rfl, fun hnext => ?_⟩
    refine hahead ?_
    -- the distance ahead is the rest of the run
    change head + (k + 1) + (e.span - (k + 1)) < f.lclusterCount at hnext
    omega

/-- A table of 30 lclusters with pclusters of up to ten blocks. -/
def longTable : IndexTable ⟨12, 12, true⟩ :=
  [{ storage := .compressed, offset := 11, block := 10, span := 5, blocks := 3
     offset_lt := by decide, span_pos := by decide, span_lt := by decide, blocks_eq := nofun
     blocks_lt := fun _ => by decide, blocks_one := fun _ => by decide },
   { storage := .compressed, offset := 100, block := 13, span := 8, blocks := 6
     offset_lt := by decide, span_pos := by decide, span_lt := by decide, blocks_eq := nofun
     blocks_lt := fun _ => by decide, blocks_one := fun _ => by decide },
   { storage := .plain, offset := 0, block := 19, span := 7, blocks := 9
     offset_lt := by decide, span_pos := by decide, span_lt := by decide, blocks_eq := nofun
     blocks_lt := fun _ => by decide, blocks_one := fun _ => by decide },
   { storage := .compressed, offset := 4095, block := 28, span := 4, blocks := 5
     offset_lt := by decide, span_pos := by decide, span_lt := by decide, blocks_eq := nofun
     blocks_lt := fun _ => by decide, blocks_one := fun _ => by decide },
   { storage := .compressed, offset := 77, block := 33, span := 6, blocks := 10
     offset_lt := by decide, span_pos := by decide, span_lt := by decide, blocks_eq := nofun
     blocks_lt := fun _ => by decide, blocks_one := fun _ => by decide }]

/-- Its compact index: three packs of two slots, one of sixteen, and four of
two slots. -/
def longIndex : ByteArray :=
  indexImage 7 0 [11, 16, 3, 40, 10, 0, 0, 0, 2, 32, 2, 32, 0, 0, 0, 0, 4, 32, 100, 16, 13, 0,
    0, 0, 6, 168, 0, 56, 0, 18, 128, 5, 160, 1, 120, 0, 2, 0, 9, 168, 0, 56, 0, 18, 128, 5, 160,
    1, 248, 255, 21, 160, 13, 0, 0, 0, 2, 32, 1, 32, 0, 0, 0, 0, 77, 16, 10, 40, 33, 0, 0, 0, 2,
    32, 3, 32, 0, 0, 0, 0, 4, 32, 1, 32, 0, 0, 0, 0]

/-- The superblock of an image with pclusters of more than one block. -/
def longSuperblock : Superblock := .bare 12 2

/-- The inode of a file of 30 lclusters. -/
def longInode : Inode := .bare .compressedCompact 122880

/-- The file that it resolves to. -/
def longFile : CompressedFile := indexFile .compact longSuperblock longInode 7 0

theorem fits_longTable : longFile.Fits longSuperblock longTable :=
  ⟨by decide, rfl, rfl, fun storage => by cases storage <;> decide⟩

theorem holdsPacks_longTable :
    HoldsPacks longIndex ⟨12, 12, true⟩ (longFile.advises MapAdvice.twoBytePacks)
      longFile.headerEnd longTable.lclusters := by
  -- one pack after another
  iterate 8
    refine .pack (by decide) rfl ⟨by decide +kernel, by decide +kernel, by decide +kernel⟩ ?_
  exact .done

/-- The lcluster 21 is in the last slot of the pack of sixteen. Its head is
right before it, and the next one three lclusters ahead. -/
theorem compact_random_access_long :
    (resolve longSuperblock longInode).onImage longIndex = .ok longFile ∧
      longTable.lclusters[21]? = some (.inner 1 3 5) ∧ longFile.InLastSlot 21 ∧
      (longFile.loadLcluster 21).onImage longIndex = .ok (.inner 1 1 5) ∧
      longFile.ReadExactly 21 (.inner 1 3 5) (.inner 1 1 5) := by
  have hresolve : (resolve longSuperblock longInode).onImage longIndex = .ok longFile := by
    decide +kernel
  have hl : longTable.lclusters[21]? = some (.inner 1 3 5) := by decide
  have hload : (longFile.loadLcluster 21).onImage longIndex = .ok (.inner 1 1 5) := by
    decide +kernel
  obtain ⟨l, found, hl', hload', hread⟩ := compact_random_access (resolved_of_resolve hresolve) rfl
    (by decide +kernel) fits_longTable holdsPacks_longTable 21 (by decide +kernel)
  rw [hl, Option.some.injEq] at hl'
  rw [hload, Except.ok.injEq] at hload'
  subst hl' hload'
  exact ⟨hresolve, hl, by decide, hload, hread⟩

end CompressedFile

end Erofs
