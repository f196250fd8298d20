import Erofs.Proofs.Compression.Allocation
import Erofs.Proofs.Compression.FullEncoding
import Erofs.Proofs.Compression.PackReading
/-!
# Two indexes of one table

A full and a compact index of one table describe the same file: both walks
collect the pclusters of the table, every lcluster is read the same from
both but for its distance ahead, and if the blocks of the last pcluster
are the same, so is the occupied size.
-/

namespace Erofs

namespace CompressedFile

variable {sb : Superblock} {f c : CompressedFile} {full compact : ByteArray} {map : ExtentMap}
variable {s : TableShape} {t : IndexTable s}

/-- The blocks of the last pcluster of a map are the same in two
images. -/
def SameLastBlocks (sb : Superblock) (map : ExtentMap) (full compact : ByteArray) : Prop :=
  ∀ last, map.last? = some last →
    imageRange full (sb.blockStart last.block.toNat) (last.blocks * sb.blockSize) =
      imageRange compact (sb.blockStart last.block.toNat) (last.blocks * sb.blockSize)

/-- **The size of the last pcluster** depends on the file by its size, its
lclusters and its algorithm, and on the image by the blocks of that
pcluster. -/
theorem onImage_lastSize_congr [Lz4.Compressor] (hsize : f.size = c.size)
    (hbits : f.lclusterBits = c.lclusterBits) (halgorithm : f.algorithm = c.algorithm)
    (hblocks : SameLastBlocks sb map full compact) :
    (f.lastSize sb map).onImage full = (c.lastSize sb map).onImage compact := by
  unfold lastSize
  cases hlast : map.last? with
  | none => rfl
  | some last =>
    have hstart : f.start last = c.start last := by simp only [start, lclusterSize, hbits]
    simp only [hsize, hstart]
    split
    · rfl
    · cases last.storage with
      | plain => rfl
      | compressed =>
        simp only [compressedSize, halgorithm, Query.onImage_bind, Query.onImage_liftM,
          Query.onImage_bytesDirect, hblocks last hlast]
        congr 1
        funext codec
        congr 1
        funext raw
        split
        · rfl
        · rw [onImage_recompressedSize, onImage_recompressedSize]

/-- And so does the occupied size, for files with the same map. -/
theorem onImage_occupiedSize_congr [Lz4.Compressor] (hf : (f.extents sb).onImage full = .ok map)
    (hc : (c.extents sb).onImage compact = .ok map) (hsize : f.size = c.size)
    (hbits : f.lclusterBits = c.lclusterBits) (halgorithm : f.algorithm = c.algorithm)
    (hblocks : SameLastBlocks sb map full compact) :
    (f.occupiedSize sb).onImage full = (c.occupiedSize sb).onImage compact := by
  unfold occupiedSize
  rw [hsize]
  split
  · rfl
  · rw [Query.onImage_bind_of_ok hf, Query.onImage_bind_of_ok hc, Query.onImage_bind,
      Query.onImage_bind, onImage_lastSize_congr hsize hbits halgorithm hblocks]
    rfl

/-- **A full and a compact index of one table describe the same file.** -/
theorem full_and_compact_agree [Lz4.Compressor] {i : Inode} (hfull : f.format = .full)
    (hc : (resolve sb i).onImage compact = .ok c) (hcompact : c.format = .compact)
    (hlimit : full.size < addressLimit ∧ compact.size < addressLimit)
    (hfits : f.Fits sb t ∧ c.Fits sb t)
    (hrecords : HoldsFullIndex full f.headerEnd t.lclusters)
    (hpacks : HoldsPacks compact s (c.advises MapAdvice.twoBytePacks) c.headerEnd
      t.lclusters) :
    (f.extents sb).onImage full = .ok t.map ∧
      (c.extents sb).onImage compact = .ok t.map ∧
      (∀ lcn l, t.lclusters[lcn]? = some l →
        (f.loadLcluster lcn).onImage full = .ok l ∧
          ∃ found, (c.loadLcluster lcn).onImage compact = .ok found ∧
            ReadAs c.lclusterCount lcn l found) ∧
      (f.size = c.size → f.algorithm = c.algorithm →
        SameLastBlocks sb t.map full compact →
        (f.occupiedSize sb).onImage full = (c.occupiedSize sb).onImage compact) := by
  have hshows := shows_of_holdsFullIndex hfull hlimit.1 hfits.1 hrecords
  have hshows' := shows_of_holdsPacks (resolved_of_resolve hc) hcompact hlimit.2 hfits.2 hpacks
  refine ⟨hshows.extents_eq, hshows'.extents_eq, ?_, ?_⟩
  · intro lcn l hl
    exact ⟨load_of_holdsFullIndex hfull hlimit.1 hfits.1 hrecords hl, hshows'.reads lcn l hl⟩
  · intro hsize halgorithm hblocks
    exact onImage_occupiedSize_congr hshows.extents_eq hshows'.extents_eq hsize
      (hshows.lclusterBits.trans hshows'.lclusterBits.symm) halgorithm hblocks

/-- A table of five lclusters: a pcluster of two blocks in three, and a
plain one of one block in the other two. -/
def smallTable : IndexTable ⟨12, 12, true⟩ :=
  [{ storage := .compressed, offset := 5, block := 10, span := 3, blocks := 2
     offset_lt := by decide, span_pos := by decide, span_lt := by decide, blocks_eq := nofun
     blocks_lt := fun _ => by decide, blocks_one := fun _ => by decide },
   { storage := .plain, offset := 7, block := 12, span := 2, blocks := 1
     offset_lt := by decide, span_pos := by decide, span_lt := by decide, blocks_eq := nofun
     blocks_lt := fun _ => by decide, blocks_one := fun _ => by decide }]

/-- Its full index. -/
def smallFullIndex : ByteArray :=
  indexImage 6 0 [0, 0, 0, 0, 0, 0, 0, 0, 1, 0, 5, 0, 10, 0, 0, 0, 2, 0, 0, 0, 2, 8, 2, 0,
    2, 0, 0, 0, 2, 0, 1, 0, 0, 0, 7, 0, 12, 0, 0, 0, 2, 0, 0, 0, 1, 8, 1, 0]

/-- Its compact index, in three packs, the last one with a slot to
spare. -/
def smallCompactIndex : ByteArray :=
  indexImage 6 0 [0x05, 0x10, 0x02, 0x28, 10, 0, 0, 0, 0x02, 0x20, 0x07, 0x00, 12, 0, 0, 0,
    0x01, 0x28, 0xFF, 0xFF, 0, 0, 0, 0]

/-- The superblock of an image with pclusters of more than one block. -/
def smallSuperblock : Superblock := .bare 12 2

/-- The file that has a table as its full index. -/
def smallFullFile : CompressedFile :=
  indexFile .full smallSuperblock (.bare .compressedFull 20480) 6 0

/-- And the one that has it as its compact index. -/
def smallCompactFile : CompressedFile :=
  indexFile .compact smallSuperblock (.bare .compressedCompact 20480) 6 0

theorem fits_smallTable {f : CompressedFile} (h : f = smallFullFile ∨ f = smallCompactFile) :
    f.Fits smallSuperblock smallTable := by
  rcases h with rfl | rfl
  · exact ⟨by decide, rfl, rfl, fun storage => by cases storage <;> decide⟩
  · exact ⟨by decide, rfl, rfl, fun storage => by cases storage <;> decide⟩

theorem holdsPacks_smallTable :
    HoldsPacks smallCompactIndex ⟨12, 12, true⟩ (smallCompactFile.advises MapAdvice.twoBytePacks)
      smallCompactFile.headerEnd smallTable.lclusters :=
  .pack (by decide) rfl
    ⟨by decide, by decide, by decide⟩ <|
  .pack (by decide) rfl
    ⟨by decide, by decide, by decide⟩ <|
  .pack (by decide) rfl
    ⟨by decide, by decide, by decide⟩ .done

section
attribute [local instance] Lz4.Compressor.greedy

theorem agree_on_smallTable :
    (resolve smallSuperblock (.bare .compressedCompact 20480)).onImage smallCompactIndex =
        .ok smallCompactFile ∧
      HoldsFullIndex smallFullIndex smallFullFile.headerEnd smallTable.lclusters ∧
      (smallFullFile.extents smallSuperblock).onImage smallFullIndex =
        .ok (.of 5 [⟨0, .compressed, 5, 10, 2⟩, ⟨3, .plain, 7, 12, 1⟩]) ∧
      (smallCompactFile.extents smallSuperblock).onImage smallCompactIndex =
        .ok (.of 5 [⟨0, .compressed, 5, 10, 2⟩, ⟨3, .plain, 7, 12, 1⟩]) ∧
      (smallFullFile.occupiedSize smallSuperblock).onImage smallFullIndex =
        (smallCompactFile.occupiedSize smallSuperblock).onImage smallCompactIndex := by
  have hc : (resolve smallSuperblock (.bare .compressedCompact 20480)).onImage smallCompactIndex =
      .ok smallCompactFile := by decide +kernel
  have hrecords : HoldsFullIndex smallFullIndex smallFullFile.headerEnd
      smallTable.lclusters := by decide
  have hlast : smallTable.map.last? = some ⟨3, .plain, 7, 12, 1⟩ := by decide
  have hblocks : SameLastBlocks smallSuperblock smallTable.map smallFullIndex
      smallCompactIndex := by
    intro last h
    rw [hlast, Option.some.injEq] at h
    subst h
    decide
  obtain ⟨hf, hc', -, hsize⟩ := full_and_compact_agree (f := smallFullFile) rfl hc rfl
    ⟨by decide, by decide⟩
    ⟨fits_smallTable (.inl rfl), fits_smallTable (.inr rfl)⟩ hrecords holdsPacks_smallTable
  exact ⟨hc, hrecords, hf, hc', hsize (by decide) rfl hblocks⟩

end

end CompressedFile

end Erofs
