import Erofs.Proofs.Compression.Allocation
import Erofs.Proofs.Compression.Failures
import Erofs.Proofs.Placement
/-!
# Extent maps of any index

A finished walk proves something of its map, whatever the bytes of the
index are (`ExtentMap.Sound`). The pclusters stand in the order of the file,
each of them is what the index says of a head, and no head is left out right
after another. If the file is not empty, neither is its map. So the size of
a last pcluster can always be asked for, and its blocks can be taken from
those of the map (`CompressedFile.extents_sound`).
-/

-- The zero of a sum is the numeral.
attribute [local instance (high)] Zero.ofOfNat0

namespace Erofs

variable {image : ByteArray} {sb : Superblock} {i : Inode} {f : CompressedFile} {map : ExtentMap}
variable {lcn : Nat} {p : Pcluster} {ps before after : List Pcluster}

/-! ## What a map says -/

/-- A map tells of a file what its index says. -/
structure ExtentMap.Sound (f : CompressedFile) (image : ByteArray) (map : ExtentMap) : Prop where
  lclusterCount : map.lclusterCount = f.lclusterCount
  /-- The pclusters stand in the order of the file. -/
  ordered : map.pclusters.Pairwise fun p q => p.lcn < q.lcn
  /-- Each of them starts in an lcluster of the file. -/
  lt : ∀ p ∈ map.pclusters, p.lcn < f.lclusterCount
  /-- The index says that this is a head, and where its bytes are. -/
  load : ∀ p ∈ map.pclusters,
    (f.loadLcluster p.lcn).onImage image = .ok (.head p.storage p.offset p.block)
  blocks_pos : ∀ p ∈ map.pclusters, 1 ≤ p.blocks
  /-- The lcluster after a head is the next head, or none. -/
  inner : ∀ before p after, map.pclusters = before ++ p :: after →
    p.lcn + 1 < f.lclusterCount → after.head?.map Pcluster.lcn ≠ some (p.lcn + 1) →
    ∃ back ahead count, (f.loadLcluster (p.lcn + 1)).onImage image = .ok (.inner back ahead count)
  blockCount : map.blockCount = (map.pclusters.map Pcluster.blocks).sum
  /-- The number of all blocks fits a word. -/
  blockCount_lt : map.blockCount < addressLimit

/-- A range of blocks is the smallest one around some pclusters. -/
structure Pcluster.Spanned (ps : List Pcluster) (first last : Nat) : Prop where
  within : ∀ p ∈ ps, first ≤ p.block.toNat ∧ p.block.toNat + p.blocks ≤ last
  first_mem : ∃ p ∈ ps, p.block.toNat = first
  last_mem : ∃ p ∈ ps, p.block.toNat + p.blocks = last

/-- **The range of a map is the one around its pclusters**, if there are
any. -/
theorem ExtentMap.exists_blockRange (hne : map.pclusters ≠ []) :
    ∃ first last, map.blockRange? = some (first, last) ∧
      Pcluster.Spanned map.pclusters first last := by
  unfold blockRange?
  cases hmin : (map.pclusters.map fun p => p.block.toNat).min? with
  | none => exact absurd (List.map_eq_nil_iff.mp (List.min?_eq_none_iff.mp hmin)) hne
  | some first =>
    cases hmax : (map.pclusters.map fun p => p.block.toNat + p.blocks).max? with
    | none => exact absurd (List.map_eq_nil_iff.mp (List.max?_eq_none_iff.mp hmax)) hne
    | some last =>
      obtain ⟨hfirst, hleast⟩ := List.min?_eq_some_iff.mp hmin
      obtain ⟨hlast, hmost⟩ := List.max?_eq_some_iff.mp hmax
      refine ⟨first, last, rfl, ?_, List.mem_map.mp hfirst, List.mem_map.mp hlast⟩
      intro p hp
      exact ⟨hleast _ (List.mem_map_of_mem hp), hmost _ (List.mem_map_of_mem hp)⟩

namespace CompressedFile

/-! ## What a walk records -/

/-- A head has a block. -/
theorem Recorded.one_le_blocks (h : f.Recorded sb image p) : 1 ≤ p.blocks := by
  have hblocks := h.blocks
  cases hbig : f.hasBig p.storage with
  | false =>
    rw [pclusterBlocks_of_not_big hbig, Except.ok.injEq] at hblocks
    have hpos := Nat.two_pow_pos (f.lclusterBits - sb.bits)
    omega
  | true =>
    rcases Nat.lt_or_ge (p.lcn + 1) f.lclusterCount with hnext | hlast
    · obtain ⟨l, -, hgives⟩ := (pclusterBlocks_eq_ok hbig hnext).mp hblocks
      cases l with
      | head storage offset block => exact Nat.le_of_eq hgives.symm
      | inner back ahead count =>
        obtain ⟨-, hcount, heq⟩ := hgives
        omega
    · rw [pclusterBlocks_of_last hbig hlast, Except.ok.injEq] at hblocks
      exact Nat.le_of_eq hblocks

namespace Walks

/-- A walk only goes forwards. -/
theorem le (h : f.Walks sb image lcn ps) : ∀ p ∈ ps, lcn ≤ p.lcn := by
  induction h with
  | done => simp
  | head _ _ ih =>
    intro q hq
    rcases List.mem_cons.mp hq with rfl | hq
    · exact Nat.le_refl _
    · exact Nat.le_of_succ_le (ih q hq)
  | inner _ _ _ ih =>
    intro q hq
    exact Nat.le_trans (Nat.le_add_right ..) (ih q hq)

/-- **So its pclusters stand in the order of the file.** -/
theorem pairwise (h : f.Walks sb image lcn ps) : ps.Pairwise fun p q => p.lcn < q.lcn := by
  induction h with
  | done => exact .nil
  | head _ hrest ih => exact .cons hrest.le ih
  | inner _ _ _ ih => exact ih

/-- Where it does not record a head at once, there is none. -/
theorem inner_of_head?_ne (h : f.Walks sb image lcn ps) (hlt : lcn < f.lclusterCount)
    (hne : ps.head?.map Pcluster.lcn ≠ some lcn) :
    ∃ back ahead count, (f.loadLcluster lcn).onImage image = .ok (.inner back ahead count) := by
  cases h with
  | done hge => exact absurd hlt (Nat.not_lt.mpr hge)
  | head _ _ => exact absurd rfl hne
  | inner _ hload _ => exact ⟨_, _, _, hload⟩

end Walks

/-- **The map of a walk is sound.** -/
theorem Placed.sound_of_walks (r : f.Placed image sb) (h : f.Walks sb image 0 ps) :
    ExtentMap.Sound f image (.of f.lclusterCount ps) where
  lclusterCount := rfl
  ordered := h.pairwise
  lt _ hp := (h.recorded hp).lt
  load _ hp := (h.recorded hp).load
  blocks_pos _ hp := (h.recorded hp).one_le_blocks
  inner before p after hps hlt hne := by
    obtain rfl : ps = before ++ p :: after := hps
    exact h.after_mem.2.inner_of_head?_ne hlt hne
  blockCount := rfl
  blockCount_lt := by
    -- at most 2 ^ 32 pclusters of fewer than 2 ^ 16 blocks
    have hsmall : ∀ p ∈ ps, p.blocks * 1 ≤ 2 ^ 16 := by
      intro p hp
      have hlt := (r.placed_of_recorded (h.recorded hp)).blocks_lt
      omega
    have hsum := sum_blocks_mul_le hsmall
    have hlength := h.length_le
    have hcount := r.count_le
    have hmost : ps.length * 2 ^ 16 ≤ 2 ^ 32 * 2 ^ 16 :=
      Nat.mul_le_mul_right _ (by simp only [maxAddressableUnits] at hcount; omega)
    show (ps.map Pcluster.blocks).sum < 2 ^ 64
    omega

/-! ## The first pcluster -/

/-- A file has lclusters exactly if it has bytes. -/
theorem lclusterCount_eq_zero_iff : f.lclusterCount = 0 ↔ f.size = 0 := by
  constructor
  · intro h
    have hle := le_unitsCovering_mul f.size f.lclusterBits
    rw [show unitsCovering f.size f.lclusterBits = 0 from h] at hle
    omega
  · intro h
    refine Nat.eq_zero_of_not_pos fun hpos => ?_
    have hlt := mul_lt_of_lt_unitsCovering hpos
    omega

/-- **The walk over a file with lclusters starts with a head.** -/
theorem exists_first_of_walkFrom (hpos : 0 < f.lclusterCount)
    (h : (f.walkFrom sb 0 .empty).onImage image = .ok map) :
    ∃ first rest, map.pclusters = first :: rest ∧ first.lcn = 0 := by
  rw [walkFrom_of_lt hpos] at h
  cases hload : (f.loadLcluster 0).onImage image with
  | error cause => simp [hload, Except.bind] at h
  | ok l =>
    cases l with
    | head storage offset block =>
      cases hblocks : (f.pclusterBlocks sb 0 storage).onImage image with
      | error cause => simp [hload, hblocks, Except.bind] at h
      | ok blocks =>
        simp only [hload, hblocks, Except.bind] at h
        obtain ⟨-, new, hps, -⟩ := walks_of_walkFrom h
        exact ⟨⟨0, storage, offset, block, blocks⟩, new, hps, rfl⟩
    | inner back ahead count => simp [hload, Except.bind, Collected.empty] at h

/-- So the map of a file with bytes has a pcluster at the front. -/
theorem exists_first_of_extents (hne : f.size ≠ 0) (h : (f.extents sb).onImage image = .ok map) :
    ∃ first rest, map.pclusters = first :: rest ∧ first.lcn = 0 := by
  rw [extents_eq] at h
  exact exists_first_of_walkFrom (Nat.pos_of_ne_zero (mt lclusterCount_eq_zero_iff.mp hne)) h

/-- And that of a file without bytes is empty. -/
theorem extents_of_size_eq_zero (hzero : f.size = 0)
    (h : (f.extents sb).onImage image = .ok map) : map = .empty := by
  have hcount := lclusterCount_eq_zero_iff.mpr hzero
  rw [extents_eq, walkFrom_of_end (Nat.le_of_eq hcount), Except.ok.injEq] at h
  rw [← h, hcount]
  rfl

/-! ## The occupied size -/

/-- A computation does not fail for want of a pcluster. -/
abbrev FailsOtherwise {α : Type} (e : Except Error α) : Prop := FailsFor (· ≠ .noPcluster) e

section
variable [Lz4.Compressor]

theorem failsOtherwise_recompressedSize (raw : ByteArray) (room remaining : Nat)
    (codec : String) :
    FailsOtherwise ((f.recompressedSize p raw room remaining codec).onImage image) := by
  rw [onImage_recompressedSize]
  split
  · exact .error (by simp)
  · split
    · exact .error (by simp)
    · refine ((Lz4.failsFor_decode raw remaining).mono ?_).map _
      rintro cause hcause rfl
      cases hcause

theorem failsOtherwise_compressedSize (remaining : Nat) :
    FailsOtherwise ((f.compressedSize sb p remaining).onImage image) := by
  refine FailsFor.onImage_bind (.onImage_liftM ?_) fun codec _ => ?_
  · cases f.algorithm with
    | lz4 => exact .ok _
    | lzma => exact .error (by simp)
  · refine FailsFor.onImage_bind ?_ fun raw _ => ?_
    · rw [Query.onImage_bytesDirect]
      exact .imageRange (by simp) (by simp)
    · split
      · exact .ok _
      · exact failsOtherwise_recompressedSize _ _ _ _

/-- The size of the last pcluster of a map that has one. -/
theorem failsOtherwise_lastSize (hne : map.pclusters ≠ []) :
    FailsOtherwise ((f.lastSize sb map).onImage image) := by
  unfold lastSize
  cases hlast : map.last? with
  | none => exact absurd (List.getLast?_eq_none_iff.mp hlast) hne
  | some last =>
    simp only
    split
    · exact .onImage_fail (by simp)
    · cases last.storage with
      | plain => exact .ok _
      | compressed => exact failsOtherwise_compressedSize _

/-- **The last pcluster is never missing.** -/
theorem failsOtherwise_occupiedSize : FailsOtherwise ((f.occupiedSize sb).onImage image) := by
  unfold occupiedSize
  split
  · exact .ok _
  · next hne =>
    refine FailsFor.onImage_bind ?_ fun map hmap => ?_
    · refine (failsFor_extents f sb image).mono ?_
      rintro cause hcause rfl
      cases hcause
    · obtain ⟨first, rest, hps, -⟩ := exists_first_of_extents hne hmap
      refine FailsFor.onImage_bind (failsOtherwise_lastSize ?_) fun last _ => .ok _
      simp [hps]

/-- **Extent maps are sound, whatever the bytes of the index are.** The map
of a file without bytes is empty, any other one starts at the front of the
file and has a range of blocks. The blocks of its last pcluster are among
those of the map, and there is always a last one to ask for. -/
theorem extents_sound (h : (resolve sb i).onImage image = .ok f) :
    (∀ map, (f.extents sb).onImage image = .ok map →
      map.Sound f image ∧
      (f.size = 0 → map = .empty) ∧
      (f.size ≠ 0 →
        (∃ first rest, map.pclusters = first :: rest ∧ first.lcn = 0) ∧
        ∃ first last, map.blockRange? = some (first, last) ∧
          Pcluster.Spanned map.pclusters first last) ∧
      ∀ last, map.last? = some last → last.blocks ≤ map.blockCount) ∧
    (f.occupiedSize sb).onImage image ≠ .error .noPcluster := by
  have hplaced := placed_of_resolve h
  refine ⟨?_, ?_⟩
  · intro map hmap
    have hfirst := fun hne => exists_first_of_extents hne hmap
    refine ⟨?_, ?_, ?_, ?_⟩
    · obtain ⟨hcount, hwalks⟩ := walks_of_extents hmap
      have hsound := hplaced.sound_of_walks hwalks
      rwa [← hcount, ← map.eq_of] at hsound
    · intro hzero
      exact extents_of_size_eq_zero hzero hmap
    · intro hne
      refine ⟨hfirst hne, ExtentMap.exists_blockRange ?_⟩
      obtain ⟨first, rest, hps, -⟩ := hfirst hne
      simp [hps]
    · intro last hlast
      exact ExtentMap.last_blocks_le hlast
  · intro hmissing
    exact failsOtherwise_occupiedSize _ hmissing rfl

end

/-- A damaged index of four lclusters. The second one says that the next
head is far past the end of the file, so that the walk does not get to the
heads behind it. -/
def lostIndex : ByteArray :=
  indexImage 0 0 [0, 0, 0, 0, 0, 0, 0, 0, 0, 0, 0, 0, 10, 0, 0, 0, 2, 0, 0, 0, 1, 0, 200, 0,
    0, 0, 0, 0, 11, 0, 0, 0, 1, 0, 7, 0, 12, 0, 0, 0]

section
attribute [local instance] Lz4.Compressor.greedy

theorem extents_sound_lost :
    (resolve plainSuperblock plainInode).onImage lostIndex = .ok plainFile ∧
      (plainFile.extents plainSuperblock).onImage lostIndex =
        .ok (.of 4 [⟨0, .plain, 0, 10, 1⟩]) ∧
      ExtentMap.Sound plainFile lostIndex (.of 4 [⟨0, .plain, 0, 10, 1⟩]) ∧
      (plainFile.occupiedSize plainSuperblock).onImage lostIndex ≠ .error .noPcluster := by
  have hresolve : (resolve plainSuperblock plainInode).onImage lostIndex = .ok plainFile := by
    decide +kernel
  have hmap : (plainFile.extents plainSuperblock).onImage lostIndex =
      .ok (.of 4 [⟨0, .plain, 0, 10, 1⟩]) := by
    decide +kernel
  obtain ⟨hsound, hsize⟩ := extents_sound hresolve
  exact ⟨hresolve, hmap, (hsound _ hmap).1, hsize⟩

end

end CompressedFile

end Erofs
