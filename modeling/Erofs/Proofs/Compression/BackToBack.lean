import Erofs.Compression.OccupiedSize
import Erofs.Proofs.Compression.PackEntries
import Erofs.Proofs.Compression.Walk
import Mathlib.Tactic.Common
/-!
# Pclusters of one pack

The block of a head is counted backwards, from the slots before it; the
number of blocks of a pcluster is found forwards, from the slot after its
head. This file puts the two together for pclusters that follow each other
in one well-formed pack. Where pclusters may have more than one block, they
lie back to back. Where they may not, the next one starts one block
further (`block_of_adjacent`) although the number of blocks is that of an
lcluster, so they lie back to back exactly if an lcluster is one block.
-/

namespace Erofs

namespace CompressedFile

variable {image : ByteArray} {sb : Superblock} {i : Inode} {f : CompressedFile} {map : ExtentMap}
variable {lcn : Nat} {a b : Pcluster}

/-! ## Well-formed packs -/

/-- What the slot of an lcluster holds. -/
def slotEntry (f : CompressedFile) (image : ByteArray) (lcn : Nat) : Except Error PackEntry :=
  (f.packAt image (f.packPlace lcn)).entry (f.packPlace lcn).slot

/-- The slot says that the lcluster is a head, or that it is none. -/
def StoresHead (f : CompressedFile) (image : ByteArray) (lcn : Nat) : Prop :=
  ∃ entry, f.slotEntry image lcn = .ok entry ∧ entry.isInner = false

/-- The slot says that the lcluster lies inside a pcluster. -/
def StoresInner (f : CompressedFile) (image : ByteArray) (lcn : Nat) : Prop :=
  ∃ entry, f.slotEntry image lcn = .ok entry ∧ entry.isInner = true

/-- The slot gives the number of blocks of its pcluster. Only the lcluster
right after a head does so, and only where pclusters may have more than
one block. -/
def CarriesCount (f : CompressedFile) (image : ByteArray) (lcn : Nat) : Prop :=
  f.hasBigPcluster = true ∧ (∃ head, lcn = head + 1 ∧ f.StoresHead image head) ∧
    ∃ entry count, f.slotEntry image lcn = .ok entry ∧ entry.isInner = true ∧
      markedBlockCount? entry.low = some count ∧ count ≠ 0

/-- A distance leads from an lcluster back to its head. -/
def IsDistanceBack (f : CompressedFile) (image : ByteArray) (lcn distance : Nat) : Prop :=
  ∃ head, lcn = head + distance ∧ f.StoresHead image head ∧
    ∀ k, head < k → k ≤ lcn → f.StoresInner image k

/-- **Well-formed packs.** -/
structure WellFormedPacks (f : CompressedFile) (image : ByteArray) : Prop where
  /-- A slot inside a pcluster that is not the last of its pack, and gives
  no number of blocks, gives the distance back to its head. -/
  distance : ∀ lcn entry, lcn < f.lclusterCount → f.slotEntry image lcn = .ok entry →
    entry.isInner = true → (f.packPlace lcn).slot + 1 < (f.packPlace lcn).kind.slots →
    ¬ f.CarriesCount image lcn → f.IsDistanceBack image lcn entry.low
  /-- Where pclusters may have more than one block, a head that is not
  followed by another one is followed by a number of blocks. -/
  count : f.hasBigPcluster = true → ∀ head, head + 1 < f.lclusterCount →
    f.StoresHead image head → f.StoresInner image (head + 1) → f.CarriesCount image (head + 1)

theorem StoresInner.not_head (h : f.StoresInner image lcn) : ¬ f.StoresHead image lcn := by
  rintro ⟨entry, hentry, hhead⟩
  obtain ⟨entry', hentry', hinner⟩ := h
  rw [hentry, Except.ok.injEq] at hentry'
  rw [hentry', hinner] at hhead
  cases hhead

/-- The head that a distance leads back to is the nearest one. -/
theorem IsDistanceBack.eq {distance head : Nat} (h : f.IsDistanceBack image lcn distance)
    (hle : head ≤ lcn) (hhead : f.StoresHead image head)
    (hinner : ∀ k, head < k → k ≤ lcn → f.StoresInner image k) : distance = lcn - head := by
  obtain ⟨other, rfl, hother, hrest⟩ := h
  rcases Nat.lt_trichotomy head other with hlt | rfl | hlt
  · exact absurd hother (hinner other hlt (by omega)).not_head
  · omega
  · exact absurd hhead (hrest head hlt hle).not_head

/-! ## Reading the slots of one pack -/

/-- A compact lcluster that was read, as its pack has it. -/
theorem compact_load_eq_ok {l : Lcluster} (r : Resolved sb f) (hc : f.format = .compact)
    (h : (f.loadLcluster lcn).onImage image = .ok l) :
    (∃ e, (f.packAt image (f.packPlace lcn)).Holds e) ∧
      (f.packAt image (f.packPlace lcn)).lcluster f (f.packPlace lcn).slot = .ok l := by
  obtain ⟨-, h⟩ := loadLcluster_eq_ok.mp h
  simp only [hc] at h
  obtain ⟨-, -, hsize, hl⟩ := loadCompact_eq_ok.mp h
  exact ⟨⟨_, holds_packOf (size_slice hsize) (r.lclusterBits_le hc)⟩, hl⟩

/-- The slots between those of two lclusters of one pack. -/
theorem slotEntry_of_between {e : Nat → PackEntry} {first last k : Nat} (h8 : f.headerEnd % 8 = 0)
    (hpack : (f.packPlace first).SamePack (f.packPlace last))
    (he : (f.packAt image (f.packPlace first)).Holds e) (hk : first ≤ k) (hkl : k ≤ last) :
    f.slotEntry image k = .ok (e ((f.packPlace first).slot + (k - first))) := by
  obtain ⟨hsame, hslot⟩ := samePack_of_between h8 hpack hk hkl
  have hlt := slot_lt h8 k
  unfold slotEntry
  rw [packAt_congr hsame, hslot]
  refine he _ ?_
  rw [slots_packAt, ← hsame.1, ← hslot]
  exact hlt

/-- **What the look-ahead passes in its pack lies inside a pcluster.** -/
theorem storesInner_of_jump {back ahead count k : Nat} (r : Resolved sb f)
    (hc : f.format = .compact)
    (hload : (f.loadLcluster lcn).onImage image = .ok (.inner back ahead count))
    (hpack : (f.packPlace lcn).SamePack (f.packPlace k)) (hk : lcn ≤ k)
    (hka : k < lcn + max ahead 1) : f.StoresInner image k := by
  have h8 := r.headerEnd_mod
  obtain ⟨⟨e, he⟩, hl⟩ := compact_load_eq_ok r hc hload
  have hentry := slotEntry_of_between h8 hpack he hk (Nat.le_refl k)
  obtain ⟨hsame, hslot⟩ := samePack_of_between h8 hpack hk (Nat.le_refl k)
  have hslots : (f.packPlace lcn).slot + (k - lcn) < (f.packPlace lcn).kind.slots := by
    rw [← hslot, ← hsame.1]
    exact slot_lt h8 k
  obtain ⟨hinner, hahead, -⟩ := Pack.inner_of_lcluster he (slot_lt h8 lcn) hl
  refine ⟨_, hentry, ?_⟩
  rcases Nat.eq_or_lt_of_le hk with rfl | hgt
  · simpa using hinner
  · exact Pack.inner_of_distanceAhead he hahead (by omega) (by omega) hslots

/-- **What the walk skips in a pack lies inside pclusters.** -/
theorem storesInner_of_skips {target k : Nat} (r : Resolved sb f) (hc : f.format = .compact)
    (h : f.Skips image lcn target) (hpack : (f.packPlace lcn).SamePack (f.packPlace target))
    (hk : lcn ≤ k) (hkt : k < target) : f.StoresInner image k := by
  induction h with
  | here => omega
  | @jump lcn back ahead count target hlt hload hrest ih =>
    have h8 := r.headerEnd_mod
    have hle := hrest.le
    rcases Nat.lt_or_ge k (lcn + max ahead 1) with hnear | hfar
    · obtain ⟨hsame, -⟩ := samePack_of_between h8 hpack hk (Nat.le_of_lt hkt)
      exact storesInner_of_jump r hc hload ⟨hsame.1.symm, hsame.2.symm⟩ hk hnear
    · obtain ⟨hsame, -⟩ := samePack_of_between h8 hpack (by omega : lcn ≤ lcn + max ahead 1) hle
      exact ih ⟨hsame.1.trans hpack.1, hsame.2.trans hpack.2⟩ hfar hkt

/-- An lcluster between two of one pack, as that pack has it. -/
theorem lcluster_of_between {first last k : Nat} {l : Lcluster} (r : Resolved sb f)
    (hc : f.format = .compact) (hpack : (f.packPlace first).SamePack (f.packPlace last))
    (hk : first ≤ k) (hkl : k ≤ last) (h : (f.loadLcluster k).onImage image = .ok l) :
    (f.packAt image (f.packPlace first)).lcluster f ((f.packPlace first).slot + (k - first)) =
      .ok l := by
  obtain ⟨hsame, hslot⟩ := samePack_of_between r.headerEnd_mod hpack hk hkl
  rw [← packAt_congr hsame, ← hslot]
  exact (compact_load_eq_ok r hc h).2

/-! ## From one head to the next -/

/-- A head and the next one, in one pack. -/
structure NextHead (f : CompressedFile) (image : ByteArray) (head next : Nat) : Prop where
  lt : head < next
  lt_count : next < f.lclusterCount
  samePack : (f.packPlace head).SamePack (f.packPlace next)
  isHead : f.StoresHead image head
  inner : ∀ k, head < k → k < next → f.StoresInner image k

/-- **Pclusters that the walk records one after the other** start in a head
and the next one. -/
theorem nextHead_of_adjacent {before after : List Pcluster} (r : Resolved sb f)
    (hc : f.format = .compact) (hmap : (f.extents sb).onImage image = .ok map)
    (hadj : map.pclusters = before ++ a :: b :: after)
    (hpack : (f.packPlace a.lcn).SamePack (f.packPlace b.lcn)) : f.NextHead image a.lcn b.lcn := by
  obtain ⟨-, hwalk⟩ := walks_of_extents hmap
  obtain ⟨ha, hb, hskips⟩ := Walks.adjacent (hadj ▸ hwalk)
  have hle := hskips.le
  obtain ⟨⟨e, he⟩, hl⟩ := compact_load_eq_ok r hc ha.load
  have hslot := slot_lt r.headerEnd_mod a.lcn
  refine ⟨by omega, hb.lt, hpack, ?_, ?_⟩
  · exact ⟨e _, he _ hslot, (Pack.head_of_lcluster he hslot hl).1⟩
  · intro k hk hkb
    obtain ⟨hsame, -⟩ := samePack_of_between r.headerEnd_mod hpack (by omega) hle
    exact storesInner_of_skips r hc hskips ⟨hsame.1.trans hpack.1, hsame.2.trans hpack.2⟩ hk hkb

namespace NextHead

variable {head next blocks : Nat} {storage : Storage} {e : Nat → PackEntry}

/-- Both slots are in the pack, as far apart as the lclusters. -/
theorem slot_le (n : f.NextHead image head next) (h8 : f.headerEnd % 8 = 0) :
    (f.packPlace next).slot = (f.packPlace head).slot + (next - head) ∧
      (f.packPlace head).slot + (next - head) < (f.packPlace head).kind.slots := by
  obtain ⟨hsame, hslot⟩ :=
    samePack_of_between h8 n.samePack (Nat.le_of_lt n.lt) (Nat.le_refl next)
  have := slot_lt h8 next
  rw [hsame.1, hslot] at this
  exact ⟨hslot, this⟩

/-- What the slots from the head to the next one hold. -/
theorem slotEntry (n : f.NextHead image head next) (h8 : f.headerEnd % 8 = 0)
    (he : (f.packAt image (f.packPlace head)).Holds e) {k : Nat} (hk : head ≤ k) (hkn : k ≤ next) :
    f.slotEntry image k = .ok (e ((f.packPlace head).slot + (k - head))) :=
  slotEntry_of_between h8 n.samePack he hk hkn

theorem isInner (n : f.NextHead image head next) (h8 : f.headerEnd % 8 = 0)
    (he : (f.packAt image (f.packPlace head)).Holds e) {k : Nat} (hk : head < k) (hkn : k < next) :
    (e ((f.packPlace head).slot + (k - head))).isInner = true := by
  obtain ⟨entry, hentry, hinner⟩ := n.inner k hk hkn
  rw [n.slotEntry h8 he (Nat.le_of_lt hk) (Nat.le_of_lt hkn), Except.ok.injEq] at hentry
  exact hentry ▸ hinner

theorem isInner_after (n : f.NextHead image head next) (h8 : f.headerEnd % 8 = 0)
    (he : (f.packAt image (f.packPlace head)).Holds e) (hlt : head + 1 < next) :
    (e ((f.packPlace head).slot + 1)).isInner = true := by
  have hinner := n.isInner h8 he (Nat.lt_succ_self head) hlt
  rwa [Nat.succ_eq_add_one, Nat.add_sub_cancel_left] at hinner

theorem not_isInner (n : f.NextHead image head next) (h8 : f.headerEnd % 8 = 0)
    (he : (f.packAt image (f.packPlace head)).Holds e) :
    (e (f.packPlace head).slot).isInner = false := by
  obtain ⟨entry, hentry, hhead⟩ := n.isHead
  have := n.slotEntry h8 he (Nat.le_refl head) (Nat.le_of_lt n.lt)
  rw [Nat.sub_self, Nat.add_zero, hentry, Except.ok.injEq] at this
  exact this ▸ hhead

/-- The slot before the next head gives the distance back to the first,
unless it gives the number of blocks. -/
theorem low_before (n : f.NextHead image head next) (h8 : f.headerEnd % 8 = 0)
    (hwf : f.WellFormedPacks image) (he : (f.packAt image (f.packPlace head)).Holds e)
    (hlt : head + 1 < next) (hcount : ¬ f.CarriesCount image (next - 1)) :
    (e ((f.packPlace head).slot + (next - 1 - head))).low = next - 1 - head := by
  obtain ⟨hsame, hslot⟩ := samePack_of_between h8 n.samePack (by omega : head ≤ next - 1) (by omega)
  have hlast : (f.packPlace (next - 1)).slot + 1 < (f.packPlace (next - 1)).kind.slots := by
    have := (n.slot_le h8).2
    rw [hsame.1]
    omega
  have hback := hwf.distance (next - 1) _ (by have := n.lt_count; omega)
    (n.slotEntry h8 he (by omega) (by omega)) (n.isInner h8 he (by omega) (by omega)) hlast hcount
  exact hback.eq (by omega) n.isHead fun k hk hkn => n.inner k hk (by omega)

/-- Only the slot right after the head gives the number of blocks. -/
theorem not_carriesCount (n : f.NextHead image head next) {k : Nat} (hk : head + 1 < k)
    (hkn : k ≤ next) : ¬ f.CarriesCount image k := by
  rintro ⟨-, ⟨before, rfl, hbefore⟩, -⟩
  exact (n.inner before (by omega) (by omega)).not_head hbefore

/-- **The walk and the pack agree on the number of blocks after a head.** -/
theorem count_after (n : f.NextHead image head next) (r : Resolved sb f) (hc : f.format = .compact)
    (hwf : f.WellFormedPacks image) (he : (f.packAt image (f.packPlace head)).Holds e)
    (hbig : f.hasBigPcluster = true) (hstorage : f.hasBig storage = true) (hlt : head + 1 < next)
    (hblocks : (f.pclusterBlocks sb head storage).onImage image = .ok blocks) :
    markedBlockCount? (e ((f.packPlace head).slot + 1)).low = some blocks := by
  have h8 := r.headerEnd_mod
  have hcount := n.lt_count
  obtain ⟨-, -, entry, count, hentry, -, hmark, -⟩ :=
    hwf.count hbig head (by omega) n.isHead (n.inner (head + 1) (by omega) hlt)
  rw [n.slotEntry h8 he (by omega) (by omega), Nat.add_sub_cancel_left, Except.ok.injEq] at hentry
  subst hentry
  obtain ⟨l, hload, hl⟩ := (pclusterBlocks_eq_ok hstorage (by omega)).mp hblocks
  have hlcluster := lcluster_of_between r hc n.samePack (by omega) (by omega) hload
  rw [Nat.add_sub_cancel_left] at hlcluster
  have hslot : (f.packPlace head).slot + 1 < (f.packAt image (f.packPlace head)).slots := by
    have := (n.slot_le h8).2
    rw [slots_packAt]
    omega
  cases l with
  | head storage' offset block =>
    have hinner := n.isInner_after h8 he hlt
    rw [(Pack.head_of_lcluster he hslot hlcluster).1] at hinner
    cases hinner
  | inner back ahead given =>
    obtain ⟨-, -, hback⟩ := Pack.inner_of_lcluster he hslot hlcluster
    simp only [Pack.backAndCount, hmark, Except.ok.injEq, Prod.mk.injEq] at hback
    rw [hmark, hl.2.2, hback.2]

/-- **The scan where pclusters may have more than one block**: it counts
the blocks of the first head on the way from the next one. -/
theorem blocksBefore_eq (n : f.NextHead image head next) (r : Resolved sb f)
    (hc : f.format = .compact) (hwf : f.WellFormedPacks image)
    (he : (f.packAt image (f.packPlace head)).Holds e) (hbig : f.hasBigPcluster = true)
    (hstorage : f.hasBig storage = true)
    (hblocks : (f.pclusterBlocks sb head storage).onImage image = .ok blocks)
    (hnext : ∃ storage offset block,
      (f.loadLcluster next).onImage image = .ok (.head storage offset block)) (nid : Nat) :
    (f.packAt image (f.packPlace head)).blocksBefore nid (f.packPlace next).slot =
      ((f.packAt image (f.packPlace head)).blocksBefore nid (f.packPlace head).slot).map
        (blocks + ·) := by
  have h8 := r.headerEnd_mod
  have hlt := n.lt
  obtain ⟨hslot, hslots⟩ := n.slot_le h8
  rw [hslot]
  refine Pack.blocksBefore_next he (by omega) (Nat.le_of_lt hslots) (n.not_isInner h8 he) ?_ ?_ ?_
  · intro hone
    obtain rfl : next = head + 1 := by omega
    obtain ⟨l, hload, hl⟩ := (pclusterBlocks_eq_ok hstorage n.lt_count).mp hblocks
    obtain ⟨storage', offset, block, hnext⟩ := hnext
    rw [hnext, Except.ok.injEq] at hload
    subst hload
    exact hl
  · intro hfar
    have hlt : head + 1 < next := by omega
    exact ⟨n.isInner_after h8 he hlt, n.count_after r hc hwf he hbig hstorage hlt hblocks⟩
  · intro hfar
    have hsame : (f.packPlace head).slot + (next - head) - 1 =
        (f.packPlace head).slot + (next - 1 - head) := by omega
    have hdistance := n.low_before h8 hwf he (by omega)
      (n.not_carriesCount (by omega) (Nat.sub_le next 1))
    -- a distance inside a pack is too short to be marked
    have hshort : next - 1 - head < blockCountMark := by
      have : (f.packPlace head).kind.slots ≤ 16 := by
        cases (f.packPlace head).kind <;> decide
      unfold blockCountMark
      omega
    rw [hsame]
    refine ⟨n.isInner h8 he (by omega) (by omega), ?_, by omega⟩
    rw [hdistance, markedBlockCount?, Nat.div_eq_of_lt hshort]
    rfl

/-- **The scan where pclusters have one size**: it counts one pcluster on
the way from the next head to the first. -/
theorem pclustersBefore_eq (n : f.NextHead image head next) (h8 : f.headerEnd % 8 = 0)
    (hwf : f.WellFormedPacks image) (he : (f.packAt image (f.packPlace head)).Holds e)
    (hbig : f.hasBigPcluster = false) :
    (f.packAt image (f.packPlace head)).pclustersBefore (f.packPlace next).slot =
      ((f.packAt image (f.packPlace head)).pclustersBefore (f.packPlace head).slot).map
        (1 + ·) := by
  have hlt := n.lt
  obtain ⟨hslot, hslots⟩ := n.slot_le h8
  rw [hslot]
  refine Pack.pclustersBefore_next he (by omega) (Nat.le_of_lt hslots) (n.not_isInner h8 he) ?_
  intro hfar
  have hsame : (f.packPlace head).slot + (next - head) - 1 =
      (f.packPlace head).slot + (next - 1 - head) := by omega
  have hnone : ¬ f.CarriesCount image (next - 1) := by
    rintro ⟨h, -⟩
    rw [hbig] at h
    cases h
  rw [hsame]
  exact ⟨n.isInner h8 he (by omega) (by omega),
    by rw [n.low_before h8 hwf he (by omega) hnone]; omega⟩

/-- The two scans as one. -/
theorem blocksFromBase_eq (n : f.NextHead image head next) (r : Resolved sb f)
    (hc : f.format = .compact) (hwf : f.WellFormedPacks image)
    (he : (f.packAt image (f.packPlace head)).Holds e)
    (hstorage : f.hasBig storage = f.hasBigPcluster)
    (hblocks : (f.pclusterBlocks sb head storage).onImage image = .ok blocks)
    (hnext : ∃ storage offset block,
      (f.loadLcluster next).onImage image = .ok (.head storage offset block)) :
    (f.packAt image (f.packPlace head)).blocksFromBase f (f.packPlace next).slot =
      ((f.packAt image (f.packPlace head)).blocksFromBase f (f.packPlace head).slot).map
        ((if f.hasBigPcluster then blocks else 1) + ·) := by
  unfold Pack.blocksFromBase
  cases hbig : f.hasBigPcluster with
  | true => exact n.blocksBefore_eq r hc hwf he hbig (hstorage.trans hbig) hblocks hnext _
  | false =>
    simp only [Bool.false_eq_true, if_false]
    rw [n.pclustersBefore_eq r.headerEnd_mod hwf he hbig]

end NextHead

/-! ## The layout of a pack -/

/-- **Where the next pcluster of a pack starts**: as many blocks further
as the first one has, or one block further where pclusters have one
size. -/
theorem block_of_adjacent {before after : List Pcluster} (r : Resolved sb f)
    (hc : f.format = .compact) (hwf : f.WellFormedPacks image)
    (hmap : (f.extents sb).onImage image = .ok map)
    (hadj : map.pclusters = before ++ a :: b :: after)
    (hpack : (f.packPlace a.lcn).SamePack (f.packPlace b.lcn)) :
    b.block = a.block + (if f.hasBigPcluster then a.blocks else 1).toUInt32 := by
  have n := nextHead_of_adjacent r hc hmap hadj hpack
  obtain ⟨-, hwalk⟩ := walks_of_extents hmap
  obtain ⟨ha, hb, -⟩ := Walks.adjacent (hadj ▸ hwalk)
  obtain ⟨⟨e, he⟩, hla⟩ := compact_load_eq_ok r hc ha.load
  have hlb := (compact_load_eq_ok r hc hb.load).2
  rw [← packAt_congr hpack] at hlb
  -- both addresses are counted from the base of the one pack
  obtain ⟨-, na, hna, hblocka⟩ := Pack.head_of_lcluster he (slot_lt r.headerEnd_mod _) hla
  have hslotb : (f.packPlace b.lcn).slot < (f.packPlace a.lcn).kind.slots := by
    rw [hpack.1]
    exact slot_lt r.headerEnd_mod _
  obtain ⟨-, nb, hnb, hblockb⟩ := Pack.head_of_lcluster he hslotb hlb
  have hscan := n.blocksFromBase_eq r hc hwf he (r.hasBig_eq_hasBigPcluster hc a.storage)
    ha.blocks ⟨_, _, _, hb.load⟩
  rw [hna, hnb] at hscan
  simp only [Except.map, Except.ok.injEq] at hscan
  rw [hblockb, hblocka, hscan, Nat.add_comm, toUInt32_add, UInt32.add_assoc]

/-- Where pclusters have one size, it is one block only if an lcluster
is. -/
theorem blocks_eq_one_iff {blocks : Nat} {storage : Storage} (r : Resolved sb f)
    (hbig : f.hasBig storage = false)
    (h : (f.pclusterBlocks sb lcn storage).onImage image = .ok blocks) :
    blocks.toUInt32 = 1 ↔ f.lclusterBits = sb.bits := by
  rw [pclusterBlocks_of_not_big hbig, Except.ok.injEq] at h
  subst h
  have hle := r.bits_le
  -- the power is small, so 32 bits hold it
  have hbound : f.lclusterBits - sb.bits < 8 := by
    have := r.le_bits
    omega
  obtain ⟨k, hk⟩ : ∃ k, k = f.lclusterBits - sb.bits := ⟨_, rfl⟩
  have : f.lclusterBits = sb.bits ↔ k = 0 := by omega
  rw [this, ← hk]
  rw [← hk] at hbound
  clear hk this
  revert k
  decide

/-- **Pclusters of one pack lie back to back** where they may have more
than one block, or where an lcluster is one block, and nowhere else: an
address counts one block for each pcluster of one size, and the walk
counts the blocks of an lcluster. -/
theorem back_to_back_iff {before after : List Pcluster}
    (hf : (resolve sb i).onImage image = .ok f) (hc : f.format = .compact)
    (hwf : f.WellFormedPacks image) (hmap : (f.extents sb).onImage image = .ok map)
    (hadj : map.pclusters = before ++ a :: b :: after)
    (hpack : (f.packPlace a.lcn).SamePack (f.packPlace b.lcn)) :
    b.block = a.block + a.blocks.toUInt32 ↔
      f.hasBigPcluster = true ∨ f.lclusterBits = sb.bits := by
  have r := resolved_of_resolve hf
  have hblock := block_of_adjacent r hc hwf hmap hadj hpack
  cases hbig : f.hasBigPcluster with
  | true => simpa [hbig] using hblock
  | false =>
    obtain ⟨-, hwalk⟩ := walks_of_extents hmap
    obtain ⟨ha, -, -⟩ := Walks.adjacent (hadj ▸ hwalk)
    have hstorage := (r.hasBig_eq_hasBigPcluster hc a.storage).trans hbig
    simp only [hbig, Bool.false_eq_true, if_false, false_or] at hblock ⊢
    rw [hblock, ← blocks_eq_one_iff r hstorage ha.blocks, UInt32.add_right_inj]
    exact eq_comm

/-! ## Two packs -/

/-- A pcluster of three blocks in the first pack, and two of one block each
in the second, one of them plain. -/
def mixedIndex : ByteArray :=
  indexImage 6 0 [0x00, 0x10, 0x03, 0x28, 20, 0, 0, 0, 0x00, 0x10, 0x00, 0x00, 30, 0, 0, 0]

/-- The superblock of an image with pclusters of more than one block. -/
def mixedSuperblock : Superblock := .bare 12 2

/-- The inode of four lclusters. -/
def mixedInode : Inode := .bare .compressedCompact 16384

/-- The file that it resolves to. -/
def mixedFile : CompressedFile := indexFile .compact mixedSuperblock mixedInode 6 0

/-- Its pclusters. -/
def mixedMap : ExtentMap :=
  .of 4 [⟨0, .compressed, 0, 20, 3⟩, ⟨2, .compressed, 0, 30, 1⟩, ⟨3, .plain, 0, 31, 1⟩]

theorem wellFormedPacks_mixed : mixedFile.WellFormedPacks mixedIndex where
  distance lcn entry hlt hentry hinner hslot hcount := by
    have hfour : mixedFile.lclusterCount = 4 := by decide
    have hfirst : mixedFile.slotEntry mixedIndex 0 = .ok ⟨0, 1⟩ := by decide
    have hthird : mixedFile.slotEntry mixedIndex 2 = .ok ⟨0, 1⟩ := by decide
    have hlast : ∀ k, k = 1 ∨ k = 3 →
        ¬ (mixedFile.packPlace k).slot + 1 < (mixedFile.packPlace k).kind.slots := by
      rintro k (rfl | rfl) <;> decide
    obtain rfl | rfl | hodd : lcn = 0 ∨ lcn = 2 ∨ lcn = 1 ∨ lcn = 3 := by omega
    · exact absurd ⟨_, hfirst, rfl⟩ (StoresInner.not_head ⟨entry, hentry, hinner⟩)
    · exact absurd ⟨_, hthird, rfl⟩ (StoresInner.not_head ⟨entry, hentry, hinner⟩)
    · exact absurd hslot (hlast lcn hodd)
  count := by
    intro hbig head hlt hhead hinner
    have hfour : mixedFile.lclusterCount = 4 := by decide
    have hsecond : mixedFile.slotEntry mixedIndex 1 = .ok ⟨2051, 2⟩ := by decide
    have hthird : mixedFile.slotEntry mixedIndex 2 = .ok ⟨0, 1⟩ := by decide
    have hfourth : mixedFile.slotEntry mixedIndex 3 = .ok ⟨0, 0⟩ := by decide
    obtain rfl | rfl | rfl : head = 0 ∨ head = 1 ∨ head = 2 := by omega
    · exact ⟨hbig, ⟨0, rfl, hhead⟩, _, 3, hsecond, rfl, rfl, by decide⟩
    · exact absurd ⟨_, hthird, rfl⟩ hinner.not_head
    · exact absurd ⟨_, hfourth, rfl⟩ hinner.not_head

theorem back_to_back_mixed :
    (resolve mixedSuperblock mixedInode).onImage mixedIndex = .ok mixedFile ∧
      mixedFile.format = .compact ∧ mixedFile.WellFormedPacks mixedIndex ∧
      (mixedFile.extents mixedSuperblock).onImage mixedIndex = .ok mixedMap ∧
      (mixedFile.packPlace 2).SamePack (mixedFile.packPlace 3) ∧
      ((31 : UInt32) = 30 + (1 : Nat).toUInt32 ↔
        mixedFile.hasBigPcluster = true ∨ mixedFile.lclusterBits = mixedSuperblock.bits) := by
  have hf : (resolve mixedSuperblock mixedInode).onImage mixedIndex = .ok mixedFile := by
    decide +kernel
  have hmap : (mixedFile.extents mixedSuperblock).onImage mixedIndex = .ok mixedMap := by
    decide +kernel
  have hpack : (mixedFile.packPlace 2).SamePack (mixedFile.packPlace 3) := by decide
  exact ⟨hf, rfl, wellFormedPacks_mixed, hmap, hpack,
    back_to_back_iff (a := ⟨2, .compressed, 0, 30, 1⟩) (b := ⟨3, .plain, 0, 31, 1⟩) hf rfl
      wellFormedPacks_mixed hmap (show mixedMap.pclusters = [_] ++ _ :: _ :: [] from rfl) hpack⟩

/-- A pack of two heads, of lclusters that are two blocks large. -/
def wideIndex : ByteArray := indexImage 0 1 [0x00, 0x10, 0x00, 0x10, 9, 0, 0, 0]

/-- The superblock of an image with small blocks. -/
def wideSuperblock : Superblock := .bare 9 0

/-- The inode of two such lclusters. -/
def wideInode : Inode := .bare .compressedCompact 2048

/-- The file that it resolves to. -/
def wideFile : CompressedFile := indexFile .compact wideSuperblock wideInode 0 1

theorem wellFormedPacks_wide : wideFile.WellFormedPacks wideIndex where
  distance lcn entry hlt hentry hinner hslot hcount := by
    have htwo : wideFile.lclusterCount = 2 := by decide
    have hfirst : wideFile.slotEntry wideIndex 0 = .ok ⟨0, 1⟩ := by decide
    have hsecond : wideFile.slotEntry wideIndex 1 = .ok ⟨0, 1⟩ := by decide
    obtain rfl | rfl : lcn = 0 ∨ lcn = 1 := by omega
    · exact absurd ⟨_, hfirst, rfl⟩ (StoresInner.not_head ⟨entry, hentry, hinner⟩)
    · exact absurd ⟨_, hsecond, rfl⟩ (StoresInner.not_head ⟨entry, hentry, hinner⟩)
  count hbig := by
    have : wideFile.hasBigPcluster = false := by decide
    rw [this] at hbig
    cases hbig

/-- **Two pclusters that overlap.** Each is two blocks large, and the
second starts one block after the first. -/
theorem overlap_of_wide_lclusters :
    ∃ a b : Pcluster, (resolve wideSuperblock wideInode).onImage wideIndex = .ok wideFile ∧
      wideFile.format = .compact ∧ wideFile.WellFormedPacks wideIndex ∧
      (wideFile.extents wideSuperblock).onImage wideIndex = .ok (.of 2 [a, b]) ∧
      (wideFile.packPlace a.lcn).SamePack (wideFile.packPlace b.lcn) ∧
      a.blocks = 2 ∧ b.block = a.block + 1 ∧ b.block ≠ a.block + a.blocks.toUInt32 :=
  ⟨⟨0, .compressed, 0, 10, 2⟩, ⟨1, .compressed, 0, 11, 2⟩, by decide +kernel, rfl,
    wellFormedPacks_wide, by decide +kernel, by decide +kernel, rfl, rfl, by decide⟩

end CompressedFile

end Erofs
