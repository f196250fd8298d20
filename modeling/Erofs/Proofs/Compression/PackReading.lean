import Erofs.Proofs.Compression.CompactEncoding
/-!
# Reading the packs of a table

What each slot of a pack of a table is read as. A scan from a head comes to
the head before it in the pack, if there is one, so by induction on the
slot it counts the blocks of the table (`blocksFromBase_eq`). The
look-ahead stops at the next head, or the last slot says where that is. Only
a number of blocks in the last slot hides it (`exists_distanceAhead`). The
other distance is found in the slot or next to it (`backAndCount_eq`).
-/

namespace Erofs

/-- A pack holds the lclusters of a table from the number `first` on. -/
structure PackShows {s : TableShape} (p : Pack) (t : IndexTable s) (first : Nat)
    (entries : Nat → PackEntry) : Prop where
  holds : p.Holds entries
  two_le : 2 ≤ p.slots
  entry : ∀ slot l, slot < p.slots → t.lclusters[first + slot]? = some l →
    entries slot = l.inSlot (slot + 1 == p.slots)
  heads : headsFrom s.big
    (p.base + (blocksToFirst s.big ((t.lclusters.drop first).take p.slots)).toUInt32)
    ((t.lclusters.drop first).take p.slots) = true

namespace PackShows

open IndexTable (Run)

variable {s : TableShape} {p : Pack} {t : IndexTable s} {first slot head k : Nat}
variable {entries : Nat → PackEntry} {e : TableEntry s} {f : CompressedFile}

/-- The lclusters of the pack are those of the table. -/
theorem getElem?_pack (h : slot < p.slots) :
    ((t.lclusters.drop first).take p.slots)[slot]? =
      t.lclusters[first + slot]? := by
  rw [List.getElem?_take, if_pos h, List.getElem?_drop]

theorem getElem?_pack_head (r : Run t (first + slot) e) (hs : slot < p.slots) :
    ((t.lclusters.drop first).take p.slots)[slot]? = some (.head e.storage e.offset e.block) := by
  rw [getElem?_pack hs]
  exact r.get 0 e.span_pos

/-- The slot of a head. -/
theorem entry_head (h : PackShows p t first entries) (r : Run t (first + slot) e)
    (hs : slot < p.slots) : entries slot = ⟨e.offset, e.storage.type.code⟩ :=
  h.entry slot _ hs (r.get 0 e.span_pos)

/-- The slot of an lcluster after a head. -/
theorem entry_inner (h : PackShows p t first entries) (r : Run t head e) (hk : 0 < k)
    (hke : k < e.span) (hlcn : first + slot = head + k) (hs : slot < p.slots) :
    entries slot = ⟨if slot + 1 = p.slots ∧ e.countAt k = 0 then e.span - k
      else writtenBack k (e.countAt k), ClusterType.nonHead.code⟩ := by
  obtain ⟨j, rfl⟩ : ∃ j, k = j + 1 := ⟨k - 1, by omega⟩
  rw [h.entry slot _ hs (hlcn ▸ r.get (j + 1) hke)]
  simp [TableEntry.lcluster, Lcluster.inSlot]

theorem isInner_head (h : PackShows p t first entries) (r : Run t (first + slot) e)
    (hs : slot < p.slots) : (entries slot).isInner = false := by
  rw [h.entry_head r hs]
  exact Pack.not_inner_of_type (show _ = e.storage.type.code from rfl)

theorem isInner_inner (h : PackShows p t first entries) (r : Run t head e) (hk : 0 < k)
    (hke : k < e.span) (hlcn : first + slot = head + k) (hs : slot < p.slots) :
    (entries slot).isInner = true := by
  rw [h.entry_inner r hk hke hlcn hs]
  rfl

/-- A slot that is not the last one tells the two distances back apart. -/
theorem low_inner (h : PackShows p t first entries) (r : Run t head e) (hk : 0 < k)
    (hke : k < e.span) (hlcn : first + slot = head + k) (hs : slot + 1 < p.slots) :
    (entries slot).low = writtenBack k (e.countAt k) := by
  rw [h.entry_inner r hk hke hlcn (by omega)]
  simp only [if_neg (by omega : ¬ (slot + 1 = p.slots ∧ e.countAt k = 0))]

/-! ## The blocks of heads -/

/-- The number of blocks from a head to the next one of the pack. -/
theorem blocksToNext_pack {next : TableEntry s} {a : Nat} (ra : Run t (first + a) e)
    (rb : Run t (first + (a + e.span)) next) (hs : a + e.span < p.slots) :
    blocksToNext s.big (((t.lclusters.drop first).take p.slots).drop (a + 1)) =
      if s.big then e.blocks else 1 := by
  have hpos := e.span_pos
  rcases Nat.eq_or_lt_of_le hpos with hone | hmore
  · have hhead : ((t.lclusters.drop first).take p.slots)[a + 1]? =
        some (.head next.storage next.offset next.block) := by
      rw [← hone] at rb hs
      exact getElem?_pack_head rb hs
    rw [blocksToNext_of_head hhead]
    split
    · next hbig => exact (e.blocks_one hbig hone.symm).symm
    · rfl
  · have hinner : ((t.lclusters.drop first).take p.slots)[a + 1]? =
        some (.inner 1 (e.span - 1) (e.countAt 1)) := by
      rw [getElem?_pack (by omega), ← Nat.add_assoc]
      exact ra.get 1 hmore
    rw [blocksToNext_of_inner hinner]
    split
    · next hbig => exact e.countAt_one hbig
    · rfl

/-- **From one head to the next** the scan counts what is between
them. -/
theorem blocksFromBase_add {a : Nat} (h : PackShows p t first entries)
    (hbig : f.hasBigPcluster = s.big) (ra : Run t (first + a) e) (hs : a + e.span < p.slots) :
    p.blocksFromBase f (a + e.span) =
      (p.blocksFromBase f a).map ((if s.big then e.blocks else 1) + ·) := by
  have hpos := e.span_pos
  have hhead := h.isInner_head ra (by omega)
  have hinner : ∀ j, 0 < j → j < e.span → (entries (a + j)).isInner = true := by
    intro j hj hjs
    exact h.isInner_inner ra hj hjs (by omega) (by omega)
  have hlow : ∀ j, 0 < j → j < e.span → (entries (a + j)).low = writtenBack j (e.countAt j) := by
    intro j hj hjs
    exact h.low_inner ra hj hjs (by omega) (by omega)
  unfold Pack.blocksFromBase
  cases hb : s.big with
  | false =>
    simp only [hbig, hb, Bool.false_eq_true, if_false]
    rw [Pack.pclustersBefore_next h.holds (by omega : a < a + e.span) (Nat.le_of_lt hs) hhead]
    intro hfar
    rw [Nat.add_sub_assoc hpos, hlow _ (by omega) (by omega), e.countAt_of_not_big hb]
    exact ⟨hinner _ (by omega) (by omega), (Nat.add_sub_cancel_left ..).symm⟩
  | true =>
    simp only [hbig, hb, if_true]
    refine Pack.blocksBefore_next h.holds (by omega) (Nat.le_of_lt hs) hhead ?_ ?_ ?_
    · intro hone
      exact e.blocks_one hb (by omega)
    · intro hfar
      have hmark := e.markedBlockCount?_writtenBack (k := 1) (by omega)
      have hne := (e.blocks_lt hb).1
      rw [hlow 1 Nat.one_pos (by omega), hmark, e.countAt_one hb, if_neg (by omega)]
      exact ⟨hinner 1 Nat.one_pos (by omega), rfl⟩
    · intro hfar
      have hcount : e.countAt (e.span - 1) = 0 := e.countAt_of_ne_one (by omega)
      have hmark := e.markedBlockCount?_writtenBack (k := e.span - 1) (by omega)
      rw [Nat.add_sub_assoc hpos, hlow _ (by omega) (by omega), hmark, hcount]
      exact ⟨hinner _ (by omega) (by omega), rfl, (Nat.add_sub_cancel_left ..).symm⟩

/-- Before a head of a pack that a pcluster reaches into, the scan for
pclusters of one size leaves the pack at once. -/
theorem pclustersBefore_of_first (h : PackShows p t first entries) (hb : s.big = false)
    (r : Run t head e) (hhead : head < first) (hfirst : first + slot = head + e.span)
    (hpos : 0 < slot) (hs : slot < p.slots) : p.pclustersBefore slot = .ok 0 := by
  obtain ⟨last, rfl⟩ : ∃ last, slot = last + 1 := ⟨slot - 1, by omega⟩
  have hinner : (entries last).isInner = true :=
    h.isInner_inner r (k := e.span - 1) (by omega) (by omega) (by omega) (by omega)
  have hlow : (entries last).low = writtenBack (e.span - 1) (e.countAt (e.span - 1)) :=
    h.low_inner r (by omega) (by omega) (by omega) hs
  rw [e.countAt_of_not_big hb, writtenBack, if_pos rfl] at hlow
  exact Pack.pclustersBefore_succ_of_outside h.holds (by omega) hinner (by omega)

/-- A number of blocks in the first slot is counted. -/
theorem blocksBefore_one {nid : Nat} (h : PackShows p t first entries) (hb : s.big = true)
    (r : Run t head e) (hhead : first = head + 1) (hspan : 1 < e.span) :
    p.blocksBefore nid 1 = .ok (e.countAt 1) := by
  have htwo := h.two_le
  have hinner : (entries 0).isInner = true :=
    h.isInner_inner r Nat.one_pos hspan (by omega) (by omega)
  have hlow : (entries 0).low = writtenBack 1 (e.countAt 1) :=
    h.low_inner r Nat.one_pos hspan (by omega) (by omega)
  have hmark := e.markedBlockCount?_writtenBack hspan
  rw [if_neg (e.countAt_ne_zero.mpr ⟨hb, rfl⟩), ← hlow] at hmark
  rw [Pack.blocksBefore_succ_of_count h.holds (by omega) hinner hmark, Nat.zero_sub,
    Pack.blocksBefore_zero, Except.map, Nat.add_zero]

/-- The scan for other pclusters counts what the first slot gives. -/
theorem blocksBefore_of_first {nid : Nat} (h : PackShows p t first entries) (hb : s.big = true)
    (r : Run t head e) (hhead : head < first) (hfirst : first + slot = head + e.span)
    (hpos : 0 < slot) (hs : slot < p.slots) :
    p.blocksBefore nid slot = .ok (e.countAt (first - head)) := by
  rcases Nat.lt_or_ge 2 e.span with hfar | hnear
  · -- the slot before the head gives a distance
    obtain ⟨last, rfl⟩ : ∃ last, slot = last + 1 := ⟨slot - 1, by omega⟩
    have hinner : (entries last).isInner = true :=
      h.isInner_inner r (k := e.span - 1) (by omega) (by omega) (by omega) (by omega)
    have hlow : (entries last).low = writtenBack (e.span - 1) (e.countAt (e.span - 1)) :=
      h.low_inner r (by omega) (by omega) (by omega) hs
    have hcount : e.countAt (e.span - 1) = 0 := e.countAt_of_ne_one (by omega)
    have hmark := e.markedBlockCount?_writtenBack (k := e.span - 1) (by omega)
    rw [if_pos hcount, ← hlow] at hmark
    rw [hcount, writtenBack, if_pos rfl] at hlow
    rw [Pack.blocksBefore_succ_of_distance h.holds (by omega) hinner hmark (by omega), hlow]
    rcases Nat.eq_or_lt_of_le hhead with hone | hout
    · rw [(by omega : last - (e.span - 1 - 2) = 1), (by omega : first - head = 1)]
      exact h.blocksBefore_one hb r hone.symm (by omega)
    · -- which leads out of the pack
      rw [e.countAt_of_ne_one (by omega : first - head ≠ 1),
        (by omega : last - (e.span - 1 - 2) = 0), Pack.blocksBefore_zero]
  · rw [(by omega : slot = 1), (by omega : first - head = 1)]
    exact h.blocksBefore_one hb r (by omega) (by omega)

/-- **A head of a pack that a pcluster reaches into**: the scan counts what
the first slot gives. -/
theorem blocksFromBase_of_first (h : PackShows p t first entries)
    (hbig : f.hasBigPcluster = s.big) (r : Run t head e) (hhead : head < first)
    (hfirst : first + slot = head + e.span) (hpos : 0 < slot) (hs : slot < p.slots) :
    p.blocksFromBase f slot = .ok (if s.big then e.countAt (first - head) else 1) := by
  unfold Pack.blocksFromBase
  cases hb : s.big with
  | false =>
    simp only [hbig, hb, Bool.false_eq_true, if_false]
    rw [h.pclustersBefore_of_first hb r hhead hfirst hpos hs]
    rfl
  | true =>
    simp only [hbig, hb, if_true]
    exact h.blocksBefore_of_first hb r hhead hfirst hpos hs

/-- In the second case the block moves on by as many. -/
theorem block_eq_add {next : TableEntry s} {a : Nat} (h : PackShows p t first entries)
    (ra : Run t (first + a) e) (rb : Run t (first + (a + e.span)) next)
    (hs : a + e.span < p.slots) :
    next.block = e.block + (if s.big then e.blocks else 1).toUInt32 := by
  have hpos := e.span_pos
  rw [← blocksToNext_pack ra rb hs]
  refine block_of_next h.heads (by omega) (getElem?_pack_head ra (by omega))
    (getElem?_pack_head rb hs) ?_
  intro k hak hkb
  obtain ⟨j, rfl⟩ : ∃ j, k = a + (j + 1) := ⟨k - a - 1, by omega⟩
  rw [getElem?_pack (by omega), ← Nat.add_assoc]
  exact ⟨_, _, _, ra.get (j + 1) (by omega)⟩

/-- And in the first case it is that far from the address of the pack. -/
theorem block_eq_of_first {before : TableEntry s} (h : PackShows p t first entries)
    (rbefore : Run t head before) (hhead : head < first)
    (r : Run t (first + slot) e) (hfirst : first + slot = head + before.span) (hpos : 0 < slot)
    (hs : slot < p.slots) :
    e.block = p.base + (if s.big then before.countAt (first - head) else 1).toUInt32 := by
  have hinner : ∀ k, k < slot → ((t.lclusters.drop first).take p.slots)[k]? =
      some (.inner (first - head + k) (before.span - (first - head + k))
        (before.countAt (first - head + k))) := by
    intro k hk
    obtain ⟨j, hj⟩ : ∃ j, first - head + k = j + 1 := ⟨first - head + k - 1, by omega⟩
    rw [getElem?_pack (by omega), (by omega : first + k = head + (first - head + k)), hj]
    exact rbefore.get (j + 1) (by omega)
  have hblock := block_of_first h.heads (getElem?_pack_head r hs) fun k hk =>
    ⟨_, _, _, hinner k hk⟩
  rwa [blocksToFirst_of_inner (hinner 0 hpos), Nat.add_zero] at hblock

/-- **The scan counts the blocks of the table.** -/
theorem blocksFromBase_eq (h : PackShows p t first entries) (hbig : f.hasBigPcluster = s.big)
    (r : Run t (first + slot) e) (hs : slot < p.slots) :
    ∃ n, p.blocksFromBase f slot = .ok n ∧ e.block = p.base + n.toUInt32 := by
  -- the scan from a head goes on as the one from the head before it
  induction slot using Nat.strongRecOn generalizing e with
  | ind slot ih =>
    rcases Nat.eq_zero_or_pos slot with rfl | hpos
    · -- the first slot is a head
      have hhead := getElem?_pack_head r hs
      have hblock := block_of_first h.heads hhead fun k hk => absurd hk (Nat.not_lt_zero k)
      rw [blocksToFirst_of_head hhead] at hblock
      refine ⟨_, ?_, hblock⟩
      unfold Pack.blocksFromBase
      rw [hbig]
      cases s.big <;> simp [Except.map]
    · obtain ⟨head, before, rbefore, hfirst⟩ := r.exists_before (by omega)
      rcases Nat.lt_or_ge head first with hout | hin
      · -- the pcluster before reaches into the pack
        exact ⟨_, h.blocksFromBase_of_first hbig rbefore hout hfirst.symm hpos hs,
          h.block_eq_of_first rbefore hout r hfirst.symm hpos hs⟩
      · have hspan := before.span_pos
        obtain ⟨a, rfl⟩ : ∃ a, head = first + a := ⟨head - first, by omega⟩
        obtain rfl : slot = a + before.span := by omega
        obtain ⟨n, hn, hblock⟩ := ih a (by omega) rbefore (by omega)
        refine ⟨(if s.big then before.blocks else 1) + n, ?_, ?_⟩
        · rw [h.blocksFromBase_add hbig rbefore hs, hn]
          rfl
        · rw [h.block_eq_add rbefore r hs, hblock, Nat.add_comm _ n, toUInt32_add, UInt32.add_assoc]

/-! ## The distances of other lclusters -/

/-- What the last slot adds to the look-ahead is the rest of the way to the
next head, unless it gives a number of blocks. -/
theorem overhang_eq (h : PackShows p t first entries) (r : Run t head e) (hk : 0 < k)
    (hke : k < e.span) (hlcn : first + slot = head + k) (hs : slot + 1 = p.slots) :
    Pack.overhang (entries slot) = if e.countAt k = 0 then e.span - k - 1 else 0 := by
  have hspan := e.span_lt
  rw [h.entry_inner r hk hke hlcn (by omega), Pack.overhang]
  by_cases hcount : e.countAt k = 0
  · have hnone : markedBlockCount? (e.span - k) = none := markedBlockCount?_of_lt (by omega)
    simp only [hs, hcount, and_self, if_true, hnone]
  · simp only [hcount, and_false, if_false, e.markedBlockCount?_writtenBack hke]

/-- **The look-ahead stops at the next head**, if there is one. A number of
blocks in the last slot has no place for that distance. -/
theorem exists_distanceAhead (h : PackShows p t first entries) (r : Run t head e) (hk : 0 < k)
    (hke : k < e.span) (hlcn : first + slot = head + k) (hs : slot < p.slots) :
    ∃ found, p.distanceAhead slot = .ok found ∧ (head + e.span < t.lclusters.length →
      found = if slot + 1 = p.slots ∧ e.countAt k ≠ 0 then 1 else e.span - k) := by
  rcases r.next with hend | ⟨storage, offset, block, hnext⟩
  · rcases Pack.exists_head_or_inner entries slot p.slots with ⟨b, hb, hbs, hhead, hinner⟩ | hinner
    · exact ⟨_, Pack.distanceAhead_of_head h.holds hbs hhead hb hinner, fun hlt => by omega⟩
    · exact ⟨_, Pack.distanceAhead_of_inner h.holds hs hinner, fun hlt => by omega⟩
  · have hrest : ∀ j, slot ≤ j → j < p.slots → first + j < head + e.span →
        (entries j).isInner = true := by
      intro j hj hjs hlt
      exact h.isInner_inner r (k := first + j - head) (by omega) (by omega) (by omega) hjs
    rcases Nat.lt_or_ge (head + e.span) (first + p.slots) with hin | hout
    · -- the next head is in the pack
      have hentry := h.entry (head + e.span - first) _ (by omega)
        (by rw [(by omega : first + (head + e.span - first) = head + e.span)]; exact hnext)
      have hhead : (entries (head + e.span - first)).isInner = false := by
        rw [hentry]
        exact Pack.not_inner_of_type (show _ = storage.type.code from rfl)
      refine ⟨_, Pack.distanceAhead_of_head h.holds (by omega) hhead (by omega)
        fun j hj hjb => hrest j hj (by omega) (by omega), fun _ => ?_⟩
      rw [if_neg (by omega)]
      omega
    · -- the last slot says how far it is
      refine ⟨_, Pack.distanceAhead_of_inner h.holds hs fun j hj hjs => hrest j hj hjs (by omega),
        fun _ => ?_⟩
      obtain ⟨last, hlast⟩ : ∃ last, first + (p.slots - 1) = head + last :=
        ⟨first + (p.slots - 1) - head, by omega⟩
      rw [h.overhang_eq r (by omega) (by omega) hlast (by omega)]
      by_cases hcount : e.countAt last = 0
      · rw [if_pos hcount, if_neg]
        · omega
        · rintro ⟨hend, hne⟩
          exact hne ((by omega : last = k) ▸ hcount)
      · -- it is the first lcluster after the head, so this is its slot
        obtain ⟨-, rfl⟩ := e.countAt_ne_zero.mp hcount
        obtain rfl : k = 1 := by omega
        rw [if_neg hcount, if_pos ⟨by omega, hcount⟩]
        omega

/-- The distance back from the last slot is one more than that from the slot
before. -/
theorem distanceBackFromLast_eq (h : PackShows p t first entries) (r : Run t head e) (hk : 0 < k)
    (hke : k < e.span) (hlcn : first + slot = head + k) (hs : slot + 1 = p.slots) :
    p.distanceBackFromLast slot = .ok k := by
  have htwo := h.two_le
  unfold Pack.distanceBackFromLast
  rw [h.holds (slot - 1) (by omega)]
  rcases Nat.eq_or_lt_of_le hk with rfl | hmore
  · -- the slot before is the head
    have rhead : Run t (first + (slot - 1)) e := by
      rwa [(by omega : first + (slot - 1) = head)]
    simp [bind, Except.bind, h.isInner_head rhead (by omega), pure, Except.pure]
  · have hinner : (entries (slot - 1)).isInner = true :=
      h.isInner_inner r (k := k - 1) (by omega) (by omega) (by omega) (by omega)
    have hlow : (entries (slot - 1)).low = writtenBack (k - 1) (e.countAt (k - 1)) :=
      h.low_inner r (by omega) (by omega) (by omega) (by omega)
    simp only [bind, Except.bind, hinner, Bool.not_true, Bool.false_eq_true, if_false, hlow,
      e.markedBlockCount?_writtenBack (by omega : k - 1 < e.span)]
    by_cases hcount : e.countAt (k - 1) = 0
    · simp only [hcount, if_true, writtenBack, pure, Except.pure]
      congr 1
      omega
    · have hone := (e.countAt_ne_zero.mp hcount).2
      simp only [hcount, if_false, pure, Except.pure]
      congr 1
      omega

/-- **The other distance** is found in the slot, or from the one before. -/
theorem backAndCount_eq (h : PackShows p t first entries) (r : Run t head e) (hk : 0 < k)
    (hke : k < e.span) (hlcn : first + slot = head + k) (hs : slot < p.slots) :
    p.backAndCount slot (entries slot) = .ok (k, e.countAt k) := by
  have hspan := e.span_lt
  rw [h.entry_inner r hk hke hlcn hs, Pack.backAndCount]
  by_cases hcount : e.countAt k = 0
  · simp only [hcount, and_true]
    by_cases hlast : slot + 1 = p.slots
    · simp only [hlast, if_true]
      rw [markedBlockCount?_of_lt (by omega), h.distanceBackFromLast_eq r hk hke hlcn hlast]
      rfl
    · simp only [hlast, if_false, writtenBack, if_true]
      rw [markedBlockCount?_of_lt (by omega)]
  · obtain ⟨-, rfl⟩ := e.countAt_ne_zero.mp hcount
    simp only [hcount, and_false, if_false, e.markedBlockCount?_writtenBack hke]

/-- **What the pack says of a head** is what the table has there. -/
theorem lcluster_head (h : PackShows p t first entries) (hbig : f.hasBigPcluster = s.big)
    (r : Run t (first + slot) e) (hs : slot < p.slots) :
    p.lcluster f slot = .ok (.head e.storage e.offset e.block) := by
  obtain ⟨n, hn, hblock⟩ := h.blocksFromBase_eq hbig r hs
  have hentry := h.entry_head r hs
  have htype : (entries slot).typeCode = e.storage.type.code := by rw [hentry]
  rw [Pack.lcluster_of_head h.holds hs htype, hn, hentry, Except.map, hblock]

/-- **So it is of any other lcluster**, but for the distance ahead. -/
theorem exists_lcluster_inner (h : PackShows p t first entries) (r : Run t head e) (hk : 0 < k)
    (hke : k < e.span) (hlcn : first + slot = head + k) (hs : slot < p.slots) :
    ∃ found, p.lcluster f slot = .ok (.inner k found (e.countAt k)) ∧
      (head + e.span < t.lclusters.length →
        found = if slot + 1 = p.slots ∧ e.countAt k ≠ 0 then 1 else e.span - k) := by
  obtain ⟨found, hfound, hahead⟩ := h.exists_distanceAhead r hk hke hlcn hs
  refine ⟨found, ?_, hahead⟩
  rw [Pack.lcluster_of_inner h.holds hs (h.isInner_inner r hk hke hlcn hs), hfound, Except.bind,
    h.backAndCount_eq r hk hke hlcn hs, Except.map]

end PackShows

/-! ## Reading the index -/

namespace CompressedFile

variable {f : CompressedFile} {sb : Superblock} {image : ByteArray}
variable {s : TableShape} {t : IndexTable s} {lcn first : Nat} {l : Lcluster}

/-- A pack of a table in an image is read as one. -/
theorem exists_packShows {place : PackPlace} (hbits : f.lclusterBits = s.lclusterBits)
    (hmax : f.lclusterBits ≤ maxCompactBits)
    (h : HoldsPack image s place.base place.kind
      ((t.lclusters.drop first).take place.kind.slots)) :
    ∃ entries, PackShows (f.packAt image place) t first entries := by
  have hsize := size_slice h.size
  refine ⟨_, ⟨holds_packOf hsize hmax, ?_, fun slot l hs hl => ?_, ?_⟩⟩
  · rw [slots_packAt]
    cases place.kind <;> decide
  · obtain ⟨hlt, hget⟩ := List.getElem?_eq_some_iff.mp ((PackShows.getElem?_pack hs).trans hl)
    have hslot := h.slots slot hlt
    rw [littleEndian_slice (by omega), Nat.add_zero, hbits, hslot, ← hget]
    rfl
  · have hbase : (f.packAt image place).base = u32At image (place.base + place.kind.size - 4) := by
      have hfour : 4 ≤ place.kind.size := by cases place.kind <;> decide
      rw [packAt, base_packOf hsize, u32At, u32At, Pack.addressSize, littleEndian_slice (by omega),
        Nat.add_sub_assoc hfour]
    rw [hbase]
    exact h.heads

section Reading

variable {head k : Nat} {e : TableEntry s}
variable (r : Resolved sb f) (hformat : f.format = .compact) (himage : image.size < addressLimit)
variable (hfits : f.Fits sb t)
variable (hindex : HoldsPacks image s (f.advises MapAdvice.twoBytePacks) f.headerEnd t.lclusters)
include r hformat himage hfits hindex

/-- **Every lcluster is read from its slot**, in a pack that shows the
table. -/
theorem exists_slot (hlt : lcn < t.lclusters.length) :
    ∃ first entries, lcn = first + (f.packPlace lcn).slot ∧
      PackShows (f.packAt image (f.packPlace lcn)) t first entries ∧
      ∀ l, (f.packAt image (f.packPlace lcn)).lcluster f (f.packPlace lcn).slot = .ok l →
        (f.loadLcluster lcn).onImage image = .ok l := by
  obtain ⟨first, hlcn, hpack⟩ := exists_pack r.headerEnd_mod hfits.count hindex hlt
  obtain ⟨entries, hshows⟩ :=
    exists_packShows (f := f) hfits.lclusterBits (r.lclusterBits_le hformat) hpack
  refine ⟨first, entries, hlcn, hshows, fun l hl => ?_⟩
  rw [loadLcluster_eq_ok, hfits.count, hformat]
  have hlimit := Nat.lt_of_le_of_lt hpack.size himage
  have hbits := r.lclusterBits_le_maxLclusterBits hformat lcn
  exact ⟨hlt, loadCompact_eq_ok.mpr ⟨hbits, hlimit, hpack.size, hl⟩⟩

/-- **A head is read as the table has it.** -/
theorem load_head_of_holdsPacks (run : IndexTable.Run t head e) :
    (f.loadLcluster head).onImage image = .ok (.head e.storage e.offset e.block) := by
  have hlt := (List.getElem?_eq_some_iff.mp (run.get 0 e.span_pos)).1
  obtain ⟨first, entries, hlcn, hshows, hload⟩ := exists_slot r hformat himage hfits hindex hlt
  exact hload _ (hshows.lcluster_head (hfits.big .compressed) (hlcn ▸ run)
    (slot_lt r.headerEnd_mod head))

/-- **So is any other lcluster**, but for the distance ahead. That one leads
to the next head, if there is one, except where a number of blocks takes its
place. -/
theorem exists_load_inner_of_holdsPacks (run : IndexTable.Run t head e) (hk : 0 < k)
    (hke : k < e.span) :
    ∃ found, (f.loadLcluster (head + k)).onImage image = .ok (.inner k found (e.countAt k)) ∧
      (head + e.span < f.lclusterCount → found =
        if (f.packPlace (head + k)).slot + 1 = (f.packPlace (head + k)).kind.slots ∧
          e.countAt k ≠ 0 then 1 else e.span - k) := by
  have hlt := (List.getElem?_eq_some_iff.mp (run.get k hke)).1
  obtain ⟨first, entries, hlcn, hshows, hload⟩ := exists_slot r hformat himage hfits hindex hlt
  obtain ⟨found, hfound, hahead⟩ := hshows.exists_lcluster_inner (f := f) run hk hke hlcn.symm
    (slot_lt r.headerEnd_mod (head + k))
  rw [hfits.count]
  exact ⟨found, hload _ hfound, hahead⟩

/-- **A file with the compact index of a table shows it.** -/
theorem shows_of_holdsPacks : f.Shows sb image t := by
  refine ⟨hfits, fun lcn l hl => ?_⟩
  obtain ⟨head, e, k, run, hk, rfl⟩ :=
    IndexTable.exists_run (List.getElem?_eq_some_iff.mp hl).1
  rw [run.get k hk, Option.some.injEq] at hl
  subst hl
  cases k with
  | zero => exact ⟨_, load_head_of_holdsPacks r hformat himage hfits hindex run, .head⟩
  | succ k =>
    obtain ⟨found, hload, hahead⟩ :=
      exists_load_inner_of_holdsPacks r hformat himage hfits hindex run (Nat.succ_pos k) hk
    refine ⟨_, hload, .inner ?_⟩
    have hle := run.le
    rw [← hfits.count] at hle
    rcases Nat.lt_or_ge (head + e.span) f.lclusterCount with hnext | hend
    · left
      rw [hahead hnext]
      split <;> omega
    · right
      omega

end Reading

end CompressedFile

end Erofs
