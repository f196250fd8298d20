import Erofs.Proofs.Compression.Walk
/-!
# Tables of lclusters

What an index says, apart from how it is written: the pclusters of a file
in their order, each with the number of lclusters that it spans. A file
shows a table if each of its lclusters is read as the table has it. Only
the distance ahead may be another one, as long as it does not lead past a
head; that is all the walk needs to collect the pclusters of the table
(`Shows.extents_eq`).
-/

namespace Erofs

/-- What the pclusters of a table have in common: the size of an lcluster
and of a block in bits, and whether pclusters may have more than one
block. -/
structure TableShape where
  lclusterBits : Nat
  blockBits : Nat
  big : Bool

variable {s : TableShape}

/-- A pcluster of a table. -/
structure TableEntry (s : TableShape) where
  storage : Storage
  offset : Nat
  block : UInt32
  /-- The number of lclusters from its head up to the next one. -/
  span : Nat
  blocks : Nat
  /-- It starts in its first lcluster. -/
  offset_lt : offset < 2 ^ s.lclusterBits
  /-- That one is its head. -/
  span_pos : 0 < span
  /-- No distance in it looks like a number of blocks. -/
  span_lt : span < blockCountMark
  /-- Where pclusters have one size, it is that of an lcluster. -/
  blocks_eq : s.big = false → blocks = 2 ^ (s.lclusterBits - s.blockBits)
  /-- Elsewhere the index gives it, with a mark. -/
  blocks_lt : s.big = true → 0 < blocks ∧ blocks < blockCountMark
  /-- Without an lcluster after the head there is no place for it. -/
  blocks_one : s.big = true → span = 1 → blocks = 1

/-- A table: the pclusters of a file in their order. -/
abbrev IndexTable (s : TableShape) := List (TableEntry s)

namespace TableEntry

variable (e : TableEntry s) {k : Nat}

/-- The number of blocks that the lcluster at distance `k` from the head
gives. Only the one right after the head gives any. -/
def countAt (k : Nat) : Nat := if s.big ∧ k = 1 then e.blocks else 0

/-- The lcluster at distance `k` from the head. -/
def lcluster : Nat → Lcluster
  | 0 => .head e.storage e.offset e.block
  | k + 1 => .inner (k + 1) (e.span - (k + 1)) (e.countAt (k + 1))

theorem countAt_one (h : s.big = true) : e.countAt 1 = e.blocks :=
  if_pos ⟨h, rfl⟩

theorem countAt_of_not_big (h : s.big = false) : e.countAt k = 0 := by
  simp [countAt, h]

theorem countAt_of_ne_one (h : k ≠ 1) : e.countAt k = 0 := by
  simp [countAt, h]

theorem countAt_ne_zero : e.countAt k ≠ 0 ↔ s.big = true ∧ k = 1 := by
  unfold countAt
  split
  · next h => simp [h, Nat.ne_of_gt (e.blocks_lt h.1).1]
  · next h => simpa using h

theorem countAt_lt : e.countAt k < blockCountMark := by
  unfold countAt
  split
  · next h => exact (e.blocks_lt h.1).2
  · decide

end TableEntry

/-! ## Distances back

Every encoding writes a distance back, or in its place a marked number of
blocks. -/

/-- What an index writes as the distance back. -/
def writtenBack (back count : Nat) : Nat := if count = 0 then back else blockCountMark + count

theorem markedBlockCount?_of_lt {n : Nat} (h : n < blockCountMark) :
    markedBlockCount? n = none := by
  rw [markedBlockCount?, Nat.div_eq_of_lt h]
  rfl

theorem markedBlockCount?_mark {n : Nat} (h : n < blockCountMark) :
    markedBlockCount? (blockCountMark + n) = some n := by
  have hone : (blockCountMark + n) / blockCountMark % 2 = 1 := by
    rw [Nat.add_div_left _ (by decide), Nat.div_eq_of_lt h]
  rw [markedBlockCount?, if_pos hone, Nat.add_sub_cancel_left]

/-- **What is written is read back**: the mark tells the two apart. -/
theorem TableEntry.markedBlockCount?_writtenBack (e : TableEntry s) {k : Nat} (hk : k < e.span) :
    markedBlockCount? (writtenBack k (e.countAt k)) =
      if e.countAt k = 0 then none else some (e.countAt k) := by
  have hspan := e.span_lt
  unfold writtenBack
  split
  · exact markedBlockCount?_of_lt (by omega)
  · exact markedBlockCount?_mark e.countAt_lt

namespace IndexTable

/-- The lclusters of a table. -/
def lclusters (t : IndexTable s) : List Lcluster :=
  t.flatMap fun e => (List.range e.span).map e.lcluster

/-- The pclusters of a table whose first lcluster has the number `lcn`. -/
def pclustersFrom (lcn : Nat) : IndexTable s → List Pcluster
  | [] => []
  | e :: rest => ⟨lcn, e.storage, e.offset, e.block, e.blocks⟩ :: pclustersFrom (lcn + e.span) rest

/-- The extent map that a table describes. -/
def map (t : IndexTable s) : ExtentMap := .of t.lclusters.length (pclustersFrom 0 t)

variable {t front rest : IndexTable s} {e : TableEntry s} {lcn head k : Nat}

theorem lclusters_cons (e : TableEntry s) (rest : IndexTable s) :
    lclusters (e :: rest) = (List.range e.span).map e.lcluster ++ rest.lclusters := by
  simp [lclusters]

theorem lclusters_append (front rest : IndexTable s) :
    lclusters (front ++ rest) = front.lclusters ++ rest.lclusters := by
  simp [lclusters]

theorem length_lclusters_cons (e : TableEntry s) (rest : IndexTable s) :
    (lclusters (e :: rest)).length = e.span + rest.lclusters.length := by
  simp [lclusters_cons]

/-! ## Runs -/

/-- The lclusters of one pcluster, from the head on, and what comes after
them. -/
structure Run (t : IndexTable s) (head : Nat) (e : TableEntry s) : Prop where
  get : ∀ k, k < e.span → t.lclusters[head + k]? = some (e.lcluster k)
  next : head + e.span = t.lclusters.length ∨
    ∃ storage offset block, t.lclusters[head + e.span]? = some (.head storage offset block)

/-- Every pcluster of a table has its run. -/
theorem run_of_append (front : IndexTable s) (e : TableEntry s) (rest : IndexTable s) :
    Run (front ++ e :: rest) front.lclusters.length e := by
  constructor
  · intro k hk
    rw [lclusters_append, lclusters_cons, List.getElem?_append_right (by omega),
      Nat.add_sub_cancel_left, List.getElem?_append_left (by simpa using hk)]
    simp [hk]
  · cases rest with
    | nil => exact .inl (by simp [lclusters])
    | cons next rest =>
      refine .inr ⟨next.storage, next.offset, next.block, ?_⟩
      have hpos := next.span_pos
      rw [lclusters_append, lclusters_cons, lclusters_cons, List.getElem?_append_right (by omega),
        Nat.add_sub_cancel_left, List.getElem?_append_right (by simp),
        List.getElem?_append_left (by simpa using hpos)]
      simp [hpos, TableEntry.lcluster]

/-- **Every lcluster of a table is in a run.** -/
theorem exists_run (h : lcn < t.lclusters.length) :
    ∃ head e k, Run t head e ∧ k < e.span ∧ lcn = head + k := by
  suffices hsplit : ∃ front e rest k, t = front ++ e :: rest ∧ k < e.span ∧
      lcn = (lclusters front).length + k by
    obtain ⟨front, e, rest, k, rfl, hk, hlcn⟩ := hsplit
    exact ⟨_, e, k, run_of_append front e rest, hk, hlcn⟩
  induction t generalizing lcn with
  | nil => cases h
  | cons e rest ih =>
    rw [length_lclusters_cons] at h
    rcases Nat.lt_or_ge lcn e.span with hlt | hge
    · exact ⟨[], e, rest, lcn, rfl, hlt, by simp [lclusters]⟩
    · obtain ⟨front, e', rest', k, rfl, hk, hlcn⟩ := @ih (lcn - e.span) (by omega)
      refine ⟨e :: front, e', rest', k, rfl, hk, ?_⟩
      rw [length_lclusters_cons]
      omega

/-- A run ends inside the table. -/
theorem Run.le (r : Run t head e) : head + e.span ≤ t.lclusters.length := by
  have hpos := e.span_pos
  have hlast := r.get (e.span - 1) (by omega)
  have := (List.getElem?_eq_some_iff.mp hlast).1
  omega

/-- Before a run there is another, or nothing. -/
theorem Run.exists_before (r : Run t head e) (hpos : 0 < head) :
    ∃ start before, Run t start before ∧ start + before.span = head := by
  have hhead := r.get 0 e.span_pos
  have hlt := (List.getElem?_eq_some_iff.mp hhead).1
  obtain ⟨start, before, k, rbefore, hk, hlcn⟩ := @exists_run _ t (head - 1) (by omega)
  refine ⟨start, before, rbefore, ?_⟩
  rcases Nat.eq_or_lt_of_le hk with hlast | hmore
  · omega
  · -- the head would be inside the run before it
    have hinner := rbefore.get (k + 1) hmore
    rw [(by omega : start + (k + 1) = head + 0), hhead] at hinner
    cases hinner

end IndexTable

/-! ## Files that show a table -/

/-- What is read of an lcluster is what a table of `total` lclusters has
there, but for the distance ahead. That one may be too short, and where
no further head is ahead it may be anything. -/
inductive ReadAs (total lcn : Nat) : Lcluster → Lcluster → Prop
  /-- A head is read as it is. -/
  | head {storage : Storage} {offset : Nat} {block : UInt32} :
      ReadAs total lcn (.head storage offset block) (.head storage offset block)
  /-- An lcluster inside a pcluster is read with some distance ahead. -/
  | inner {back ahead count found : Nat} : found ≤ ahead ∨ lcn + ahead = total →
      ReadAs total lcn (.inner back ahead count) (.inner back found count)

theorem ReadAs.refl {total lcn : Nat} (l : Lcluster) : ReadAs total lcn l l := by
  cases l with
  | head => exact .head
  | inner => exact .inner (.inl (Nat.le_refl _))

namespace CompressedFile

variable {f : CompressedFile} {sb : Superblock} {image : ByteArray} {t : IndexTable s}

/-- What is known of a file apart from its index fits a table. -/
structure Fits (f : CompressedFile) (sb : Superblock) (t : IndexTable s) : Prop where
  count : f.lclusterCount = t.lclusters.length
  lclusterBits : f.lclusterBits = s.lclusterBits
  blockBits : sb.bits = s.blockBits
  big : ∀ storage, f.hasBig storage = s.big

/-- **A file shows a table.** -/
structure Shows (f : CompressedFile) (sb : Superblock) (image : ByteArray) (t : IndexTable s) :
    Prop extends Fits f sb t where
  reads : ∀ lcn l, t.lclusters[lcn]? = some l →
    ∃ found, (f.loadLcluster lcn).onImage image = .ok found ∧ ReadAs f.lclusterCount lcn l found

variable {head k : Nat} {e : TableEntry s} {before : Collected}

namespace Shows

/-- A head is read as it is. -/
theorem load_head (h : f.Shows sb image t) (r : IndexTable.Run t head e) :
    (f.loadLcluster head).onImage image = .ok (.head e.storage e.offset e.block) := by
  obtain ⟨found, hload, hread⟩ := h.reads head _ (r.get 0 e.span_pos)
  cases hread
  exact hload

/-- An lcluster after it is read so, but for the distance ahead. -/
theorem load_inner (h : f.Shows sb image t) (r : IndexTable.Run t head e) (hk : k + 1 < e.span) :
    ∃ found, (f.loadLcluster (head + (k + 1))).onImage image =
        .ok (.inner (k + 1) found (e.countAt (k + 1))) ∧
      (found ≤ e.span - (k + 1) ∨ head + e.span = f.lclusterCount) := by
  obtain ⟨found, hload, hread⟩ := h.reads _ _ (r.get (k + 1) hk)
  cases hread with
  | inner hahead => exact ⟨_, hload, hahead.imp id fun h => by omega⟩

/-- **The walk finds the number of blocks of every pcluster.** -/
theorem pclusterBlocks (h : f.Shows sb image t) (r : IndexTable.Run t head e) :
    (f.pclusterBlocks sb head e.storage).onImage image = .ok e.blocks := by
  have hle := r.le
  have hpos := e.span_pos
  rw [← h.count] at hle
  cases hbig : s.big with
  | false =>
    rw [pclusterBlocks_of_not_big (by rw [h.big, hbig]), e.blocks_eq hbig, h.lclusterBits,
      h.blockBits]
  | true =>
    have hfile : f.hasBig e.storage = true := by rw [h.big, hbig]
    rcases Nat.lt_or_ge (head + 1) f.lclusterCount with hlt | hge
    · rw [pclusterBlocks_eq_ok hfile hlt]
      rcases Nat.eq_or_lt_of_le hpos with hone | hmore
      · -- the next lcluster is a head
        rcases r.next with hend | ⟨storage, offset, block, hnext⟩
        · rw [← h.count] at hend
          omega
        · obtain ⟨found, hload, hread⟩ := h.reads _ _ hnext
          cases hread
          rw [← hone] at hload
          exact ⟨_, hload, e.blocks_one hbig hone.symm⟩
      · obtain ⟨found, hload, -⟩ := h.load_inner r hmore
        exact ⟨_, hload, rfl, e.countAt_ne_zero.mpr ⟨hbig, rfl⟩, (e.countAt_one hbig).symm⟩
    · rw [pclusterBlocks_of_last hfile hge, e.blocks_one hbig (by omega)]

/-- **From inside a run the walk gets to its end**, since no distance ahead
leads past the next head. -/
theorem walkFrom_run (h : f.Shows sb image t) (r : IndexTable.Run t head e)
    (hne : before.pclusters ≠ []) (hk : 0 < k) (hke : k ≤ e.span) :
    (f.walkFrom sb (head + k) before).onImage image =
      (f.walkFrom sb (head + e.span) before).onImage image := by
  have hle := r.le
  rw [← h.count] at hle
  -- a jump stays in the run, or it ends the walk
  induction hn : e.span - k using Nat.strongRecOn generalizing k with
  | ind n ih =>
    rcases Nat.eq_or_lt_of_le hke with rfl | hlt
    · rfl
    · obtain ⟨j, rfl⟩ : ∃ j, k = j + 1 := ⟨k - 1, by omega⟩
      obtain ⟨found, hload, hfound⟩ := h.load_inner r hlt
      rw [walkFrom_of_inner (by omega) hne hload]
      rcases Nat.lt_or_ge e.span (j + 1 + max found 1) with hpast | hin
      · -- only past the end of the file
        rw [walkFrom_of_end (by omega), walkFrom_of_end (by omega)]
      · rw [Nat.add_assoc]
        exact ih (e.span - (j + 1 + max found 1)) (by omega) (by omega) hin rfl

/-- **The walk over the rest of a table** adds its pclusters to those found
before. -/
theorem walkFrom_eq {front rest : IndexTable s} (h : f.Shows sb image (front ++ rest)) :
    (f.walkFrom sb front.lclusters.length before).onImage image =
      .ok (.of f.lclusterCount
        (before.pclusters.reverse ++ IndexTable.pclustersFrom front.lclusters.length rest)) := by
  -- what the walk has passed goes from the rest to the front
  induction rest generalizing front before with
  | nil =>
    rw [walkFrom_of_end (by simp [h.count]), Collected.toMap_eq]
    simp [IndexTable.pclustersFrom]
  | cons e rest ih =>
    have r := IndexTable.run_of_append front e rest
    have hle := r.le
    have hpos := e.span_pos
    rw [← h.count] at hle
    rw [walkFrom_of_head (by omega) (h.load_head r) (h.pclusterBlocks r),
      h.walkFrom_run r (List.cons_ne_nil _ _) Nat.one_pos hpos]
    have hfront : (IndexTable.lclusters (front ++ [e])).length =
        front.lclusters.length + e.span := by
      simp [IndexTable.lclusters]
    rw [← hfront, ih (by simpa using h)]
    simp [IndexTable.pclustersFrom, hfront, Collected.push]

/-- **The extent map of a file that shows a table** is the one that the
table describes. -/
theorem extents_eq (h : f.Shows sb image t) : (f.extents sb).onImage image = .ok t.map := by
  rw [CompressedFile.extents_eq]
  have hwalk := @walkFrom_eq _ f sb image .empty [] t h
  rw [h.count] at hwalk
  exact hwalk

end Shows

end CompressedFile

end Erofs
