import Erofs.Compression.CompactIndex
import Mathlib.Data.Nat.Init
/-!
# Looking along a pack

How the look-ahead and the two backward scans move over a pack whose slots
are known. The look-ahead passes the slots inside a pcluster and stops at
the first head, so it never jumps over one. A backward scan from one head
comes to the head before it and then goes on as from there: so two heads
that follow each other differ by the blocks of the first
(`pclustersBefore_next`, `blocksBefore_next`).
-/

namespace Erofs

namespace Pack

/-- The slots of a pack can be read, and hold these entries. -/
def Holds (p : Pack) (e : Nat → PackEntry) : Prop :=
  ∀ slot, slot < p.slots → p.entry slot = .ok (e slot)

variable {p : Pack} {e : Nat → PackEntry} {a b slot n : Nat}

/-! ## The look-ahead -/

theorem distanceAhead_of_not_inner (hp : p.Holds e) (hs : slot < p.slots)
    (hi : (e slot).isInner = false) : p.distanceAhead slot = .ok 0 := by
  rw [distanceAhead, hp slot hs]
  simp [bind, Except.bind, hi, pure, Except.pure]

theorem distanceAhead_succ (hp : p.Holds e) (hs : slot + 1 < p.slots)
    (hi : (e slot).isInner = true) :
    p.distanceAhead slot = (p.distanceAhead (slot + 1)).map (1 + ·) := by
  rw [distanceAhead, hp slot (by omega)]
  simp only [bind, Except.bind, hi, Bool.not_true, Bool.false_eq_true, if_false, if_pos hs]
  cases p.distanceAhead (slot + 1) <;> rfl

/-- How far the look-ahead goes past the end of a pack that ends with this
entry. -/
def overhang (last : PackEntry) : Nat :=
  match markedBlockCount? last.low with
  | some _ => 0
  | none => last.low - 1

theorem distanceAhead_last (hp : p.Holds e) (hs : slot + 1 = p.slots)
    (hi : (e slot).isInner = true) : p.distanceAhead slot = .ok (1 + overhang (e slot)) := by
  rw [distanceAhead, hp slot (by omega)]
  simp only [bind, Except.bind, hi, Bool.not_true, Bool.false_eq_true, if_false,
    if_neg (by omega : ¬ slot + 1 < p.slots), overhang]
  cases markedBlockCount? (e slot).low <;> rfl

/-- **The look-ahead finds the next head of the pack.** -/
theorem distanceAhead_of_head (hp : p.Holds e) (hb : b < p.slots)
    (hhead : (e b).isInner = false) (hslot : slot ≤ b)
    (hinner : ∀ k, slot ≤ k → k < b → (e k).isInner = true) :
    p.distanceAhead slot = .ok (b - slot) := by
  induction hslot using Nat.decreasingInduction with
  | self => simpa using distanceAhead_of_not_inner hp hb hhead
  | of_succ k hk ih =>
    rw [distanceAhead_succ hp (by omega) (hinner k (Nat.le_refl k) hk),
      ih fun j h₁ h₂ => hinner j (by omega) h₂]
    simp only [Except.map]
    congr 1
    omega

/-- **Where the pack has no further head**, the last slot says how far the
look-ahead goes. -/
theorem distanceAhead_of_inner (hp : p.Holds e) (hslot : slot < p.slots)
    (hinner : ∀ k, slot ≤ k → k < p.slots → (e k).isInner = true) :
    p.distanceAhead slot = .ok (p.slots - slot + overhang (e (p.slots - 1))) := by
  obtain ⟨last, hlast⟩ : ∃ last, p.slots = last + 1 := ⟨p.slots - 1, by omega⟩
  have hle : slot ≤ last := by omega
  induction hle using Nat.decreasingInduction with
  | self =>
    rw [distanceAhead_last hp hlast.symm (hinner last (Nat.le_refl _) (by omega))]
    simp only [hlast]
    congr 2
    omega
  | of_succ k hk ih =>
    rw [distanceAhead_succ hp (by omega) (hinner k (Nat.le_refl k) (by omega)),
      ih (by omega) fun j h₁ h₂ => hinner j (by omega) h₂]
    simp only [Except.map]
    congr 1
    omega

/-- From any slot there is a next head in the pack, or none. -/
theorem exists_head_or_inner (e : Nat → PackEntry) (slot slots : Nat) :
    (∃ b, slot ≤ b ∧ b < slots ∧ (e b).isInner = false ∧
        ∀ k, slot ≤ k → k < b → (e k).isInner = true) ∨
      ∀ k, slot ≤ k → k < slots → (e k).isInner = true := by
  induction h : slots - slot generalizing slot with
  | zero =>
    right
    intro k h₁ h₂
    omega
  | succ n ih =>
    cases hs : (e slot).isInner with
    | false =>
      refine .inl ⟨slot, Nat.le_refl _, by omega, hs, ?_⟩
      intro k h₁ h₂
      omega
    | true =>
      have step : ∀ k, slot ≤ k → (slot + 1 ≤ k → (e k).isInner = true) → (e k).isInner = true := by
        intro k hk hrest
        rcases Nat.eq_or_lt_of_le hk with rfl | hlt
        · exact hs
        · exact hrest hlt
      rcases ih (slot + 1) (by omega) with ⟨b, hb, hbs, hhead, hinner⟩ | hinner
      · refine .inl ⟨b, by omega, hbs, hhead, ?_⟩
        intro k h₁ h₂
        exact step k h₁ fun h => hinner k h h₂
      · right
        intro k h₁ h₂
        exact step k h₁ fun h => hinner k h h₂

/-- **The look-ahead never jumps over a head.** -/
theorem inner_of_distanceAhead (hp : p.Holds e) (h : p.distanceAhead slot = .ok n) {k : Nat}
    (hk : slot ≤ k) (hkn : k < slot + n) (hks : k < p.slots) : (e k).isInner = true := by
  rcases exists_head_or_inner e slot p.slots with ⟨b, hb, hbs, hhead, hinner⟩ | hinner
  · -- it stops at the next head
    rw [distanceAhead_of_head hp hbs hhead hb hinner, Except.ok.injEq] at h
    exact hinner k hk (by omega)
  · -- there is none in the rest of the pack
    exact hinner k hk hks

/-! ## The backward scans -/

@[simp] theorem pclustersBefore_zero (p : Pack) : p.pclustersBefore 0 = .ok 0 := by
  rw [pclustersBefore]

@[simp] theorem blocksBefore_zero (p : Pack) (nid : Nat) : p.blocksBefore nid 0 = .ok 0 := by
  rw [blocksBefore]

theorem pclustersBefore_succ_of_head (hp : p.Holds e) (hs : slot < p.slots)
    (hi : (e slot).isInner = false) :
    p.pclustersBefore (slot + 1) = (p.pclustersBefore slot).map (1 + ·) := by
  rw [pclustersBefore, hp slot hs]
  simp only [bind, Except.bind, hi, Bool.not_false, if_true]
  cases p.pclustersBefore slot <;> rfl

theorem pclustersBefore_succ_of_inner (hp : p.Holds e) (hs : slot < p.slots)
    (hi : (e slot).isInner = true) (hlow : (e slot).low ≤ slot) :
    p.pclustersBefore (slot + 1) = (p.pclustersBefore (slot - (e slot).low)).map (1 + ·) := by
  rw [pclustersBefore, hp slot hs]
  simp only [bind, Except.bind, hi, Bool.not_true, Bool.false_eq_true, if_false,
    if_neg (by omega : ¬ slot < (e slot).low)]
  cases p.pclustersBefore (slot - (e slot).low) <;> rfl

theorem pclustersBefore_succ_of_outside (hp : p.Holds e) (hs : slot < p.slots)
    (hi : (e slot).isInner = true) (hlow : slot < (e slot).low) :
    p.pclustersBefore (slot + 1) = .ok 0 := by
  rw [pclustersBefore, hp slot hs]
  simp [bind, Except.bind, hi, hlow, pure, Except.pure]

theorem blocksBefore_succ_of_head {nid : Nat} (hp : p.Holds e) (hs : slot < p.slots)
    (hi : (e slot).isInner = false) :
    p.blocksBefore nid (slot + 1) = (p.blocksBefore nid slot).map (1 + ·) := by
  rw [blocksBefore, hp slot hs]
  simp only [bind, Except.bind, hi, Bool.not_false, if_true]
  cases p.blocksBefore nid slot <;> rfl

theorem blocksBefore_succ_of_count {nid count : Nat} (hp : p.Holds e) (hs : slot < p.slots)
    (hi : (e slot).isInner = true) (hcount : markedBlockCount? (e slot).low = some count) :
    p.blocksBefore nid (slot + 1) = (p.blocksBefore nid (slot - 1)).map (count + ·) := by
  rw [blocksBefore, hp slot hs]
  simp only [bind, Except.bind, hi, Bool.not_true, Bool.false_eq_true, if_false, hcount]
  cases p.blocksBefore nid (slot - 1) <;> rfl

theorem blocksBefore_succ_of_distance {nid : Nat} (hp : p.Holds e) (hs : slot < p.slots)
    (hi : (e slot).isInner = true) (hcount : markedBlockCount? (e slot).low = none)
    (hlow : 1 < (e slot).low) :
    p.blocksBefore nid (slot + 1) = p.blocksBefore nid (slot - ((e slot).low - 2)) := by
  rw [blocksBefore, hp slot hs]
  simp only [bind, Except.bind, hi, Bool.not_true, Bool.false_eq_true, if_false, hcount,
    if_neg (by omega : ¬ (e slot).low ≤ 1)]

/-- **From one head to the next, where pclusters have one block each.**
The slot before the second head is the first head, or gives the distance
to it. -/
theorem pclustersBefore_next (hp : p.Holds e) (hab : a < b) (hb : b ≤ p.slots)
    (ha : (e a).isInner = false)
    (hback : a + 1 < b → (e (b - 1)).isInner = true ∧ (e (b - 1)).low = b - 1 - a) :
    p.pclustersBefore b = (p.pclustersBefore a).map (1 + ·) := by
  obtain ⟨before, rfl⟩ : ∃ before, b = before + 1 := ⟨b - 1, by omega⟩
  rcases Nat.eq_or_lt_of_le (Nat.le_of_lt_succ hab) with rfl | hlt
  · exact pclustersBefore_succ_of_head hp (by omega) ha
  · obtain ⟨hinner, hlow⟩ := hback (by omega)
    rw [Nat.add_sub_cancel] at hinner hlow
    rw [pclustersBefore_succ_of_inner hp (by omega) hinner (by omega), hlow,
      Nat.sub_sub_self (by omega)]

/-- **From one head to the next, where pclusters may have more blocks.**
The first head is right before the second, or a number of blocks is right
after it and the slot before the second head leads there. -/
theorem blocksBefore_next {nid count : Nat} (hp : p.Holds e) (hab : a < b) (hb : b ≤ p.slots)
    (ha : (e a).isInner = false) (hone : a + 1 = b → count = 1)
    (hcount : a + 1 < b → (e (a + 1)).isInner = true ∧
      markedBlockCount? (e (a + 1)).low = some count)
    (hback : a + 2 < b → (e (b - 1)).isInner = true ∧
      markedBlockCount? (e (b - 1)).low = none ∧ (e (b - 1)).low = b - 1 - a) :
    p.blocksBefore nid b = (p.blocksBefore nid a).map (count + ·) := by
  rcases Nat.eq_or_lt_of_le hab with rfl | hlt
  · rw [hone rfl]
    exact blocksBefore_succ_of_head hp (by omega) ha
  · obtain ⟨hinner, hmark⟩ := hcount hlt
    -- the scan gets to the slot behind the number of blocks
    have hmeet : p.blocksBefore nid b = p.blocksBefore nid (a + 1 + 1) := by
      rcases Nat.eq_or_lt_of_le hlt with rfl | hfar
      · rfl
      · obtain ⟨hlast, hnone, hlow⟩ := hback hfar
        obtain ⟨before, rfl⟩ : ∃ before, b = before + 1 := ⟨b - 1, by omega⟩
        rw [Nat.add_sub_cancel] at hlast hnone hlow
        rw [blocksBefore_succ_of_distance hp (by omega) hlast hnone (by omega), hlow]
        congr 1
        omega
    rw [hmeet, blocksBefore_succ_of_count hp (by omega) hinner hmark, Nat.add_sub_cancel]

/-! ## What a slot says of its lcluster -/

variable {f : CompressedFile}

/-- In a head, the scan gives the block. -/
theorem lcluster_of_head {storage : Storage} (hp : p.Holds e) (hs : slot < p.slots)
    (ht : (e slot).typeCode = storage.type.code) :
    p.lcluster f slot = (p.blocksFromBase f slot).map fun n =>
      .head storage (e slot).low (p.base + n.toUInt32) := by
  rw [lcluster, hp slot hs]
  cases storage <;> simp only [bind, Except.bind, ht, Storage.type, ClusterType.code,
    ClusterType.ofCode] <;> cases p.blocksFromBase f slot <;> rfl

/-- The distance back of a slot inside a pcluster, with the number of
blocks that it gives. The last slot holds the other distance. -/
def backAndCount (p : Pack) (slot : Nat) (entry : PackEntry) : Except Error (Nat × Nat) :=
  match markedBlockCount? entry.low with
  | some count => .ok (1, count)
  | none =>
    if slot + 1 = p.slots then (p.distanceBackFromLast slot).map fun back => (back, 0)
    else .ok (entry.low, 0)

/-- Elsewhere it gives distances. -/
theorem lcluster_of_inner (hp : p.Holds e) (hs : slot < p.slots) (hi : (e slot).isInner = true) :
    p.lcluster f slot = (p.distanceAhead slot).bind fun ahead =>
      (p.backAndCount slot (e slot)).map fun back => .inner back.1 ahead back.2 := by
  have ht : (e slot).typeCode = 2 := by simpa [PackEntry.isInner, ClusterType.code] using hi
  rw [lcluster, hp slot hs]
  simp only [bind, Except.bind, ht, ClusterType.ofCode, backAndCount]
  cases p.distanceAhead slot with
  | error cause => rfl
  | ok ahead =>
    simp only []
    cases markedBlockCount? (e slot).low with
    | some count => rfl
    | none =>
      simp only []
      split
      · cases p.distanceBackFromLast slot <;> rfl
      · rfl

/-- The type of a slot that can be read as an lcluster. -/
theorem type_of_lcluster {l : Lcluster} (hp : p.Holds e) (hs : slot < p.slots)
    (h : p.lcluster f slot = .ok l) :
    (e slot).isInner = true ∨ ∃ storage : Storage, (e slot).typeCode = storage.type.code := by
  rw [lcluster, hp slot hs] at h
  match ht : (e slot).typeCode with
  | 0 => exact .inr ⟨.plain, rfl⟩
  | 1 => exact .inr ⟨.compressed, rfl⟩
  | 2 => exact .inl (by simp [PackEntry.isInner, ht, ClusterType.code])
  | code + 3 => simp [bind, Except.bind, ht, ClusterType.ofCode] at h

theorem not_inner_of_type {storage : Storage} {entry : PackEntry}
    (h : entry.typeCode = storage.type.code) : entry.isInner = false := by
  cases storage <;> simp [PackEntry.isInner, h, Storage.type, ClusterType.code]

/-- A slot that is read as a head is one, and the scan gave its block. -/
theorem head_of_lcluster {storage : Storage} {offset : Nat} {block : UInt32} (hp : p.Holds e)
    (hs : slot < p.slots) (h : p.lcluster f slot = .ok (.head storage offset block)) :
    (e slot).isInner = false ∧
      ∃ n, p.blocksFromBase f slot = .ok n ∧ block = p.base + n.toUInt32 := by
  rcases type_of_lcluster hp hs h with hi | ⟨stored, ht⟩
  · rw [lcluster_of_inner hp hs hi] at h
    cases hd : p.distanceAhead slot <;> cases hb : p.backAndCount slot (e slot) <;>
      simp [hd, hb, Except.bind, Except.map] at h
  · refine ⟨not_inner_of_type ht, ?_⟩
    rw [lcluster_of_head hp hs ht] at h
    cases hn : p.blocksFromBase f slot <;>
      simp only [hn, Except.map, Except.ok.injEq, Lcluster.head.injEq] at h
    · cases h
    · exact ⟨_, rfl, h.2.2.symm⟩

/-- A slot that is read as one inside a pcluster is, and the look-ahead
gave the distance to the next head. -/
theorem inner_of_lcluster {back ahead count : Nat} (hp : p.Holds e)
    (hs : slot < p.slots) (h : p.lcluster f slot = .ok (.inner back ahead count)) :
    (e slot).isInner = true ∧ p.distanceAhead slot = .ok ahead ∧
      p.backAndCount slot (e slot) = .ok (back, count) := by
  rcases type_of_lcluster hp hs h with hi | ⟨stored, ht⟩
  · refine ⟨hi, ?_⟩
    rw [lcluster_of_inner hp hs hi] at h
    cases hd : p.distanceAhead slot <;> cases hb : p.backAndCount slot (e slot) <;>
      simp [hd, hb, Except.bind, Except.map] at h
    obtain ⟨rfl, rfl, rfl⟩ := h
    exact ⟨rfl, rfl⟩
  · rw [lcluster_of_head hp hs ht] at h
    cases hn : p.blocksFromBase f slot <;> simp [hn, Except.map] at h

end Pack

end Erofs
