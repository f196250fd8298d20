import Erofs.Compression.OccupiedSize
import Erofs.Proofs.Query
import Mathlib.Tactic.Common
/-!
# The walk along an index

One step of the walk for each kind of lcluster (`walkFrom_of_head`,
`walkFrom_of_inner`, `walkFrom_of_end`), induction on these steps
(`steps_induction`), and what a finished walk has seen: `Walks` has a
constructor for each step, and `walks_of_extents` says that the pclusters
of a map come from it. So each of them is what the index says of its
lcluster, and between two that follow each other the walk has only skipped
lclusters inside a pcluster.
-/

namespace Erofs

/-- A map is that of its pclusters. -/
theorem ExtentMap.eq_of (m : ExtentMap) : m = .of m.lclusterCount m.pclusters := by
  obtain ⟨count, ps, blocks, rfl⟩ := m
  rfl

theorem Collected.toMap_eq (c : Collected) (count : Nat) :
    c.toMap count = .of count c.pclusters.reverse :=
  (c.toMap count).eq_of

/-- What an lcluster says of the number of blocks of the head before it. -/
def Lcluster.GivesBlocks (blocks : Nat) : Lcluster → Prop
  | .head .. => blocks = 1
  | .inner back _ count => back = 1 ∧ count ≠ 0 ∧ blocks = count

namespace CompressedFile

variable {image : ByteArray} {f : CompressedFile} {sb : Superblock}
variable {lcn back ahead count blocks offset : Nat} {storage : Storage} {block : UInt32}
variable {before : Collected} {map : ExtentMap}

/-- The index is read as its format says, for lclusters of the file. -/
theorem loadLcluster_eq_ok {l : Lcluster} :
    (f.loadLcluster lcn).onImage image = .ok l ↔ lcn < f.lclusterCount ∧
      (match f.format with
        | .full => f.loadFull lcn
        | .compact => f.loadCompact lcn).onImage image = .ok l := by
  unfold loadLcluster
  by_cases h : lcn < f.lclusterCount
  · simp only [if_neg (Nat.not_le.mpr h), h, true_and]
    cases f.format <;> simp [Query.onImage_bind_eq_ok, Query.onImage_report_bind]
  · simp [Nat.le_of_not_lt h, h]

/-! ## The size of a pcluster -/

/-- Where pclusters have one size, it is that of an lcluster. -/
theorem pclusterBlocks_of_not_big (h : f.hasBig storage = false) :
    (f.pclusterBlocks sb lcn storage).onImage image = .ok (2 ^ (f.lclusterBits - sb.bits)) := by
  simp [pclusterBlocks, h]

/-- Where they have not, the last lcluster of the file is a pcluster of
one block. -/
theorem pclusterBlocks_of_last (h : f.hasBig storage = true) (hlast : f.lclusterCount ≤ lcn + 1) :
    (f.pclusterBlocks sb lcn storage).onImage image = .ok 1 := by
  simp [pclusterBlocks, h, hlast]

/-- And the lcluster after any other head decides. -/
theorem pclusterBlocks_eq_ok (h : f.hasBig storage = true) (hnext : lcn + 1 < f.lclusterCount) :
    (f.pclusterBlocks sb lcn storage).onImage image = .ok blocks ↔
      ∃ l, (f.loadLcluster (lcn + 1)).onImage image = .ok l ∧ l.GivesBlocks blocks := by
  simp only [pclusterBlocks, h, Bool.not_true, Bool.false_eq_true, if_false,
    if_neg (Nat.not_le.mpr hnext), Query.onImage_bind_eq_ok]
  refine exists_congr fun l => and_congr_right fun _ => ?_
  cases l with
  | head storage offset block => simp [Lcluster.GivesBlocks, eq_comm]
  | inner back ahead count =>
    simp only [Lcluster.GivesBlocks]
    split
    · next hcount => simp [hcount, eq_comm]
    · next hcount =>
      simp only [Query.onImage_fail, reduceCtorEq, false_iff]
      rintro ⟨hback, hne, -⟩
      exact hcount ⟨hback, hne⟩

/-! ## One step -/

theorem walkFrom_of_end (h : f.lclusterCount ≤ lcn) :
    (f.walkFrom sb lcn before).onImage image = .ok (before.toMap f.lclusterCount) := by
  rw [walkFrom, dif_neg (Nat.not_lt.mpr h)]
  rfl

theorem walkFrom_of_lt (h : lcn < f.lclusterCount) :
    (f.walkFrom sb lcn before).onImage image =
      ((f.loadLcluster lcn).onImage image).bind fun l =>
        match l with
        | .head storage offset block =>
          ((f.pclusterBlocks sb lcn storage).onImage image).bind fun blocks =>
            (f.walkFrom sb (lcn + 1)
              (before.push ⟨lcn, storage, offset, block, blocks⟩)).onImage image
        | .inner _ ahead _ =>
          if before.pclusters.isEmpty then .error .noLeadingHead
          else (f.walkFrom sb (lcn + max ahead 1) before).onImage image := by
  rw [walkFrom, dif_pos h, Query.onImage_bind]
  congr 1
  funext l
  cases l with
  | head storage offset block => exact Query.onImage_bind ..
  | inner back ahead count =>
    change Query.onImage image (if before.pclusters.isEmpty then _ else _) = _
    cases before.pclusters.isEmpty <;> simp

/-- A head is recorded with the number of its blocks. -/
theorem walkFrom_of_head (h : lcn < f.lclusterCount)
    (hload : (f.loadLcluster lcn).onImage image = .ok (.head storage offset block))
    (hblocks : (f.pclusterBlocks sb lcn storage).onImage image = .ok blocks) :
    (f.walkFrom sb lcn before).onImage image =
      (f.walkFrom sb (lcn + 1)
        (before.push ⟨lcn, storage, offset, block, blocks⟩)).onImage image := by
  rw [walkFrom_of_lt h, hload]
  simp only [Except.bind, hblocks]

/-- Any other lcluster is left for where the index says the next head
is. -/
theorem walkFrom_of_inner (h : lcn < f.lclusterCount) (hne : before.pclusters ≠ [])
    (hload : (f.loadLcluster lcn).onImage image = .ok (.inner back ahead count)) :
    (f.walkFrom sb lcn before).onImage image =
      (f.walkFrom sb (lcn + max ahead 1) before).onImage image := by
  rw [walkFrom_of_lt h, hload]
  simp [Except.bind, hne]

/-- **Induction on the steps of a walk**: it is past the last lcluster, or
it goes on from later ones. -/
@[elab_as_elim]
theorem steps_induction (f : CompressedFile) {motive : Nat → Prop}
    (done : ∀ lcn, f.lclusterCount ≤ lcn → motive lcn)
    (step : ∀ lcn, lcn < f.lclusterCount → (∀ later, lcn < later → motive later) → motive lcn)
    (lcn : Nat) : motive lcn := by
  -- every step leaves fewer lclusters of the file ahead
  induction hn : f.lclusterCount - lcn using Nat.strongRecOn generalizing lcn with
  | ind n ih =>
    rcases Nat.lt_or_ge lcn f.lclusterCount with hlt | hge
    · refine step lcn hlt ?_
      intro later hlater
      exact ih (f.lclusterCount - later) (by omega) later rfl
    · exact done lcn hge

/-! ## A finished walk -/

/-- A pcluster is what the index says of the lcluster that it starts
in. -/
structure Recorded (f : CompressedFile) (sb : Superblock) (image : ByteArray) (p : Pcluster) :
    Prop where
  lt : p.lcn < f.lclusterCount
  load : (f.loadLcluster p.lcn).onImage image = .ok (.head p.storage p.offset p.block)
  blocks : (f.pclusterBlocks sb p.lcn p.storage).onImage image = .ok p.blocks

/-- The walk gets from one lcluster to another over lclusters inside a
pcluster. -/
inductive Skips (f : CompressedFile) (image : ByteArray) : Nat → Nat → Prop
  /-- It is there. -/
  | here {lcn : Nat} : Skips f image lcn lcn
  /-- It goes on to where the index says the next head is. -/
  | jump {lcn back ahead count target : Nat} : lcn < f.lclusterCount →
      (f.loadLcluster lcn).onImage image = .ok (.inner back ahead count) →
      Skips f image (lcn + max ahead 1) target → Skips f image lcn target

/-- A finished walk from an lcluster on, with the pclusters it
recorded. -/
inductive Walks (f : CompressedFile) (sb : Superblock) (image : ByteArray) :
    Nat → List Pcluster → Prop
  /-- Past the last lcluster there is nothing. -/
  | done {lcn : Nat} : f.lclusterCount ≤ lcn → Walks f sb image lcn []
  /-- A head is recorded. -/
  | head {p : Pcluster} {rest : List Pcluster} : f.Recorded sb image p →
      Walks f sb image (p.lcn + 1) rest → Walks f sb image p.lcn (p :: rest)
  /-- Any other lcluster is skipped. -/
  | inner {lcn back ahead count : Nat} {rest : List Pcluster} : lcn < f.lclusterCount →
      (f.loadLcluster lcn).onImage image = .ok (.inner back ahead count) →
      Walks f sb image (lcn + max ahead 1) rest → Walks f sb image lcn rest

/-- **What the walk collects, a finished walk recorded.** -/
theorem walks_of_walkFrom (h : (f.walkFrom sb lcn before).onImage image = .ok map) :
    map.lclusterCount = f.lclusterCount ∧
      ∃ new, map.pclusters = before.pclusters.reverse ++ new ∧ f.Walks sb image lcn new := by
  induction lcn using f.steps_induction generalizing before with
  | done lcn hge =>
    rw [walkFrom_of_end hge, Except.ok.injEq] at h
    subst h
    exact ⟨rfl, [], (List.append_nil _).symm, .done hge⟩
  | step lcn hlt ih =>
    rw [walkFrom_of_lt hlt] at h
    cases hload : (f.loadLcluster lcn).onImage image with
    | error cause => simp [hload, Except.bind] at h
    | ok l =>
      cases l with
      | head storage offset block =>
        cases hblocks : (f.pclusterBlocks sb lcn storage).onImage image with
        | error cause => simp [hload, hblocks, Except.bind] at h
        | ok blocks =>
          simp only [hload, hblocks, Except.bind] at h
          obtain ⟨hcount, new, hnew, hwalk⟩ := ih (lcn + 1) (by omega) h
          refine ⟨hcount, ⟨lcn, storage, offset, block, blocks⟩ :: new, ?_, ?_⟩
          · rw [hnew, Collected.push, List.reverse_cons, List.append_assoc]
            rfl
          · exact .head (p := ⟨lcn, storage, offset, block, blocks⟩) ⟨hlt, hload, hblocks⟩ hwalk
      | inner back ahead count =>
        simp only [hload, Except.bind] at h
        split at h
        · cases h
        · obtain ⟨hcount, new, hnew, hwalk⟩ := ih (lcn + max ahead 1) (by omega) h
          exact ⟨hcount, new, hnew, .inner hlt hload hwalk⟩

/-- The map is what the walk collects: what comes after it only leaves
remarks. -/
theorem extents_eq (f : CompressedFile) (sb : Superblock) (image : ByteArray) :
    (f.extents sb).onImage image = (f.walkFrom sb 0 .empty).onImage image := by
  unfold extents
  rw [Query.onImage_bind]
  cases (f.walkFrom sb 0 .empty).onImage image with
  | error cause => rfl
  | ok map =>
    simp only [Except.bind]
    rw [Query.onImage_bind_of_ok (a := ()), Query.onImage_report_bind, Query.onImage_pure]
    unfold compareCount
    split
    · split <;> simp
    · simp

/-- **The pclusters of a map come from a finished walk.** -/
theorem walks_of_extents (h : (f.extents sb).onImage image = .ok map) :
    map.lclusterCount = f.lclusterCount ∧ f.Walks sb image 0 map.pclusters := by
  rw [extents_eq] at h
  obtain ⟨hcount, new, hnew, hwalks⟩ := walks_of_walkFrom h
  rw [hnew]
  exact ⟨hcount, hwalks⟩

/-- Skipping goes forwards. -/
theorem Skips.le {target : Nat} (h : f.Skips image lcn target) : lcn ≤ target := by
  induction h with
  | here => exact Nat.le_refl _
  | jump _ _ _ ih => omega

namespace Walks

variable {p q : Pcluster} {rest before after : List Pcluster}

/-- The first pcluster of a walk, and what lies before it. -/
theorem cons (h : f.Walks sb image lcn (p :: rest)) :
    f.Skips image lcn p.lcn ∧ f.Recorded sb image p ∧ f.Walks sb image (p.lcn + 1) rest := by
  generalize hps : p :: rest = ps at h
  induction h with
  | done => cases hps
  | head hp hrest =>
    cases hps
    exact ⟨.here, hp, hrest⟩
  | inner hlt hload _ ih =>
    obtain ⟨hskips, hp, hrest⟩ := ih hps
    exact ⟨.jump hlt hload hskips, hp, hrest⟩

/-- After each pcluster of a walk it goes on with those that are left. -/
theorem after_mem (h : f.Walks sb image lcn (before ++ p :: after)) :
    f.Recorded sb image p ∧ f.Walks sb image (p.lcn + 1) after := by
  induction before generalizing lcn with
  | nil => exact (cons h).2
  | cons r before ih => exact ih (cons h).2.2

/-- **Two pclusters that follow each other** are both what the index says,
with nothing but lclusters inside a pcluster on the way. -/
theorem adjacent (h : f.Walks sb image lcn (before ++ p :: q :: after)) :
    f.Recorded sb image p ∧ f.Recorded sb image q ∧ f.Skips image (p.lcn + 1) q.lcn := by
  obtain ⟨hp, hrest⟩ := after_mem h
  obtain ⟨hskips, hq, -⟩ := cons hrest
  exact ⟨hp, hq, hskips⟩

end Walks

end CompressedFile

end Erofs
