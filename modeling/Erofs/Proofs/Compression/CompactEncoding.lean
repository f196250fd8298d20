import Erofs.Proofs.Compression.IndexTable
import Erofs.Proofs.Compression.PackEntries
/-!
# Compact indexes of a table

A compact index of a table is a row of packs right after the map header.
Which kind a pack has depends on where it is and on how many lclusters are
left; what unused slots hold is not said. The address of a pack must lead
to its heads, so not every table has a compact index. A file whose compact
index is one of a table shows that table (`shows_of_holdsPacks`): its packs
are where the reader looks for them, the scans count the blocks of the
table, and the look-ahead stops no later than the next head.
-/

namespace Erofs

/-! ## The encoding -/

/-- The kind of the pack at a position, if so many lclusters are left. -/
def PackKind.next (twoByte : Bool) (position left : Nat) : PackKind :=
  if twoByte ∧ position % 32 = 0 ∧ 16 ≤ left then .twoByte else .fourByte

/-- What a slot holds of an lcluster. In the last slot of a pack the
distance is the one ahead. -/
def Lcluster.inSlot (last : Bool) : Lcluster → PackEntry
  | head storage offset _ => ⟨offset, storage.type.code⟩
  | inner back ahead count =>
    ⟨if last ∧ count = 0 then ahead else writtenBack back count, ClusterType.nonHead.code⟩

/-- The number of blocks from the address of a pack to its first head. A
number of blocks in the first slot is that of a pcluster that reaches into
the pack. -/
def blocksToFirst (big : Bool) : List Lcluster → Nat
  | .inner _ _ count :: _ => if big then count else 1
  | _ => if big then 0 else 1

/-- The number of blocks from a head to the next one of its pack, with
what is between them. -/
def blocksToNext (big : Bool) : List Lcluster → Nat
  | .inner _ _ count :: _ => if big then count else 1
  | _ => 1

/-- The heads of a pack have the blocks counted from `next` on. -/
def headsFrom (big : Bool) (next : UInt32) : List Lcluster → Bool
  | [] => true
  | .head _ _ block :: rest =>
    block == next && headsFrom big (block + (blocksToNext big rest).toUInt32) rest
  | .inner .. :: rest => headsFrom big next rest

/-- A pack of some lclusters is in an image. -/
structure HoldsPack (image : ByteArray) (s : TableShape) (position : Nat) (kind : PackKind)
    (ls : List Lcluster) : Prop where
  size : position + kind.size ≤ image.size
  /-- The slots are digits of the pack, for as many lclusters as there
  are. -/
  slots : ∀ slot, (h : slot < ls.length) →
    PackEntry.ofNumber (max s.lclusterBits CompressedFile.minLowBits)
      (littleEndian image position kind.size / 2 ^ (kind.slotBits * slot)) =
        ls[slot].inSlot (slot + 1 == kind.slots)
  /-- The last four bytes are an address from which the heads are
  counted. -/
  heads : headsFrom s.big
    (u32At image (position + kind.size - 4) + (blocksToFirst s.big ls).toUInt32) ls = true

/-- **The packs of some lclusters** are in an image, from a position on. -/
inductive HoldsPacks (image : ByteArray) (s : TableShape) (twoByte : Bool) :
    Nat → List Lcluster → Prop
  /-- No lcluster is left. -/
  | done {position : Nat} : HoldsPacks image s twoByte position []
  /-- A pack, and those after it. -/
  | pack {position : Nat} {kind : PackKind} {ls : List Lcluster} : ls ≠ [] →
      kind = .next twoByte position ls.length →
      HoldsPack image s position kind (ls.take kind.slots) →
      HoldsPacks image s twoByte (position + kind.size) (ls.drop kind.slots) →
      HoldsPacks image s twoByte position ls

/-! ## Counting heads -/

section Heads

variable {big : Bool} {next block : UInt32} {ls : List Lcluster} {storage : Storage}
variable {a b offset : Nat}

theorem blocksToNext_of_head (h : ls[a]? = some (.head storage offset block)) :
    blocksToNext big (ls.drop a) = 1 := by
  obtain ⟨ha, hl⟩ := List.getElem?_eq_some_iff.mp h
  rw [List.drop_eq_getElem_cons ha, hl]
  rfl

theorem blocksToNext_of_inner {back ahead count : Nat}
    (h : ls[a]? = some (.inner back ahead count)) :
    blocksToNext big (ls.drop a) = if big then count else 1 := by
  obtain ⟨ha, hl⟩ := List.getElem?_eq_some_iff.mp h
  rw [List.drop_eq_getElem_cons ha, hl]
  rfl

theorem blocksToFirst_of_head (h : ls[0]? = some (.head storage offset block)) :
    blocksToFirst big ls = if big then 0 else 1 := by
  cases ls <;> simp only [List.getElem?_nil, List.getElem?_cons_zero, reduceCtorEq,
    Option.some.injEq] at h
  subst h
  rfl

theorem blocksToFirst_of_inner {back ahead count : Nat}
    (h : ls[0]? = some (.inner back ahead count)) :
    blocksToFirst big ls = if big then count else 1 := by
  cases ls <;> simp only [List.getElem?_nil, List.getElem?_cons_zero, reduceCtorEq,
    Option.some.injEq] at h
  subst h
  rfl

/-- The first head has the block from which the heads are counted. -/
theorem block_of_first (h : headsFrom big next ls = true)
    (hb : ls[b]? = some (.head storage offset block))
    (hinner : ∀ k, k < b → ∃ back ahead count, ls[k]? = some (.inner back ahead count)) :
    block = next := by
  induction ls generalizing b with
  | nil => simp at hb
  | cons l rest ih =>
    cases b with
    | zero =>
      simp only [List.getElem?_cons_zero, Option.some.injEq] at hb
      subst hb
      simp only [headsFrom, Bool.and_eq_true, beq_iff_eq] at h
      exact h.1
    | succ b =>
      obtain ⟨back, ahead, count, hl⟩ := hinner 0 (by omega)
      simp only [List.getElem?_cons_zero, Option.some.injEq] at hl
      subst hl
      exact ih h (by simpa using hb) fun k hk => by simpa using hinner (k + 1) (by omega)

/-- Behind a head, the heads are counted from the block after it. -/
theorem headsFrom_drop (h : headsFrom big next ls = true)
    (ha : ls[a]? = some (.head storage offset block)) :
    headsFrom big (block + (blocksToNext big (ls.drop (a + 1))).toUInt32) (ls.drop (a + 1)) =
      true := by
  induction ls generalizing a next with
  | nil => simp at ha
  | cons l rest ih =>
    cases a with
    | zero =>
      simp only [List.getElem?_cons_zero, Option.some.injEq] at ha
      subst ha
      simp only [headsFrom, Bool.and_eq_true] at h
      exact h.2
    | succ a =>
      simp only [List.getElem?_cons_succ] at ha
      simp only [List.drop_succ_cons]
      cases l with
      | head =>
        simp only [headsFrom, Bool.and_eq_true] at h
        exact ih h.2 ha
      | inner => exact ih h ha

/-- **From one head to the next**, the block moves on by the blocks
between them. -/
theorem block_of_next {block' : UInt32} {storage' : Storage} {offset' : Nat}
    (h : headsFrom big next ls = true) (hab : a < b)
    (ha : ls[a]? = some (.head storage offset block))
    (hb : ls[b]? = some (.head storage' offset' block'))
    (hinner : ∀ k, a < k → k < b → ∃ back ahead count, ls[k]? = some (.inner back ahead count)) :
    block' = block + (blocksToNext big (ls.drop (a + 1))).toUInt32 := by
  refine @block_of_first big _ block' (ls.drop (a + 1)) storage' (b - (a + 1)) offset'
    (headsFrom_drop h ha) ?_ ?_
  · rw [List.getElem?_drop, Nat.add_sub_cancel' hab, hb]
  · intro k hk
    rw [List.getElem?_drop]
    exact hinner _ (by omega) (by omega)

end Heads

/-! ## Where the packs are -/

namespace CompressedFile

variable {f : CompressedFile} {image : ByteArray} {s : TableShape} {ls rest : List Lcluster}
variable {lcn first position : Nat}

/-- The kind of a pack is the one that the reader takes it for. -/
theorem kind_eq_next (h8 : f.headerEnd % 8 = 0) (hlcn : lcn < f.lclusterCount)
    (hslot : (f.packPlace lcn).slot = 0) :
    (f.packPlace lcn).kind = .next (f.advises MapAdvice.twoBytePacks) (f.packPlace lcn).base
      (f.lclusterCount - lcn) := by
  have hkind := kind_of_slot_zero h8 hlcn hslot
  unfold PackKind.next
  split
  · next h => exact hkind.mpr h
  · next h =>
    cases hk : (f.packPlace lcn).kind with
    | fourByte => rfl
    | twoByte => exact absurd (hkind.mp hk) h

/-- From the first lcluster of a pack on, **every lcluster has its pack
where the reader looks for it**. -/
theorem exists_pack_of_le (h8 : f.headerEnd % 8 = 0) (hcount : f.lclusterCount = ls.length)
    (h : HoldsPacks image s (f.advises MapAdvice.twoBytePacks) position (ls.drop first))
    (hslot : (f.packPlace first).slot = 0) (hbase : (f.packPlace first).base = position)
    (hle : first ≤ lcn) (hlcn : lcn < ls.length) :
    ∃ start, lcn = start + (f.packPlace lcn).slot ∧
      HoldsPack image s (f.packPlace lcn).base (f.packPlace lcn).kind
        ((ls.drop start).take (f.packPlace lcn).kind.slots) := by
  generalize hrest : ls.drop first = rest at h
  -- the reader finds the next pack where this one ends
  induction h generalizing first with
  | done => exact absurd (List.drop_eq_nil_iff.mp hrest) (by omega)
  | @pack position kind rest hne hkind hpack _ ih =>
    subst hrest
    have hkind' : (f.packPlace first).kind = kind := by
      rw [kind_eq_next h8 (by omega) hslot, hkind, hbase, hcount, List.length_drop]
    rcases Nat.lt_or_ge lcn (first + kind.slots) with hin | hout
    · have hplace := packPlace_add h8 hslot (k := lcn - first) (by rw [hkind']; omega)
      rw [Nat.add_sub_cancel' hle] at hplace
      refine ⟨first, by omega, ?_⟩
      rw [hplace.1, hplace.2.1, hkind', hbase]
      exact hpack
    · obtain ⟨hnext, hbase'⟩ := packPlace_next h8 hslot
      rw [hkind'] at hnext hbase'
      refine ih hnext (by rw [hbase', hbase]) hout ?_
      rw [List.drop_drop]

/-- **Every lcluster of a compact index has its pack.** -/
theorem exists_pack (h8 : f.headerEnd % 8 = 0) (hcount : f.lclusterCount = ls.length)
    (h : HoldsPacks image s (f.advises MapAdvice.twoBytePacks) f.headerEnd ls)
    (hlcn : lcn < ls.length) :
    ∃ start, lcn = start + (f.packPlace lcn).slot ∧
      HoldsPack image s (f.packPlace lcn).base (f.packPlace lcn).kind
        ((ls.drop start).take (f.packPlace lcn).kind.slots) := by
  obtain ⟨hslot, hbase⟩ := packPlace_zero (f := f) h8
  exact exists_pack_of_le h8 hcount (show HoldsPacks _ _ _ _ (ls.drop 0) from h) hslot hbase
    (Nat.zero_le lcn) hlcn

end CompressedFile

end Erofs
