import Erofs.Proofs.Machine.Superblock
/-!
# Packs in words

Reading the slots of a pack and looking along it, computed in words, with
the distances and the blocks counted upwards as the scans go. A pack has at
most sixteen slots, and what a slot holds has at most fourteen bits
(`Pack.Small`), so no count comes near the limit of a word, and where the
reader would cut a count down to what fits there is nothing to cut.

A scan backwards goes on below the first slot as if there were slots; it
ends there, and a place below zero is written as zero here.
-/

namespace Erofs

/-- A pack of the size that packs have. -/
structure Pack.Small (p : Pack) : Prop where
  one_lt : 1 < p.slots
  slots_le : p.slots ≤ 16
  addressSize_le : Pack.addressSize ≤ p.bytes.size
  size_le : p.bytes.size ≤ 32
  lowBits_le : p.lowBits ≤ 14

end Erofs

namespace Erofs.Machine

/-- The width of a slot. -/
def slotBits (p : Pack) : Option Nat := do
  let room ← sub p.bytes.size Pack.addressSize
  let bits ← mul 64 room 8
  div bits p.slots

/-- The block address at the end of the pack. -/
def base (p : Pack) : Option UInt32 := do
  let offset ← sub p.bytes.size Pack.addressSize
  field32 p.bytes offset

/-- Reads a slot from the four bytes that hold it. -/
def entry (p : Pack) (slot : Nat) : Computation PackEntry := do
  let width ← slotBits p
  let position ← mul 64 width slot
  let first := position / 8
  let stop ← add 64 first 4
  if p.bytes.size < stop then throw .entryOutsidePack
  else
    let word ← field32 p.bytes first
    let bits ← shiftRight 32 word.toNat (position % 8)
    let low ← lowest 32 bits p.lowBits
    let high ← shiftRight 32 bits p.lowBits
    return ⟨low, high % 4⟩

/-- The distance from a slot to the next head, with that `before` the
slot, in at most some turns. -/
def distanceAhead (p : Pack) : (turns slot before : Nat) → Computation Nat
  | 0, _, _ => liftM (none : Option Nat)
  | turns + 1, slot, before => do
    let e ← entry p slot
    if !e.isInner then return before
    else
      let before ← add 32 before 1
      let next ← add 64 slot 1
      if next < p.slots then distanceAhead p turns next before
      else
        match markedBlockCount? e.low with
        | some _ => return before
        | none => add 32 before (e.low - 1)

/-- The distance from the last slot back to its head. -/
def distanceBackFromLast (p : Pack) (slot : Nat) : Computation Nat := do
  let previous ← sub slot 1
  let before ← entry p previous
  if !before.isInner then add 32 0 1
  else
    match markedBlockCount? before.low with
    | some _ => add 32 1 1
    | none => add 32 before.low 1

/-- The number of pclusters that start in the slots before `slot`, with the
one that reaches into the pack, and `after` more. -/
def pclustersBefore (p : Pack) : (slot after : Nat) → Computation Nat
  | 0, after => return after
  | slot + 1, after => do
    let e ← entry p slot
    if !e.isInner then
      let after ← add 32 after 1
      pclustersBefore p slot after
    else if slot < e.low then return after
    else
      let after ← add 32 after 1
      pclustersBefore p (slot - e.low) after
termination_by slot => slot
decreasing_by all_goals omega

/-- The number of blocks of the pclusters that start in the slots before
`slot`, and `after` more. -/
def blocksBefore (p : Pack) (nid : Nat) : (slot after : Nat) → Computation Nat
  | 0, after => return after
  | slot + 1, after => do
    let e ← entry p slot
    if !e.isInner then
      let after ← add 32 after 1
      blocksBefore p nid slot after
    else
      match markedBlockCount? e.low with
      | some count =>
        let after ← add 32 after count
        blocksBefore p nid (slot - 1) after
      | none =>
        if e.low ≤ 1 then throw (.bogusPackDelta nid)
        else
          let skipped ← sub e.low 2
          blocksBefore p nid (slot - skipped) after
termination_by slot => slot
decreasing_by all_goals omega

/-- The number of blocks from the address of the pack to the pcluster that
starts in a slot. -/
def blocksFromBase (p : Pack) (f : CompressedFile) (slot : Nat) : Computation Nat :=
  if f.hasBigPcluster then blocksBefore p f.inode.nid slot 0
  else pclustersBefore p slot 1

/-- What the pack says of the lcluster of a slot. The block address wraps
around; distances and numbers of blocks have 16 bits. -/
def packLcluster (p : Pack) (f : CompressedFile) (slot : Nat) : Computation Lcluster := do
  let e ← entry p slot
  match ← ClusterType.ofCode e.typeCode with
  | .nonHead =>
    let ahead ← distanceAhead p p.slots slot 0
    let ahead ← fit 16 ahead
    match markedBlockCount? e.low with
    | some count =>
      let count ← fit 16 count
      return .inner 1 ahead count
    | none =>
      let next ← add 64 slot 1
      if next = p.slots then
        let back ← distanceBackFromLast p slot
        let back ← fit 16 back
        return .inner back ahead 0
      else
        let back ← fit 16 e.low
        return .inner back ahead 0
  | .plain =>
    let blocks ← blocksFromBase p f slot
    let first ← base p
    return .head .plain e.low (first + blocks.toUInt32)
  | .head =>
    let blocks ← blocksFromBase p f slot
    let first ← base p
    return .head .compressed e.low (first + blocks.toUInt32)

/-! ## Slots -/

variable {p : Pack} {slot turns before after nid : Nat}

/-- What a computation is made into can be put after each part of it. -/
theorem map_bind {α β γ : Type} (h : β → γ) (e : Except Error α) (g : α → Except Error β) :
    (e >>= g).map h = e >>= fun a => (g a).map h := by
  cases e <;> rfl

/-- A count that starts at zero is what the scan counts. -/
theorem map_zero_add (e : Except Error Nat) : e.map (0 + ·) = e := by
  cases e with
  | error cause => rfl
  | ok rest => exact congrArg Except.ok (Nat.zero_add rest)

/-- One that has gone up by a step is what the scan counts with the step. -/
theorem map_add_assoc (before step : Nat) (e : Except Error Nat) :
    e.map (before + step + ·) = Except.map (before + ·) (do let rest ← e; return step + rest) := by
  cases e with
  | error cause => rfl
  | ok rest => exact congrArg Except.ok (Nat.add_assoc before step rest)

section

variable (hp : p.Small)
include hp

theorem slotBits_eq : slotBits p = some p.slotBits := by
  have hone := hp.one_lt
  have haddress := hp.addressSize_le
  have hsize := hp.size_le
  rw [slotBits, sub_of_le haddress, some_bind, mul_of_lt (by omega), some_bind,
    div_of_pos (by omega)]
  rfl

theorem slotBits_le : p.slotBits ≤ 256 := by
  have hsize := hp.size_le
  exact Nat.le_trans (Nat.div_le_self ..) (by omega)

theorem base_eq : base p = some p.base := by
  have haddress := hp.addressSize_le
  simp only [Pack.addressSize] at haddress
  rw [base]
  simp only [Pack.addressSize]
  rw [sub_of_le haddress, some_bind, field32_of_le (by omega)]
  rfl

/-- **Reading a slot does not fault.** -/
theorem entry_eq (hslot : slot ≤ 16) : entry p slot = exact (p.entry slot) := by
  have hlow := hp.lowBits_le
  have hposition : p.slotBits * slot ≤ 256 * 16 := Nat.mul_le_mul (slotBits_le hp) hslot
  unfold entry Pack.entry
  rw [value_bind (slotBits_eq hp), value_bind (mul_of_lt (by omega))]
  simp only
  rw [value_bind (add_of_lt (by omega))]
  split
  · rfl
  · rw [value_bind (field32_of_le (by omega)), value_bind (shiftRight_of_lt (by omega)),
      value_bind (lowest_of_lt (by omega)), value_bind (shiftRight_of_lt (by omega))]
    have hword : (u32At p.bytes (p.slotBits * slot / 8)).toNat =
        littleEndian p.bytes (p.slotBits * slot / 8) 4 := by
      rw [u32At, Nat.toUInt32_eq, UInt32.toNat_ofNat', Nat.mod_eq_of_lt]
      exact littleEndian_lt p.bytes _ 4
    rw [hword]
    rfl

theorem low_lt {e : PackEntry} (he : p.entry slot = .ok e) : e.low < 2 ^ 14 :=
  Nat.lt_of_lt_of_le (Pack.low_lt he) (Nat.pow_le_pow_right (by decide) hp.lowBits_le)

/-! ## Looking along a pack -/

theorem distanceAhead_eq (hslot : slot < p.slots) (hturns : p.slots ≤ slot + turns)
    (hbefore : before ≤ slot) :
    distanceAhead p turns slot before = exact ((p.distanceAhead slot).map (before + ·)) := by
  have hslots := hp.slots_le
  induction turns generalizing slot before with
  | zero => omega
  | succ turns ih =>
    rw [distanceAhead, Pack.distanceAhead, map_bind]
    refine bind_eq_exact (entry_eq hp (by omega)) fun e he => ?_
    have hlow := low_lt hp he
    split
    · rfl
    · rw [value_bind (add_of_lt (by omega)), value_bind (add_of_lt (by omega))]
      split
      · next hnext =>
        rw [ih hnext (by omega) (by omega), map_add_assoc]
      · cases markedBlockCount? e.low with
        | some count => rfl
        | none =>
          simp only
          rw [add_of_lt (by omega), Nat.add_assoc]
          rfl

theorem distanceBackFromLast_eq (hpos : 0 < slot) (hslot : slot < p.slots) :
    distanceBackFromLast p slot = exact (p.distanceBackFromLast slot) := by
  have hslots := hp.slots_le
  unfold distanceBackFromLast Pack.distanceBackFromLast
  rw [value_bind (sub_of_le hpos)]
  refine bind_eq_exact (entry_eq hp (by omega)) fun e he => ?_
  have hlow := low_lt hp he
  split
  · rfl
  · cases markedBlockCount? e.low with
    | some count => rfl
    | none =>
      simp only
      rw [add_of_lt (by omega)]
      rfl

theorem distanceBackFromLast_lt {back : Nat} (h : p.distanceBackFromLast slot = .ok back) :
    back < 2 ^ 16 := by
  obtain ⟨e, he, h⟩ := bind_eq_ok.mp h
  have hlow := low_lt hp he
  split at h
  · cases h
    decide
  · cases hmark : markedBlockCount? e.low with
    | some count =>
      simp only [hmark] at h
      cases h
      decide
    | none =>
      simp only [hmark] at h
      cases h
      omega

theorem pclustersBefore_eq (hslot : slot ≤ 16) (hafter : after + slot < 2 ^ 32) :
    pclustersBefore p slot after = exact ((p.pclustersBefore slot).map (after + ·)) := by
  -- each turn goes down by a slot at least and counts one pcluster at most
  induction slot using Nat.strongRecOn generalizing after with
  | ind slot ih =>
    cases slot with
    | zero =>
      rw [pclustersBefore, Pack.pclustersBefore]
      rfl
    | succ slot =>
      have hnext : ∀ target ≤ slot,
          (do let after ← add 32 after 1; pclustersBefore p target after : Computation Nat) =
            exact (Except.map (after + ·)
              (do let rest ← p.pclustersBefore target; return 1 + rest)) := by
        intro target htarget
        rw [value_bind (add_of_lt (by omega)), ih target (by omega) (by omega) (by omega),
          map_add_assoc]
      rw [pclustersBefore, Pack.pclustersBefore, map_bind]
      refine bind_eq_exact (entry_eq hp (by omega)) fun e _ => ?_
      split
      · exact hnext slot (Nat.le_refl slot)
      · split
        · rfl
        · exact hnext (slot - e.low) (Nat.sub_le ..)

theorem blocksBefore_eq (hslot : slot ≤ 16) (hafter : after + slot * 2 ^ 14 < 2 ^ 32) :
    blocksBefore p nid slot after = exact ((p.blocksBefore nid slot).map (after + ·)) := by
  -- each turn goes down by a slot at least and counts no more blocks than one can tell
  induction slot using Nat.strongRecOn generalizing after with
  | ind slot ih =>
    cases slot with
    | zero =>
      rw [blocksBefore, Pack.blocksBefore]
      rfl
    | succ slot =>
      have hnext : ∀ target ≤ slot, ∀ count ≤ 2 ^ 14,
          (do let after ← add 32 after count; blocksBefore p nid target after : Computation Nat) =
            exact (Except.map (after + ·)
              (do let rest ← p.blocksBefore nid target; return count + rest)) := by
        intro target htarget count hcount
        rw [value_bind (add_of_lt (by omega)), ih target (by omega) (by omega) (by omega),
          map_add_assoc]
      rw [blocksBefore, Pack.blocksBefore, map_bind]
      refine bind_eq_exact (entry_eq hp (by omega)) fun e he => ?_
      have hlow := low_lt hp he
      split
      · exact hnext slot (Nat.le_refl slot) 1 (by decide)
      · cases hmark : markedBlockCount? e.low with
        | some count =>
          have hcount := le_of_markedBlockCount? hmark
          exact hnext (slot - 1) (Nat.sub_le ..) count (by omega)
        | none =>
          simp only
          split
          · rfl
          · have htarget : slot - (e.low - 2) ≤ slot := Nat.sub_le ..
            rw [value_bind (sub_of_le (by omega))]
            exact ih _ (Nat.lt_succ_of_le htarget) (Nat.le_trans htarget (by omega))
              (Nat.lt_of_le_of_lt (Nat.add_le_add_left (Nat.mul_le_mul_right _
                (Nat.le_succ_of_le htarget)) after) hafter)

theorem blocksFromBase_eq (f : CompressedFile) (hslot : slot < p.slots) :
    blocksFromBase p f slot = exact (p.blocksFromBase f slot) := by
  have hslots := hp.slots_le
  unfold blocksFromBase Pack.blocksFromBase
  split
  · rw [blocksBefore_eq hp (by omega) (by omega), map_zero_add]
  · exact pclustersBefore_eq hp (by omega) (by omega)

/-- The head of a pcluster, with its block address. -/
theorem head_eq (f : CompressedFile) (hslot : slot < p.slots) (storage : Storage) (low : Nat) :
    (do
      let blocks ← blocksFromBase p f slot
      let first ← base p
      return .head storage low (first + blocks.toUInt32) : Computation Lcluster) =
    exact (do
      let blocks ← p.blocksFromBase f slot
      return .head storage low (p.base + blocks.toUInt32)) := by
  refine bind_eq_exact (blocksFromBase_eq hp f hslot) fun blocks _ => ?_
  rw [value_bind (base_eq hp)]
  rfl

/-- **Reading an lcluster from a pack does not fault.** -/
theorem packLcluster_eq (f : CompressedFile) (hslot : slot < p.slots) :
    packLcluster p f slot = exact (p.lcluster f slot) := by
  have hslots := hp.slots_le
  have hone := hp.one_lt
  unfold packLcluster Pack.lcluster
  refine bind_eq_exact (entry_eq hp (by omega)) fun e he => ?_
  have hlow := low_lt hp he
  refine bind_eq_exact (liftM_except _) fun type _ => ?_
  cases type with
  | plain => exact head_eq hp f hslot .plain e.low
  | head => exact head_eq hp f hslot .compressed e.low
  | nonHead =>
    have hahead : distanceAhead p p.slots slot 0 = exact (p.distanceAhead slot) := by
      rw [distanceAhead_eq hp hslot (by omega) (Nat.zero_le slot), map_zero_add]
    refine bind_eq_exact hahead fun ahead hahead => ?_
    have hle := Pack.distanceAhead_le hahead hslot
    have hpow : 2 ^ p.lowBits ≤ 2 ^ 14 := Nat.pow_le_pow_right (by decide) hp.lowBits_le
    rw [value_bind (fit_of_lt (by omega))]
    cases hmark : markedBlockCount? e.low with
    | some count =>
      have hcount := le_of_markedBlockCount? hmark
      simp only
      rw [value_bind (fit_of_lt (by omega))]
      rfl
    | none =>
      simp only
      rw [value_bind (add_of_lt (by omega))]
      split
      · refine bind_eq_exact (distanceBackFromLast_eq hp (by omega) hslot) fun back hback => ?_
        rw [value_bind (fit_of_lt (distanceBackFromLast_lt hp hback))]
        rfl
      · rw [value_bind (fit_of_lt (by omega))]
        rfl

end

end Erofs.Machine
