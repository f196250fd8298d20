import Erofs.Proofs.Compression.BackToBack
import Erofs.Proofs.Compression.NotedScans
/-!
# Packs that hold anything

The slots of a pack may be wrong: a distance may lead to no head, or out of
the pack. Every slot can be read all the same, so the scans of a pack end in
it (`Pack.safeAt_of_holds`) and reading a compact index fails for five
reasons only (`Resolved.failsFor_loadLcluster`). The look-ahead passes no
head of its pack, so a walk stops at all those that are ahead of it
(`Walks.stops`).
-/

namespace Erofs

/-- The reasons for which reading a compact index fails. -/
def Error.isOfPacks : Error → Bool
  | rangeOverflow | rangePastEnd | lclusterPastEndOfFile | reservedLclusterType
  | bogusPackDelta _ => true
  | _ => false

/-- Nothing else goes wrong with a compact index. -/
abbrev FailsOfPacks {α : Type} (e : Except Error α) : Prop := FailsFor (·.isOfPacks = true) e

namespace Pack

/-- Reading the lcluster of a slot of a pack is safe. -/
structure SafeAt (p : Pack) (f : CompressedFile) (slot : Nat) : Prop where
  readable : ∀ k < p.slots, ∃ entry, p.entry k = .ok entry
  /-- The scan where pclusters have one size goes backwards and has a
  result. -/
  pclusters_descend : pclusterScan.Descends p slot fun q => q.pclustersBefore slot
  pclusters_end : ∃ n, p.pclustersBefore slot = .ok n
  /-- The other one goes backwards too. It has a result, or comes to a
  distance that leads to no number of blocks. -/
  blocks_descend :
    (blockScan f.inode.nid).Descends p slot fun q => q.blocksBefore f.inode.nid slot
  blocks_end : (∃ n, p.blocksBefore f.inode.nid slot = .ok n) ∨
    p.blocksBefore f.inode.nid slot = .error (.bogusPackDelta f.inode.nid)
  /-- The look-ahead goes from the slot to the end of the pack at most, and
  looks at no other slot. -/
  ahead_answer : (lookAhead p.note p.slots slot).answer = p.distanceAhead slot
  ahead_within : ∃ n, slot + n ≤ p.slots ∧
    (lookAhead p.note p.slots slot).slots = List.range' slot n
  ahead_decides : ∀ q : Pack, q.slots = p.slots →
    (∀ k ∈ (lookAhead p.note p.slots slot).slots, q.entry k = p.entry k) →
    q.distanceAhead slot = p.distanceAhead slot
  /-- No slot outside the pack is asked for. -/
  inside : p.lcluster f slot ≠ .error .entryOutsidePack
  /-- An lcluster inside a pcluster is read, and what it says of the next head
  passes no slot of the pack but of such lclusters. -/
  inner : ∀ entry, p.entry slot = .ok entry → entry.isInner = true →
    ∃ back ahead count, p.lcluster f slot = .ok (.inner back ahead count) ∧ 1 ≤ ahead ∧
      ∀ k, slot ≤ k → k < min (slot + ahead) p.slots →
        ∃ passed, p.entry k = .ok passed ∧ passed.isInner = true

variable {p : Pack} {f : CompressedFile} {e : Nat → PackEntry} {slot : Nat}

/-- The scan where pclusters have one size has a result. -/
theorem exists_pclustersBefore (hp : p.Holds e) (hs : slot ≤ p.slots) :
    ∃ n, p.pclustersBefore slot = .ok n := by
  have hfails : FailsFor (fun _ => False) (pclusterScan.run p.entry slot) :=
    BackwardScan.failsFor_run hp (fun slot entry cause h => by cases h) (by omega)
  rw [run_pclusterScan, Int.toNat_natCast] at hfails
  cases h : p.pclustersBefore slot with
  | error cause => exact (hfails cause h).elim
  | ok n => exact ⟨n, rfl⟩

/-- The other one fails for one reason. -/
theorem failsFor_blocksBefore_of_holds (nid : Nat) (hp : p.Holds e) (hs : slot ≤ p.slots) :
    FailsFor (· = .bogusPackDelta nid) (p.blocksBefore nid slot) := by
  have hfails : FailsFor (· = .bogusPackDelta nid) ((blockScan nid).run p.entry slot) := by
    refine BackwardScan.failsFor_run hp ?_ (by omega)
    intro slot entry cause h
    exact eq_of_turn_blockScan h
  rwa [run_blockScan, Int.toNat_natCast] at hfails

/-- The look-ahead from an lcluster inside a pcluster gets at least to the
next slot. -/
theorem exists_distanceAhead (hp : p.Holds e) (hs : slot < p.slots)
    (hi : (e slot).isInner = true) : ∃ n, p.distanceAhead slot = .ok n ∧ 1 ≤ n := by
  rcases exists_head_or_inner e slot p.slots with ⟨b, hb, hbs, hhead, hinner⟩ | hinner
  · refine ⟨b - slot, distanceAhead_of_head hp hbs hhead hb hinner, ?_⟩
    -- the next head is another slot
    have hne : slot ≠ b := by
      rintro rfl
      rw [hi] at hhead
      cases hhead
    omega
  · exact ⟨_, distanceAhead_of_inner hp hs hinner, by omega⟩

/-- The distance back is always found. -/
theorem exists_backAndCount (hp : p.Holds e) (hs : slot < p.slots) :
    ∃ back, p.backAndCount slot (e slot) = .ok back := by
  unfold backAndCount
  cases markedBlockCount? (e slot).low with
  | some count => exact ⟨_, rfl⟩
  | none =>
    simp only
    split
    · -- the last slot gets it from the one before
      unfold distanceBackFromLast
      rw [hp (slot - 1) (Nat.lt_of_le_of_lt (Nat.sub_le ..) hs)]
      simp only [bind, Except.bind]
      split
      · exact ⟨_, rfl⟩
      · cases markedBlockCount? (e (slot - 1)).low <;> exact ⟨_, rfl⟩
    · exact ⟨_, rfl⟩

/-- **An lcluster inside a pcluster can always be read.** -/
theorem exists_lcluster_of_inner (f : CompressedFile) (hp : p.Holds e) (hs : slot < p.slots)
    (hi : (e slot).isInner = true) :
    ∃ back ahead count, p.lcluster f slot = .ok (.inner back ahead count) ∧
      p.distanceAhead slot = .ok ahead ∧ 1 ≤ ahead := by
  obtain ⟨ahead, hahead, hpos⟩ := exists_distanceAhead hp hs hi
  obtain ⟨back, hback⟩ := exists_backAndCount hp hs
  refine ⟨back.1, ahead, back.2, ?_, hahead, hpos⟩
  rw [lcluster_of_inner hp hs hi, hahead, hback]
  rfl

/-- **Reading an lcluster of a pack whose slots can be read** fails for a
reserved type, and for a distance that leads to no number of blocks. -/
theorem failsFor_lcluster_of_holds (f : CompressedFile) (hp : p.Holds e) (hs : slot < p.slots) :
    FailsOfPacks (p.lcluster f slot) := by
  have hhead : ∀ storage : Storage, (e slot).typeCode = storage.type.code →
      FailsOfPacks (p.lcluster f slot) := by
    intro storage ht
    rw [lcluster_of_head hp hs ht]
    refine FailsFor.map ?_ _
    unfold blocksFromBase
    split
    · refine (failsFor_blocksBefore_of_holds f.inode.nid hp (Nat.le_of_lt hs)).mono ?_
      rintro cause rfl
      rfl
    · obtain ⟨n, hn⟩ := exists_pclustersBefore hp (Nat.le_of_lt hs)
      rw [hn]
      exact .ok _
  match ht : (e slot).typeCode with
  | 0 => exact hhead .plain ht
  | 1 => exact hhead .compressed ht
  | 2 =>
    have hi : (e slot).isInner = true := by simp [PackEntry.isInner, ht, ClusterType.code]
    obtain ⟨back, ahead, count, hl, -⟩ := exists_lcluster_of_inner f hp hs hi
    rw [hl]
    exact .ok _
  | code + 3 =>
    rw [lcluster, hp slot hs]
    simp only [bind, Except.bind, ht, ClusterType.ofCode]
    exact .error rfl

/-- **Reading is safe in every pack whose slots can be read**, whatever they
hold. -/
theorem safeAt_of_holds (f : CompressedFile) (hp : p.Holds e) (hs : slot < p.slots) :
    p.SafeAt f slot where
  readable k hk := ⟨e k, hp k hk⟩
  pclusters_descend := by
    have h := pclusterScan.descends p slot
    simpa only [run_pclusterScan, Int.toNat_natCast] using h
  pclusters_end := exists_pclustersBefore hp (Nat.le_of_lt hs)
  blocks_descend := by
    have h := (blockScan f.inode.nid).descends p slot
    simpa only [run_blockScan, Int.toNat_natCast] using h
  blocks_end := by
    have hfails := failsFor_blocksBefore_of_holds f.inode.nid hp (Nat.le_of_lt hs)
    cases h : p.blocksBefore f.inode.nid slot with
    | ok n => exact .inl ⟨n, rfl⟩
    | error cause => exact .inr (congrArg Except.error (hfails cause h))
  ahead_answer := (answer_lookAhead p p.slots slot).trans (lookAhead_entry p slot)
  ahead_within := slots_lookAhead p hs
  ahead_decides q hslots hsame := by
    rw [← lookAhead_entry, ← lookAhead_entry, hslots]
    exact lookAhead_congr hsame
  inside h := by cases failsFor_lcluster_of_holds f hp hs _ h
  inner entry hentry hi := by
    rw [hp slot hs, Except.ok.injEq] at hentry
    subst hentry
    obtain ⟨back, ahead, count, hl, hahead, hpos⟩ := exists_lcluster_of_inner f hp hs hi
    refine ⟨back, ahead, count, hl, hpos, ?_⟩
    intro k hk hka
    exact ⟨e k, hp k (by omega), inner_of_distanceAhead hp hahead hk (by omega) (by omega)⟩

end Pack

namespace CompressedFile

variable {image : ByteArray} {sb : Superblock} {i : Inode} {f : CompressedFile}
variable {lcn k : Nat}

/-! ## Reading a compact index -/

/-- An lcluster of a resolved file is read from its slot in the bytes of its
pack. -/
theorem Resolved.loadCompact_eq (r : Resolved sb f) (hc : f.format = .compact) (lcn : Nat) :
    f.loadCompact lcn = (do
      let bytes ← Query.bytes (f.packPlace lcn).base (f.packPlace lcn).kind.size
      (f.packOf (f.packPlace lcn).kind bytes).lcluster f (f.packPlace lcn).slot) :=
  if_neg (Nat.not_lt.mpr (r.lclusterBits_le_maxLclusterBits hc lcn))

/-- **Why reading a compact index fails**, whatever the image is. -/
theorem Resolved.failsFor_loadLcluster (r : Resolved sb f) (hc : f.format = .compact)
    (image : ByteArray) (lcn : Nat) : FailsOfPacks ((f.loadLcluster lcn).onImage image) := by
  unfold loadLcluster
  split
  · exact .onImage_fail rfl
  · simp only [hc, r.loadCompact_eq hc lcn]
    refine FailsFor.onImage_bind (FailsFor.onImage_bind ?_ fun bytes hbytes => ?_) fun l _ =>
      .onImage_report_bind (FailsFor.ok l)
    · rw [Query.onImage_bytes]
      exact .imageRange rfl rfl
    · rw [Query.onImage_bytes] at hbytes
      have hholds := holds_packOf (size_of_imageRange hbytes) (r.lclusterBits_le hc)
      exact .onImage_liftM (Pack.failsFor_lcluster_of_holds f hholds (slot_lt r.headerEnd_mod lcn))

/-- **A walk stops at every head of the pack that it is in.** -/
theorem Walks.stops {ps : List Pcluster} (r : Resolved sb f) (hc : f.format = .compact)
    (h : f.Walks sb image lcn ps) (hk : lcn ≤ k) (hlt : k < f.lclusterCount)
    (hpack : (f.packPlace lcn).SamePack (f.packPlace k)) :
    f.StoresInner image k ∨ ∃ p ∈ ps, p.lcn = k := by
  -- where the walk goes on in the pack, it is still in that of `k`
  have hnext : ∀ {lcn next : Nat}, (f.packPlace lcn).SamePack (f.packPlace k) → lcn ≤ next →
      next ≤ k → (f.packPlace next).SamePack (f.packPlace k) := by
    intro lcn next hpack hle hnk
    obtain ⟨hsame, -⟩ := samePack_of_between r.headerEnd_mod hpack hle hnk
    exact ⟨hsame.1.trans hpack.1, hsame.2.trans hpack.2⟩
  induction h with
  | done hge => omega
  | @head p rest hp _ ih =>
    rcases Nat.eq_or_lt_of_le hk with rfl | hgt
    · exact .inr ⟨p, List.mem_cons_self, rfl⟩
    · rcases ih hgt (hnext hpack (Nat.le_succ _) hgt) with hinner | ⟨q, hq, hqk⟩
      · exact .inl hinner
      · exact .inr ⟨q, List.mem_cons_of_mem p hq, hqk⟩
  | @inner lcn back ahead count rest _ hload _ ih =>
    rcases Nat.lt_or_ge k (lcn + max ahead 1) with hnear | hfar
    · exact .inl (storesInner_of_jump r hc hload hpack hk hnear)
    · exact ih hfar (hnext hpack (Nat.le_add_right ..) hfar)

/-- Reading a compact index is safe, whatever its packs hold. -/
structure ScansSafely (f : CompressedFile) (sb : Superblock) : Prop where
  /-- Every slot of every pack can be read. -/
  pack {kind : PackKind} {bytes : ByteArray} {slot : Nat} : bytes.size = kind.size →
    slot < kind.slots → (f.packOf kind bytes).SafeAt f slot
  /-- No slot outside a pack is asked for. -/
  inside (image : ByteArray) (lcn : Nat) :
    (f.loadLcluster lcn).onImage image ≠ .error .entryOutsidePack
  /-- Where the index says that the next head is, it says so of a later
  lcluster, and passes none of the pack but those inside a pcluster. -/
  jump {image : ByteArray} {lcn back ahead count : Nat} :
    (f.loadLcluster lcn).onImage image = .ok (.inner back ahead count) →
    1 ≤ ahead ∧ ∀ k, lcn ≤ k → k < lcn + ahead →
      (f.packPlace lcn).SamePack (f.packPlace k) → f.StoresInner image k
  /-- So a walk that gets into a pack adds every head of it that is still
  ahead. -/
  walk {image : ByteArray} {lcn : Nat} {before : Collected} {map : ExtentMap} :
    (f.walkFrom sb lcn before).onImage image = .ok map →
    ∃ new, map.pclusters = before.pclusters.reverse ++ new ∧
      ∀ k, lcn ≤ k → k < f.lclusterCount → (f.packPlace lcn).SamePack (f.packPlace k) →
        f.StoresInner image k ∨ ∃ p ∈ new, p.lcn = k

/-- **Scans of a compact index are safe**: they stay in their pack, and no
walk jumps over a head of it. -/
theorem compact_scans_safe (h : (resolve sb i).onImage image = .ok f) (hc : f.format = .compact) :
    f.ScansSafely sb := by
  have r := resolved_of_resolve h
  refine ⟨?_, ?_, ?_, ?_⟩
  · intro kind bytes slot hsize hslot
    exact Pack.safeAt_of_holds f (holds_packOf hsize (r.lclusterBits_le hc)) hslot
  · intro image lcn hfails
    cases r.failsFor_loadLcluster hc image lcn _ hfails
  · intro image lcn back ahead count hload
    obtain ⟨⟨e, he⟩, hl⟩ := compact_load_eq_ok r hc hload
    have hslot := slot_lt r.headerEnd_mod lcn
    obtain ⟨hinner, hahead, -⟩ := Pack.inner_of_lcluster he hslot hl
    obtain ⟨n, hn, hpos⟩ := Pack.exists_distanceAhead he hslot hinner
    rw [hahead, Except.ok.injEq] at hn
    subst hn
    refine ⟨hpos, ?_⟩
    intro k hk hka hpack
    exact storesInner_of_jump r hc hload hpack hk (by omega)
  · intro image lcn before map hwalk
    obtain ⟨-, new, hps, hnew⟩ := walks_of_walkFrom hwalk
    exact ⟨new, hps, fun k hk hlt hpack => hnew.stops r hc hk hlt hpack⟩

/-- A pack of sixteen slots behind three small ones. Some of its distances
lead to no head, or out of the pack, and one slot has a reserved type. -/
def tornPack : List UInt8 :=
  [0x00, 0x50, 0x00, 0x88, 0x0c, 0x36, 0x41, 0x00, 0x60, 0x01, 0x3c, 0x80, 0x0a, 0x80, 0x03, 0x20,
    0x01, 0x58, 0x00, 0x1a, 0x80, 0x07, 0x20, 0x02, 0x98, 0x00, 0x92, 0x41, 0xf4, 0x01, 0x00, 0x00]

/-- The map header, the small packs and the torn one. -/
def tornImage : ByteArray := indexImage 1 0 (List.replicate 24 0 ++ tornPack)

/-- The inode of 22 lclusters. -/
def tornInode : Inode := .bare .compressedCompact 90112

/-- The superblock of the image. -/
def tornSuperblock : Superblock := .bare 12 0

/-- The file that it resolves to. -/
def tornFile : CompressedFile := indexFile .compact tornSuperblock tornInode 1 0

theorem compact_scans_safe_torn :
    (resolve tornSuperblock tornInode).onImage tornImage = .ok tornFile ∧
      tornFile.format = .compact ∧ tornFile.ScansSafely tornSuperblock ∧
      tornFile.packPlace 21 = ⟨.twoByte, 94⟩ ∧
      (pclusterScan.run (tornFile.packAt tornImage ⟨.twoByte, 94⟩).note 15).slots = [14, 4, 3, 2] ∧
      (lookAhead (tornFile.packAt tornImage ⟨.twoByte, 94⟩).note 16 6).slots =
        [6, 7, 8, 9, 10, 11, 12, 13, 14, 15] := by
  have hresolve : (resolve tornSuperblock tornInode).onImage tornImage = .ok tornFile := by
    decide +kernel
  exact ⟨hresolve, rfl, compact_scans_safe hresolve rfl, by decide +kernel, by decide +kernel,
    by decide +kernel⟩

end CompressedFile

end Erofs
