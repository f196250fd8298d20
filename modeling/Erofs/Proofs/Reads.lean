import Erofs.Proofs.Requests
import Erofs.Proofs.Bytes
import Erofs.Proofs.Compression.PackPlace
import Erofs.Proofs.Compression.Resolved
import Erofs.Proofs.Compression.Walk
/-!
# How much is read at once

What a session reads depends on what it has read before. `Reads P image s`
says that on an image every read of it is of a kind and of a length that
`P` allows. It is put together along the session (`reads_bind`). All reads
through the cache are short: none is longer than a block of the image
(`reads_query`). Past the cache only the last pcluster of a file is read,
whose number of blocks is bounded by what an index can say
(`blocks_lt_of_recorded`).
-/

namespace Erofs

variable {α β : Type} {P : Route → Nat → Prop} {image : ByteArray}

/-! ## Sessions -/

namespace Session

/-- What a session answers on an image. -/
def answer (image : ByteArray) (s : Session α) : α := (s.onImage image #[]).1

/-- The journal does not matter to the answer. -/
theorem onImage_fst (s : Session α) (journal : Journal) :
    (s.onImage image journal).1 = s.answer image := by
  suffices h : ∀ j₁ j₂, (s.onImage image j₁).1 = (s.onImage image j₂).1 from h _ _
  induction s with
  | done => intros; rfl
  | note remark rest ih => exact fun j₁ j₂ => ih _ _
  | read route offset length rest ih => exact fun j₁ j₂ => ih _ _ _

/-- The second of two sessions is told what the first answers. -/
theorem answer_bind (s : Session α) (next : α → Session β) :
    (s >>= next).answer image = (next (s.answer image)).answer image := by
  change ((s.bind next).onImage image #[]).1 = _
  rw [onImage_bind, onImage_fst]
  rfl

@[simp] theorem answer_pure (a : α) : (pure a : Session α).answer image = a := rfl

@[simp] theorem answer_attempt (q : Query α) : q.attempt.answer image = q.onImage image := rfl

/-- Every read on the image is one that `P` allows. -/
def Reads (P : Route → Nat → Prop) (image : ByteArray) : Session α → Prop
  | done _ => True
  | note _ rest => rest.Reads P image
  | read route offset length rest =>
    P route length ∧ (rest (imageRange image offset length)).Reads P image

theorem reads_bind {s : Session α} {next : α → Session β} (hs : s.Reads P image)
    (hnext : (next (s.answer image)).Reads P image) : (s >>= next).Reads P image := by
  change (s.bind next).Reads P image
  induction s with
  | done => exact hnext
  | note remark rest ih =>
    refine ih hs ?_
    rwa [answer, onImage, onImage_fst] at hnext
  | read route offset length rest ih => exact ⟨hs.1, ih _ hs.2 hnext⟩

theorem reads_pure (a : α) : (pure a : Session α).Reads P image := trivial

theorem reads_report (remark : Remark) : (report remark).Reads P image := trivial

theorem reads_reportFailure (cause : Error) : (reportFailure cause).Reads P image := by
  unfold reportFailure
  cases cause.remark? <;> trivial

end Session

/-! ## Queries -/

namespace Query

/-- Every read on the image is one that `P` allows. -/
def Reads (P : Route → Nat → Prop) (image : ByteArray) : Query α → Prop
  | done _ | fail _ => True
  | note _ rest => rest.Reads P image
  | read route offset length rest =>
    P route length ∧
      ∀ bytes, imageRange image offset length = .ok bytes → (rest bytes).Reads P image

theorem reads_bind {q : Query α} {next : α → Query β} (hq : q.Reads P image)
    (hnext : ∀ a, q.onImage image = .ok a → (next a).Reads P image) :
    (q >>= next).Reads P image := by
  change (q.bind next).Reads P image
  induction q with
  | done a => exact hnext a rfl
  | fail cause => trivial
  | note remark rest ih =>
    refine ih hq fun a ha => hnext a ?_
    rwa [onImage_note]
  | read route offset length rest ih =>
    refine ⟨hq.1, fun bytes hbytes => ih bytes (hq.2 bytes hbytes) fun a ha => hnext a ?_⟩
    simp only [onImage, attempt, Session.onImage, hbytes]
    exact ha

theorem reads_pure (a : α) : (pure a : Query α).Reads P image := trivial

theorem reads_fail (cause : Error) : (fail cause : Query α).Reads P image := trivial

theorem reads_report (remark : Remark) : (report remark).Reads P image := trivial

theorem reads_report_bind {remark : Remark} {next : Unit → Query β}
    (h : (next ()).Reads P image) : (report remark >>= next).Reads P image := h

theorem reads_liftM (e : Except Error α) : (liftM e : Query α).Reads P image := by
  cases e <;> trivial

theorem reads_bytes {offset length : Nat} (h : P .cached length) :
    (bytes offset length).Reads P image :=
  ⟨h, fun _ _ => trivial⟩

theorem reads_bytesDirect {offset length : Nat} (h : P .direct length) :
    (bytesDirect offset length).Reads P image :=
  ⟨h, fun _ _ => trivial⟩

/-- The session that runs a query makes the reads of the query. -/
theorem reads_attempt {q : Query α} (h : q.Reads P image) : q.attempt.Reads P image := by
  induction q with
  | done => trivial
  | fail cause => exact Session.reads_bind (Session.reads_reportFailure cause) trivial
  | note remark rest ih => exact ih h
  | read route offset length rest ih =>
    simp only [attempt, Session.Reads]
    refine ⟨h.1, ?_⟩
    cases hrange : imageRange image offset length with
    | ok bytes => exact ih bytes (h.2 bytes hrange)
    | error cause => trivial

end Query

open Query

/-! ## How long a block and a pcluster are -/

variable {sb : Superblock} {f : CompressedFile}

theorem Superblock.bits_of_validate (h : sb.validate = .ok ()) : 9 ≤ sb.bits ∧ sb.bits ≤ 16 := by
  unfold validate at h
  split at h
  · cases h
  · split at h
    · cases h
    · next hbits =>
      simp only [minBits, maxBits, not_or, Nat.not_lt] at hbits
      exact hbits

/-- A block of a file is read with all of its bytes. -/
theorem Inode.length_flatExtent {i : Inode} {block : Nat} {extent : FlatExtent}
    (h : i.flatExtent sb block = .ok extent) : extent.length = i.blockLength sb block := by
  obtain ⟨count, -, h⟩ := bind_eq_ok.mp h
  simp only [inlineExtent, plainExtent] at h
  grind

/-- So it lies in one block of the image. -/
theorem Inode.length_flatExtent_le {i : Inode} {block : Nat} {extent : FlatExtent}
    (h : i.flatExtent sb block = .ok extent) : extent.length ≤ sb.blockSize := by
  rw [length_flatExtent h]
  exact Nat.min_le_left ..

theorem le_of_markedBlockCount? {distance count : Nat}
    (h : markedBlockCount? distance = some count) : count ≤ distance := by
  unfold markedBlockCount? at h
  split at h
  · simp only [Option.some.injEq] at h
    omega
  · cases h

/-- Where a pcluster starts in an lcluster, the distance to the next head
and a number of blocks have 16 bits. -/
def Lcluster.Small : Lcluster → Prop
  | .head _ offset _ => offset < 2 ^ 16
  | .inner _ ahead count => ahead < 2 ^ 16 ∧ count < 2 ^ 16

/-- A full index says nothing larger: it has no more room. -/
theorem FullIndexRecord.small_of_lcluster {r : FullIndexRecord} {l : Lcluster}
    (h : r.lcluster = .ok l) : l.Small := by
  obtain ⟨type, -, h⟩ := bind_eq_ok.mp h
  have hoffset := r.offset.toNat_lt
  have hpayload := r.payload.toNat_lt
  have hback : r.back < 2 ^ 16 := Nat.mod_lt _ (by decide)
  have hahead : r.ahead < 2 ^ 16 := Nat.div_lt_of_lt_mul (by omega)
  cases type with
  | plain =>
    cases h
    exact hoffset
  | head =>
    cases h
    exact hoffset
  | nonHead =>
    cases hmark : markedBlockCount? r.back with
    | none =>
      simp only [hmark] at h
      cases h
      exact ⟨hahead, by decide⟩
    | some count =>
      simp only [hmark] at h
      cases h
      exact ⟨hahead, Nat.lt_of_le_of_lt (le_of_markedBlockCount? hmark) hback⟩

/-- What an entry of a pack holds fits its low part. -/
theorem Pack.low_lt {p : Pack} {slot : Nat} {e : PackEntry} (h : p.entry slot = .ok e) :
    e.low < 2 ^ p.lowBits := by
  unfold entry at h
  simp only at h
  split at h
  · cases h
  · cases h
    exact Nat.mod_lt _ (Nat.two_pow_pos _)

/-- The next head is in the pack, or as far behind it as a slot can
tell. -/
theorem Pack.distanceAhead_le {p : Pack} {slot n : Nat} (h : p.distanceAhead slot = .ok n)
    (hslot : slot < p.slots) : n ≤ p.slots - slot + 2 ^ p.lowBits := by
  induction hturns : p.slots - slot generalizing slot n with
  | zero => omega
  | succ turns ih =>
    rw [distanceAhead] at h
    obtain ⟨e, he, h⟩ := bind_eq_ok.mp h
    have hlow := low_lt he
    split at h
    · cases h
      omega
    · split at h
      · next hnext =>
        obtain ⟨rest, hrest, h⟩ := bind_eq_ok.mp h
        cases h
        have hle := ih hrest hnext (by omega)
        omega
      · cases hmark : markedBlockCount? e.low with
        | some count =>
          simp only [hmark] at h
          cases h
          omega
        | none =>
          simp only [hmark] at h
          cases h
          omega

/-- Nor does a pack, whose slots are few and narrow. -/
theorem Pack.small_of_lcluster {p : Pack} {slot : Nat} {l : Lcluster} (hslots : p.slots ≤ 16)
    (hbits : p.lowBits ≤ 14) (hslot : slot < p.slots) (h : p.lcluster f slot = .ok l) :
    l.Small := by
  obtain ⟨e, he, h⟩ := bind_eq_ok.mp h
  obtain ⟨type, -, h⟩ := bind_eq_ok.mp h
  have hpow : 2 ^ p.lowBits ≤ 2 ^ 14 := Nat.pow_le_pow_right (by decide) hbits
  have hlow : e.low < 2 ^ 16 := by
    have hlt := low_lt he
    omega
  cases type with
  | plain =>
    obtain ⟨blocks, -, h⟩ := bind_eq_ok.mp h
    cases h
    exact hlow
  | head =>
    obtain ⟨blocks, -, h⟩ := bind_eq_ok.mp h
    cases h
    exact hlow
  | nonHead =>
    obtain ⟨ahead, hahead, h⟩ := bind_eq_ok.mp h
    have hle := distanceAhead_le hahead hslot
    have hahead : ahead < 2 ^ 16 := by omega
    cases hmark : markedBlockCount? e.low with
    | none =>
      simp only [hmark] at h
      split at h
      · obtain ⟨back, -, h⟩ := bind_eq_ok.mp h
        cases h
        exact ⟨hahead, by decide⟩
      · cases h
        exact ⟨hahead, by decide⟩
    | some count =>
      simp only [hmark] at h
      cases h
      exact ⟨hahead, Nat.lt_of_le_of_lt (le_of_markedBlockCount? hmark) hlow⟩

namespace CompressedFile

theorem small_of_loadFull {lcn : Nat} {l : Lcluster}
    (h : (f.loadFull lcn).onImage image = .ok l) : l.Small := by
  obtain ⟨bytes, -, h⟩ := Query.onImage_bind_eq_ok.mp h
  obtain ⟨record, -, h⟩ := Query.onImage_bind_eq_ok.mp h
  rw [onImage_liftM] at h
  exact record.small_of_lcluster h

theorem small_of_loadCompact (h8 : f.headerEnd % 8 = 0) {lcn : Nat} {l : Lcluster}
    (h : (f.loadCompact lcn).onImage image = .ok l) : l.Small := by
  have hslot := slot_lt h8 lcn
  unfold loadCompact at h
  generalize f.packPlace lcn = place at h hslot
  simp only at h
  split at h
  · simp at h
  · next hgeometry =>
    obtain ⟨bytes, -, h⟩ := Query.onImage_bind_eq_ok.mp h
    rw [onImage_liftM] at h
    have hslots : place.kind.slots ≤ 16 := by cases place.kind <;> decide
    have hmax : place.kind.maxLclusterBits ≤ 14 := by cases place.kind <;> decide
    have hbits : max f.lclusterBits minLowBits ≤ 14 := by
      simp only [minLowBits]
      omega
    exact Pack.small_of_lcluster (p := f.packOf place.kind bytes) hslots hbits hslot h

/-- **So an index says nothing larger.** -/
theorem small_of_loadLcluster (r : Resolved sb f) {lcn : Nat} {l : Lcluster}
    (h : (f.loadLcluster lcn).onImage image = .ok l) : l.Small := by
  obtain ⟨-, h⟩ := loadLcluster_eq_ok.mp h
  cases hformat : f.format with
  | full =>
    rw [hformat] at h
    exact small_of_loadFull h
  | compact =>
    rw [hformat] at h
    exact small_of_loadCompact r.headerEnd_mod h

/-- The number of blocks of a pcluster has 16 bits. -/
theorem blocks_lt_of_recorded (r : Resolved sb f) {p : Pcluster} (h : f.Recorded sb image p) :
    p.blocks < 2 ^ 16 := by
  have hblocks := h.blocks
  cases hbig : f.hasBig p.storage with
  | false =>
    rw [pclusterBlocks_of_not_big hbig, Except.ok.injEq] at hblocks
    have hbits := r.le_bits
    have hpow : 2 ^ (f.lclusterBits - sb.bits) ≤ 2 ^ 7 :=
      Nat.pow_le_pow_right (by decide) (by omega)
    omega
  | true =>
    rcases Nat.lt_or_ge (p.lcn + 1) f.lclusterCount with hnext | hlast
    · obtain ⟨l, hl, hgives⟩ := (pclusterBlocks_eq_ok hbig hnext).mp hblocks
      cases l with
      | head storage offset block =>
        simp only [Lcluster.GivesBlocks] at hgives
        omega
      | inner back ahead count =>
        rw [hgives.2.2]
        exact (small_of_loadLcluster r hl).2
    · rw [pclusterBlocks_of_last hbig hlast, Except.ok.injEq] at hblocks
      omega

/-- Every pcluster of a finished walk was recorded. -/
theorem Walks.recorded {lcn : Nat} {ps : List Pcluster} {p : Pcluster}
    (h : f.Walks sb image lcn ps) (hp : p ∈ ps) : f.Recorded sb image p := by
  induction h with
  | done => cases hp
  | head hrecorded _ ih =>
    rcases List.mem_cons.mp hp with rfl | hp
    · exact hrecorded
    · exact ih hp
  | inner _ _ _ ih => exact ih hp

end CompressedFile

/-- So has that of every pcluster of a map that the image gives out. -/
theorem ExtentMap.Of.blocks_lt {map : ExtentMap} (h : map.Of image sb) {p : Pcluster}
    (hp : p ∈ map.pclusters) : p.blocks < 2 ^ 16 := by
  rcases h with rfl | ⟨f, ⟨i, -, hf⟩, hmap⟩
  · cases hp
  · exact CompressedFile.blocks_lt_of_recorded (CompressedFile.resolved_of_resolve hf)
      ((CompressedFile.walks_of_extents hmap).2.recorded hp)

/-! ## The reads of each request -/

/-- Reads through the cache that are shorter than this are all allowed. -/
def shortLimit : Nat := 2 ^ 32

section

variable (hshort : ∀ length < shortLimit, P .cached length)
include hshort

theorem Inode.reads_read (nid : Nat) : (Inode.read sb nid).Reads P image := by
  unfold Inode.read Inode.ofHead
  refine reads_bind (reads_liftM _) fun position _ => ?_
  refine reads_bind (reads_bytes (hshort _ (by decide))) fun head _ => ?_
  refine reads_bind ?_ fun inode _ => reads_report_bind (reads_pure inode)
  refine reads_bind (reads_liftM _) fun layout _ => ?_
  split
  · exact reads_bind (reads_liftM _) fun record _ =>
      reads_bind (reads_liftM _) fun type _ => reads_pure _
  · exact reads_bind (reads_bytes (hshort _ (by decide))) fun tail _ =>
      reads_bind (reads_liftM _) fun record _ => reads_bind (reads_liftM _) fun type _ =>
        reads_pure _

theorem Directory.reads_loadBlock (hbits : sb.bits < 32) (d : Directory) (block : Nat) :
    (d.loadBlock sb block).Reads P image := by
  have hsize : sb.blockSize < shortLimit := Nat.pow_lt_pow_right (by decide) hbits
  unfold loadBlock
  refine reads_bind (reads_liftM _) fun extent hextent => ?_
  rw [onImage_liftM] at hextent
  have hlength := Inode.length_flatExtent_le hextent
  refine reads_bind (reads_bytes (hshort _ (by omega))) fun bytes _ => ?_
  exact reads_bind (reads_liftM _) fun count _ => reads_report_bind (reads_pure _)

theorem Directory.reads_lastEntries (hbits : sb.bits < 32) (d : Directory) (left : Nat)
    (before : Array DirectoryEntry) : (d.lastEntries sb left before).Reads P image := by
  induction left generalizing before with
  | zero => exact reads_pure _
  | succ left ih =>
    refine reads_bind (reads_loadBlock hshort hbits d _) fun listing _ => ?_
    cases listing.fault? with
    | some cause => exact reads_fail cause
    | none => exact ih _

theorem Directory.reads_list (hbits : sb.bits < 32) (i : Inode) :
    (Directory.list sb i).Reads P image :=
  reads_bind (reads_liftM _) fun d _ =>
    reads_bind (reads_lastEntries hshort hbits d ..) fun _ _ => reads_report_bind (reads_pure _)

theorem Directory.reads_findInLast (hbits : sb.bits < 32) (d : Directory) (name : ByteArray)
    (left : Nat) : (d.findInLast sb name left).Reads P image := by
  induction left with
  | zero => exact reads_fail _
  | succ left ih =>
    refine reads_bind (reads_loadBlock hshort hbits d _) fun listing _ => ?_
    split
    · exact reads_pure _
    · exact reads_fail _
    · exact ih

theorem Directory.reads_find (hbits : sb.bits < 32) (i : Inode) (name : ByteArray) :
    (Directory.find sb i name).Reads P image :=
  reads_bind (reads_liftM _) fun d _ => reads_findInLast hshort hbits d name _

theorem Path.reads_foldlM (hbits : sb.bits < 32) (parts : List String) (i : Inode) :
    (parts.foldlM (Path.step sb) i).Reads P image := by
  induction parts generalizing i with
  | nil => exact reads_pure i
  | cons part rest ih =>
    rw [List.foldlM_cons]
    refine reads_bind ?_ fun next _ => ih next
    unfold Path.step
    split
    · exact reads_fail _
    · exact reads_bind (Directory.reads_find hshort hbits i _) fun nid _ =>
        reads_report_bind (Inode.reads_read hshort nid)

theorem Path.reads_find (hbits : sb.bits < 32) (path : String) :
    (Path.find sb path).Reads P image := by
  unfold Path.find
  split
  · exact reads_fail _
  · exact reads_bind (Inode.reads_read hshort _) fun root _ => reads_foldlM hshort hbits _ root

theorem Cursor.reads_advanceFrom (hbits : sb.bits < 32) (d : Directory) (pending : Listing)
    (left : Nat) : (advanceFrom sb d pending left).Reads P image := by
  induction left generalizing pending with
  | zero =>
    rcases pending with ⟨_ | ⟨e, rest⟩, _ | cause⟩ <;> simp only [advanceFrom] <;> trivial
  | succ left ih =>
    rcases pending with ⟨_ | ⟨e, rest⟩, _ | cause⟩ <;> simp only [advanceFrom]
    · exact reads_bind (Directory.reads_loadBlock hshort hbits d _) fun listing _ => ih listing
    all_goals trivial

theorem Superblock.reads_verifyChecksum (hbits : sb.bits < 32) :
    sb.verifyChecksum.Reads P image := by
  have hsize : sb.blockSize < shortLimit := Nat.pow_lt_pow_right (by decide) hbits
  have hlength : checksumLength sb.blockSize ≤ sb.blockSize := by
    unfold checksumLength
    split
    · exact Nat.sub_le ..
    · exact Nat.le_refl _
  have hread := hshort _ (Nat.lt_of_le_of_lt hlength hsize)
  refine reads_bind (reads_bytes hread) fun bytes _ => ?_
  generalize computeChecksum bytes = computed
  by_cases hequal : computed = sb.checksum
  · rw [if_pos hequal]
    exact reads_pure _
  · rw [if_neg hequal]
    exact reads_fail _

theorem Superblock.reads_load (verify : Bool) : (Superblock.load verify).Reads P image := by
  unfold load
  refine reads_bind ?_ fun sb _ => reads_bind ?_ fun _ hcheck => ?_
  · refine reads_bind (reads_bytes (hshort _ (by decide))) fun bytes _ => ?_
    refine reads_bind (reads_liftM _) fun sb _ => ?_
    split
    · exact reads_pure sb
    · trivial
  · refine reads_bind (reads_liftM _) fun _ _ => ?_
    induction sb.oddities with
    | nil => exact reads_pure _
    | cons remark rest ih => exact reads_report_bind ih
  · obtain ⟨_, hvalid, -⟩ := onImage_bind_eq_ok.mp hcheck
    rw [onImage_liftM] at hvalid
    have hbits := bits_of_validate hvalid
    split
    · exact reads_bind (reads_verifyChecksum hshort (by omega)) fun _ _ =>
        reads_report_bind (reads_pure sb)
    · exact reads_report_bind (reads_pure sb)

namespace CompressedFile

theorem reads_resolve (i : Inode) : (resolve sb i).Reads P image := by
  refine reads_bind (reads_liftM _) fun format _ => ?_
  refine reads_bind (reads_bytes (hshort _ (by decide))) fun bytes _ => ?_
  refine reads_bind (reads_liftM _) fun header _ => ?_
  refine reads_bind (reads_liftM _) fun file _ => reads_report_bind ?_
  exact reads_bind (reads_liftM _) fun _ _ => reads_pure _

theorem reads_loadLcluster (lcn : Nat) : (f.loadLcluster lcn).Reads P image := by
  unfold loadLcluster
  split
  · exact reads_fail _
  · cases f.format with
    | full =>
      refine reads_bind ?_ fun l _ => reads_report_bind (reads_pure l)
      exact reads_bind (reads_bytes (hshort _ (by decide))) fun bytes _ =>
        reads_bind (reads_liftM _) fun record _ => reads_liftM _
    | compact =>
      refine reads_bind ?_ fun l _ => reads_report_bind (reads_pure l)
      simp only [loadCompact]
      split
      · exact reads_fail _
      · refine reads_bind (reads_bytes (hshort _ ?_)) fun bytes _ => reads_liftM _
        cases (f.packPlace lcn).kind <;> decide

theorem reads_pclusterBlocks (lcn : Nat) (storage : Storage) :
    (f.pclusterBlocks sb lcn storage).Reads P image := by
  unfold pclusterBlocks
  split
  · exact reads_pure _
  · split
    · exact reads_pure _
    · refine reads_bind (reads_loadLcluster hshort _) fun l _ => ?_
      cases l with
      | head => exact reads_pure _
      | inner =>
        simp only
        split
        · exact reads_pure _
        · exact reads_fail _

theorem reads_walkFrom (lcn : Nat) (before : Collected) :
    (f.walkFrom sb lcn before).Reads P image := by
  induction lcn using f.steps_induction generalizing before with
  | done lcn hge =>
    rw [walkFrom, dif_neg (Nat.not_lt.mpr hge)]
    exact reads_pure _
  | step lcn hlt ih =>
    rw [walkFrom, dif_pos hlt]
    refine reads_bind (reads_loadLcluster hshort lcn) fun l _ => ?_
    cases l with
    | head =>
      refine reads_bind (reads_pclusterBlocks hshort ..) fun blocks _ => ?_
      exact ih (lcn + 1) (by omega) _
    | inner back ahead count =>
      simp only
      split
      · exact reads_fail _
      · exact ih (lcn + max ahead 1) (by omega) _

theorem reads_extents : (f.extents sb).Reads P image := by
  refine reads_bind (reads_walkFrom hshort ..) fun map _ => ?_
  refine reads_bind ?_ fun _ _ => reads_report_bind (reads_pure _)
  unfold compareCount
  split
  · split
    · exact reads_pure _
    · exact reads_report _
  · exact reads_pure _

end CompressedFile

end

namespace CompressedFile

/-- Past the cache, only the blocks of the last pcluster are read. -/
theorem reads_lastSize [Lz4.Compressor] {map : ExtentMap}
    (hlast : ∀ last, map.last? = some last → P .direct (last.blocks * sb.blockSize)) :
    (f.lastSize sb map).Reads P image := by
  unfold lastSize
  split
  · exact reads_fail _
  · next last hsome =>
    split
    · exact reads_fail _
    · cases last.storage with
      | plain => exact reads_pure _
      | compressed =>
        refine reads_bind (reads_liftM _) fun codec _ => ?_
        refine reads_bind (reads_bytesDirect (hlast last hsome)) fun raw _ => ?_
        split
        · exact reads_pure _
        · unfold recompressedSize Lz4.decodePartial Lz4.compressInto
          split
          · exact reads_fail _
          · refine reads_bind ?_ fun plain _ => reads_bind ?_ fun found _ =>
              reads_report_bind (reads_pure _)
            · split
              · exact reads_fail _
              · exact reads_bind (reads_liftM _) fun _ _ => reads_report_bind (reads_pure _)
            · simp only
              split <;> trivial

variable (hshort : ∀ length < shortLimit, P .cached length)
include hshort

theorem reads_occupiedSize [Lz4.Compressor]
    (hlast : ∀ map last, (f.extents sb).onImage image = .ok map → map.last? = some last →
      P .direct (last.blocks * sb.blockSize)) :
    (f.occupiedSize sb).Reads P image := by
  unfold occupiedSize
  split
  · exact reads_pure _
  · refine reads_bind (reads_extents hshort) fun map hmap => ?_
    exact reads_bind (reads_lastSize (hlast map · hmap)) fun last _ => reads_pure _

end CompressedFile

theorem Inode.reads_occupiedSize [Lz4.Compressor]
    (hshort : ∀ length < shortLimit, P .cached length) {i : Inode}
    (hlast : ∀ f map last, (CompressedFile.resolve sb i).onImage image = .ok f →
      (f.extents sb).onImage image = .ok map → map.last? = some last →
      P .direct (last.blocks * sb.blockSize)) :
    (i.occupiedSize sb).Reads P image := by
  unfold occupiedSize
  split
  · exact reads_pure _
  · split
    · exact reads_pure _
    · exact reads_bind (CompressedFile.reads_resolve hshort i) fun f hf =>
        CompressedFile.reads_occupiedSize hshort fun map last => hlast f map last hf

/-- The last pcluster of a file, if that is what a request reads. -/
def Request.Reaches (image : ByteArray) (sb : Superblock) (last : Pcluster) :
    Request α → Prop
  | lastSize _ map => map.last? = some last
  | packedSize f => ∃ map, (f.extents sb).onImage image = .ok map ∧ map.last? = some last
  | occupiedSize i => ∃ f map, (CompressedFile.resolve sb i).onImage image = .ok f ∧
      (f.extents sb).onImage image = .ok map ∧ map.last? = some last
  | _ => False

/-- **What a request reads** is short, but for the last pcluster of a
file. -/
theorem Request.reads_query [Lz4.Compressor] (r : Request α) (hbits : sb.bits < 32)
    (hshort : ∀ length < shortLimit, P .cached length)
    (hlast : ∀ last, r.Reaches image sb last → P .direct (last.blocks * sb.blockSize)) :
    (r.query sb).Reads P image := by
  cases r with
  | loadSuperblock verify => exact Superblock.reads_load hshort verify
  | verifyChecksum => exact Superblock.reads_verifyChecksum hshort hbits
  | readInode nid => exact Inode.reads_read hshort nid
  | mapBlock i block => exact reads_liftM _
  | listDirectory i => exact Directory.reads_list hshort hbits i
  | advance c => exact Cursor.reads_advanceFrom hshort hbits ..
  | lookup path => exact Path.reads_find hshort hbits path
  | resolve i => exact CompressedFile.reads_resolve hshort i
  | loadLcluster f lcn => exact CompressedFile.reads_loadLcluster hshort lcn
  | extents f => exact CompressedFile.reads_extents hshort
  | lastSize f map => exact CompressedFile.reads_lastSize hlast
  | packedSize f =>
    exact CompressedFile.reads_occupiedSize hshort fun map last hmap hsome =>
      hlast last ⟨map, hmap, hsome⟩
  | occupiedSize i =>
    exact Inode.reads_occupiedSize hshort fun f map last hf hmap hsome =>
      hlast last ⟨f, map, hf, hmap, hsome⟩

end Erofs
