import Erofs.Proofs.Compression.Resolved
import Erofs.Proofs.Compression.Walk
import Erofs.Proofs.Directory.Contents
/-!
# How much a survey reads

A survey comes to an end on every image and every device, whatever its reads
bring. `EndsWithin Q n` says of a session that it makes at most `n` reads,
also if some of them fail, and that its answer is in `Q`. The answers matter
because they decide what is read next: a directory has a bounded number of
blocks, a block a bounded number of entries, and a compressed file a bounded
number of lclusters. Subdirectories are bounded by the levels that are left,
so a cycle of directories does no harm (`endsWithin_survey`).
-/

namespace Erofs

variable {α β : Type} {Q : α → Prop} {R : β → Prop} {m n : Nat} {sb : Superblock}

/-- At most so many reads are made, whatever they bring, and then there is
an answer in `Q`. -/
def Session.EndsWithin (Q : α → Prop) : Session α → Nat → Prop
  | done a, _ => Q a
  | note _ rest, n => rest.EndsWithin Q n
  | read _ _ _ rest, n => 0 < n ∧ ∀ result, (rest result).EndsWithin Q (n - 1)

/-- At most so many reads are made, whatever bytes they bring, and then there
is an answer in `Q` or a failure. -/
def Query.EndsWithin (Q : α → Prop) : Query α → Nat → Prop
  | done a, _ => Q a
  | fail _, _ => True
  | note _ rest, n => rest.EndsWithin Q n
  | read _ _ _ rest, n => 0 < n ∧ ∀ bytes, (rest bytes).EndsWithin Q (n - 1)

namespace Session

theorem EndsWithin.mono {s : Session α} (h : s.EndsWithin Q m) (hle : m ≤ n) :
    s.EndsWithin Q n := by
  induction s generalizing m n with
  | done => exact h
  | note remark rest ih => exact ih h hle
  | read route offset length rest ih =>
    exact ⟨by have := h.1; omega, fun result => ih result (h.2 result) (by omega)⟩

/-- The reads of two sessions are added up. -/
theorem EndsWithin.bind {s : Session α} {next : α → Session β} (hs : s.EndsWithin Q m)
    (hnext : ∀ a, Q a → (next a).EndsWithin R n) : (s >>= next).EndsWithin R (m + n) := by
  change (s.bind next).EndsWithin R (m + n)
  induction s generalizing m with
  | done a => exact (hnext a hs).mono (Nat.le_add_left ..)
  | note remark rest ih => exact ih hs
  | read route offset length rest ih =>
    refine ⟨by have := hs.1; omega, fun result => ?_⟩
    exact (ih result (hs.2 result)).mono (by have := hs.1; omega)

/-- A failure leaves a line in the journal, and no more. -/
theorem endsWithin_reportFailure_bind {cause : Error} {next : Unit → Session β}
    (h : (next ()).EndsWithin R n) : (reportFailure cause >>= next).EndsWithin R n := by
  unfold reportFailure
  cases cause.remark? <;> exact h

end Session

namespace Query

theorem EndsWithin.mono {q : Query α} (h : q.EndsWithin Q m) (hle : m ≤ n) :
    q.EndsWithin Q n := by
  induction q generalizing m n with
  | done => exact h
  | fail => trivial
  | note remark rest ih => exact ih h hle
  | read route offset length rest ih =>
    exact ⟨by have := h.1; omega, fun bytes => ih bytes (h.2 bytes) (by omega)⟩

/-- The reads of two queries are added up. -/
theorem EndsWithin.bind {q : Query α} {next : α → Query β} (hq : q.EndsWithin Q m)
    (hnext : ∀ a, Q a → (next a).EndsWithin R n) : (q >>= next).EndsWithin R (m + n) := by
  change (q.bind next).EndsWithin R (m + n)
  induction q generalizing m with
  | done a => exact (hnext a hq).mono (Nat.le_add_left ..)
  | fail => trivial
  | note remark rest ih => exact ih hq
  | read route offset length rest ih =>
    refine ⟨by have := hq.1; omega, fun bytes => ?_⟩
    exact (ih bytes (hq.2 bytes)).mono (by have := hq.1; omega)

/-- A computation reads nothing. -/
theorem endsWithin_liftM_bind {e : Except Error α} {next : α → Query β}
    (hnext : ∀ a, e = .ok a → (next a).EndsWithin R n) :
    ((liftM e : Query α) >>= next).EndsWithin R n := by
  cases e with
  | error cause => trivial
  | ok a => exact hnext a rfl

theorem endsWithin_liftM (e : Except Error α) :
    (liftM e : Query α).EndsWithin (fun _ => True) n := by
  cases e <;> trivial

/-- A read of the image in front of a query is one more read. -/
theorem endsWithin_read_bind {route : Route} {offset length : Nat} {next : ByteArray → Query β}
    (hnext : ∀ bytes, (next bytes).EndsWithin R n) :
    (read route offset length done >>= next).EndsWithin R (1 + n) :=
  EndsWithin.bind (Q := fun _ => True) ⟨Nat.one_pos, fun _ => trivial⟩ fun bytes _ => hnext bytes

/-- The session that runs a query makes its reads, at most. -/
theorem EndsWithin.attempt {q : Query α} (h : q.EndsWithin Q n) :
    q.attempt.EndsWithin (fun result => ∀ a, result = .ok a → Q a) n := by
  induction q generalizing n with
  | done a =>
    rintro _ ⟨⟩
    exact h
  | fail cause =>
    refine Session.endsWithin_reportFailure_bind ?_
    rintro _ ⟨⟩
  | note remark rest ih => exact ih h
  | read route offset length rest ih =>
    simp only [Query.attempt, Session.EndsWithin]
    refine ⟨h.1, fun result => ?_⟩
    cases result with
    | ok bytes => exact ih bytes (h.2 bytes)
    | error cause => rintro _ ⟨⟩

end Query

open Query

/-! ## Inodes and directories -/

/-- An inode is read in two parts. -/
theorem Inode.endsWithin_read (nid : Nat) : (Inode.read sb nid).EndsWithin (fun _ => True) 2 := by
  unfold Inode.read Inode.ofHead
  refine endsWithin_liftM_bind fun position _ => endsWithin_read_bind (n := 1) fun head => ?_
  refine EndsWithin.bind (n := 0) (Q := fun _ => True) ?_ fun _ _ => trivial
  refine endsWithin_liftM_bind fun layout _ => ?_
  split
  · exact endsWithin_liftM_bind fun record _ => endsWithin_liftM_bind fun type _ => trivial
  · exact endsWithin_read_bind (n := 0) fun tail => endsWithin_liftM_bind fun record _ =>
      endsWithin_liftM_bind fun type _ => trivial

/-- The largest number of entries of a block: the place where the first name
starts is given with 16 bits. -/
def DirectoryBlock.maxEntries : Nat := 2 ^ 16 / DirectoryRecord.recordSize

theorem Listing.entryCount_le {blockSize nid block count : Nat} {b : ByteArray}
    (h : entryCount blockSize nid block b = .ok count) : count ≤ DirectoryBlock.maxEntries := by
  obtain ⟨first, -, h⟩ := bind_eq_ok.mp h
  simp only at h
  split at h
  · cases h
  · cases h
    exact Nat.div_le_div_right (Nat.le_of_lt first.nameOffset.toNat_lt)

/-- A block is read at once. -/
theorem Directory.endsWithin_loadBlock (d : Directory) (block : Nat) :
    (d.loadBlock sb block).EndsWithin
      (fun listing => listing.entries.length ≤ DirectoryBlock.maxEntries) 1 := by
  unfold loadBlock
  refine endsWithin_liftM_bind fun extent _ => endsWithin_read_bind (n := 0) fun bytes => ?_
  refine endsWithin_liftM_bind fun count hcount => ?_
  exact Nat.le_trans (Listing.length_lastEntries_le ..) (Listing.entryCount_le hcount)

/-! ## Compressed files -/

namespace CompressedFile

variable {f : CompressedFile}

theorem endsWithin_resolve (i : Inode) :
    (resolve sb i).EndsWithin (fun f => f.lclusterCount ≤ maxAddressableUnits) 1 := by
  unfold resolve
  refine endsWithin_liftM_bind fun format _ => endsWithin_read_bind (n := 0) fun bytes => ?_
  refine endsWithin_liftM_bind fun header _ => endsWithin_liftM_bind fun file _ => ?_
  exact endsWithin_liftM_bind (n := 0) fun _ hvalid => lclusterCount_le hvalid

theorem endsWithin_loadLcluster (lcn : Nat) :
    (f.loadLcluster lcn).EndsWithin (fun _ => True) 1 := by
  unfold loadLcluster
  split
  · trivial
  · cases f.format with
    | full =>
      refine EndsWithin.bind (n := 0) (Q := fun _ => True) ?_ fun _ _ => trivial
      exact endsWithin_read_bind (n := 0) fun bytes =>
        endsWithin_liftM_bind fun record _ => endsWithin_liftM _
    | compact =>
      refine EndsWithin.bind (n := 0) (Q := fun _ => True) ?_ fun _ _ => trivial
      simp only [loadCompact]
      split
      · trivial
      · exact endsWithin_read_bind (n := 0) fun bytes => endsWithin_liftM _

theorem endsWithin_pclusterBlocks (lcn : Nat) (storage : Storage) :
    (f.pclusterBlocks sb lcn storage).EndsWithin (fun _ => True) 1 := by
  unfold pclusterBlocks
  split
  · trivial
  · split
    · trivial
    · refine (endsWithin_loadLcluster (lcn + 1)).bind (n := 0) fun l _ => ?_
      cases l with
      | head => trivial
      | inner =>
        simp only
        split <;> trivial

/-- For each lcluster, it and the next are looked at. -/
theorem endsWithin_walkFrom (lcn : Nat) (before : Collected) :
    (f.walkFrom sb lcn before).EndsWithin (fun _ => True) (2 * (f.lclusterCount - lcn)) := by
  induction lcn using f.steps_induction generalizing before with
  | done lcn hge =>
    rw [walkFrom, dif_neg (Nat.not_lt.mpr hge)]
    trivial
  | step lcn hlt ih =>
    rw [walkFrom, dif_pos hlt]
    -- the walk goes on from a later lcluster, so there are fewer left
    have hstep : 1 + (1 + 2 * (f.lclusterCount - lcn - 1)) = 2 * (f.lclusterCount - lcn) := by
      omega
    rw [← hstep]
    refine (endsWithin_loadLcluster lcn).bind fun l _ => ?_
    cases l with
    | head storage offset block =>
      refine (endsWithin_pclusterBlocks lcn storage).bind fun blocks _ => ?_
      exact (ih (lcn + 1) (by omega) _).mono (by omega)
    | inner back ahead count =>
      simp only
      split
      · trivial
      · exact (ih (lcn + max ahead 1) (by omega) _).mono (by omega)

theorem endsWithin_extents :
    (f.extents sb).EndsWithin (fun _ => True) (2 * f.lclusterCount) := by
  refine (endsWithin_walkFrom 0 .empty).bind (n := 0) fun map _ => ?_
  refine EndsWithin.bind (m := 0) (n := 0) (Q := fun _ => True) ?_ fun _ _ => trivial
  unfold compareCount
  split
  · split <;> trivial
  · trivial

/-- The last pcluster is read at once, if at all. -/
theorem endsWithin_lastSize [Lz4.Compressor] (map : ExtentMap) :
    (f.lastSize sb map).EndsWithin (fun _ => True) 1 := by
  unfold lastSize
  split
  · trivial
  · next last _ =>
    split
    · trivial
    · cases last.storage with
      | plain => trivial
      | compressed =>
        refine endsWithin_liftM_bind fun codec _ => endsWithin_read_bind (n := 0) fun raw => ?_
        split
        · trivial
        · unfold recompressedSize Lz4.decodePartial Lz4.compressInto
          split
          · trivial
          · refine EndsWithin.bind (m := 0) (n := 0) (Q := fun _ => True) ?_ fun plain _ =>
              EndsWithin.bind (m := 0) (n := 0) (Q := fun _ => True) ?_ fun found _ => trivial
            · split
              · trivial
              · exact endsWithin_liftM_bind fun _ _ => trivial
            · simp only
              split <;> trivial

theorem endsWithin_occupiedSize [Lz4.Compressor] :
    (f.occupiedSize sb).EndsWithin (fun _ => True) (2 * f.lclusterCount + 1) := by
  unfold occupiedSize
  split
  · trivial
  · exact endsWithin_extents.bind fun map _ =>
      (endsWithin_lastSize map).bind (n := 0) fun last _ => trivial

end CompressedFile

/-- The most reads to measure a file: two for each lcluster, one for the map
header and one for the last pcluster. -/
def Inode.occupiedReads : Nat := 1 + (2 * maxAddressableUnits + 1)

theorem Inode.endsWithin_occupiedSize [Lz4.Compressor] (i : Inode) :
    (i.occupiedSize sb).EndsWithin (fun _ => True) occupiedReads := by
  unfold occupiedSize
  split
  · trivial
  · split
    · trivial
    · refine (CompressedFile.endsWithin_resolve i).bind fun f hf => ?_
      exact CompressedFile.endsWithin_occupiedSize.mono (by omega)

/-! ## The survey -/

namespace Statistics

/-- The most reads at an entry, if there are no more than `below` in a
subdirectory. -/
def entryReads (below : Nat) : Nat := 2 + (Inode.occupiedReads + below)

/-- The most reads in a directory and below it, by the levels of directories
that are opened. -/
def treeReads : (levels : Nat) → Nat
  | 0 => 0
  | levels + 1 =>
    maxAddressableUnits * (1 + DirectoryBlock.maxEntries * entryReads (treeReads levels))

/-- The most reads of a survey. -/
def surveyReads (maxDepth : Nat) : Nat := 2 + treeReads (maxDepth + 1)

open Tour

theorem endsWithin_recordError (nid : Nat) (cause : Error) (t : Tour) :
    (t.recordError nid cause).EndsWithin (fun _ => True) n :=
  trivial

variable [Lz4.Compressor]

theorem endsWithin_addFile (i : Inode) (t : Tour) :
    (t.addFile sb i).EndsWithin (fun _ => True) Inode.occupiedReads := by
  refine i.endsWithin_occupiedSize.attempt.bind (n := 0) fun result _ => ?_
  cases result <;> trivial

variable {descend : Descent} {below : Nat}
variable (hdescend : ∀ i t, (descend i t).EndsWithin (fun _ => True) below)
include hdescend

theorem endsWithin_addInode (nid : Nat) (t : Tour) :
    (addInode sb descend nid t).EndsWithin (fun _ => True) (entryReads below) := by
  refine (Inode.endsWithin_read nid).attempt.bind fun result _ => ?_
  cases result with
  | error cause => trivial
  | ok i =>
    simp only
    split
    · exact (endsWithin_addFile i _).mono (Nat.le_add_right ..)
    · split
      · exact (hdescend ..).mono (Nat.le_add_left ..)
      · trivial

theorem endsWithin_addEntry (e : DirectoryEntry) (t : Tour) :
    (addEntry sb descend e t).EndsWithin (fun _ => True) (entryReads below) :=
  (endsWithin_addInode hdescend ..).bind (n := 0) fun _ _ => trivial

theorem endsWithin_addEntries (nid parent : Nat) (entries : List DirectoryEntry) (t : Tour) :
    (addEntries sb descend nid parent entries t).EndsWithin (fun _ => True)
      (entries.length * entryReads below) := by
  induction entries generalizing t with
  | nil => trivial
  | cons e rest ih =>
    rw [addEntries, List.length_cons, Nat.succ_mul, Nat.add_comm]
    split
    · exact (ih t).mono (Nat.le_add_left ..)
    · exact (endsWithin_addEntry hdescend ..).bind fun t _ => ih t

theorem endsWithin_addBlocks (d : Directory) (parent left : Nat) (t : Tour) :
    (addBlocks sb descend d parent left t).EndsWithin (fun _ => True)
      (left * (1 + DirectoryBlock.maxEntries * entryReads below)) := by
  induction left generalizing t with
  | zero => trivial
  | succ left ih =>
    have hsum : (left + 1) * (1 + DirectoryBlock.maxEntries * entryReads below) =
        1 + (DirectoryBlock.maxEntries * entryReads below +
          left * (1 + DirectoryBlock.maxEntries * entryReads below)) := by
      rw [Nat.succ_mul]
      omega
    rw [addBlocks, hsum]
    refine (d.endsWithin_loadBlock _).attempt.bind fun result hresult => ?_
    cases result with
    | error cause => trivial
    | ok listing =>
      -- what was loaded bounds the entries, whatever bytes the read brought
      have hentries := Nat.mul_le_mul_right (entryReads below) (hresult listing rfl)
      refine ((endsWithin_addEntries hdescend ..).mono hentries).bind fun t _ => ?_
      cases listing.fault? with
      | none => exact ih t
      | some cause => exact Session.endsWithin_reportFailure_bind (endsWithin_recordError ..)

omit hdescend in
theorem endsWithin_addTree (levels depth parent : Nat) (i : Inode) (t : Tour) :
    (addTree sb levels depth parent i t).EndsWithin (fun _ => True) (treeReads levels) := by
  induction levels generalizing depth parent i t with
  | zero => trivial
  | succ levels ih =>
    rw [addTree]
    cases hd : Directory.ofInode sb i with
    | error cause => exact Session.endsWithin_reportFailure_bind (endsWithin_recordError ..)
    | ok d =>
      exact (endsWithin_addBlocks (fun i t => ih _ _ i t) d parent _ _).mono
        (Nat.mul_le_mul_right _ (Directory.of_ofInode hd).2)

omit hdescend in
theorem endsWithin_collect (maxDepth : Nat) (s : Statistics) :
    (s.collect sb maxDepth).EndsWithin (fun _ => True) (surveyReads maxDepth) := by
  refine (Inode.endsWithin_read _).attempt.bind fun result _ => ?_
  cases result with
  | error cause => trivial
  | ok root =>
    simp only
    split
    · refine (endsWithin_addTree ..).bind (n := 0) fun _ _ => ?_
      trivial
    · trivial

omit hdescend in
/-- **A survey comes to an end**, whatever its reads bring. -/
theorem endsWithin_survey (maxDepth : Nat) (s : Statistics) :
    (s.survey sb maxDepth).EndsWithin (fun _ => True) (surveyReads maxDepth) :=
  (endsWithin_collect maxDepth s).bind (n := 0) fun _ _ => trivial

end Statistics

end Erofs
