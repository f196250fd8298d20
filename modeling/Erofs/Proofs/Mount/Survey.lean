import Erofs.Proofs.Reads
/-!
# What a survey reads

A survey is a session: it is told of failures and goes on. Each of its
steps makes short reads only, if every occupied size does, so the survey
does (`reads_collect`), however the tree looks.
-/

namespace Erofs

namespace Statistics

open Session Tour

variable {P : Route → Nat → Prop} {image : ByteArray} {sb : Superblock}

/-- All reads of an image with short blocks are allowed, and so are those
of a last pcluster. -/
structure Allows (P : Route → Nat → Prop) (image : ByteArray) (sb : Superblock) : Prop where
  bits_lt : sb.bits < 32
  short : ∀ length < shortLimit, P .cached length
  last : ∀ (i : Inode) (f : CompressedFile) (map : ExtentMap) (last : Pcluster),
    (CompressedFile.resolve sb i).onImage image = .ok f →
    (f.extents sb).onImage image = .ok map → map.last? = some last →
    P .direct (last.blocks * sb.blockSize)

theorem reads_recordError (nid : Nat) (cause : Error) (t : Tour) :
    (t.recordError nid cause).Reads P image :=
  trivial

variable [Lz4.Compressor] (h : Allows P image sb)
include h

theorem reads_addFile (i : Inode) (t : Tour) : (t.addFile sb i).Reads P image := by
  refine reads_bind (Query.reads_attempt (Inode.reads_occupiedSize h.short (h.last i))) ?_
  split
  · exact reads_pure _
  · exact reads_recordError ..

variable {descend : Descent} (hdescend : ∀ i t, (descend i t).Reads P image)
include hdescend

theorem reads_addInode (nid : Nat) (t : Tour) : (addInode sb descend nid t).Reads P image := by
  refine reads_bind (Query.reads_attempt (Inode.reads_read h.short nid)) ?_
  split
  · exact reads_recordError ..
  · simp only
    split
    · exact reads_addFile h ..
    · split
      · exact hdescend ..
      · exact reads_pure _

theorem reads_addEntries (nid parent : Nat) (entries : List DirectoryEntry) (t : Tour) :
    (addEntries sb descend nid parent entries t).Reads P image := by
  induction entries generalizing t with
  | nil => exact reads_pure t
  | cons e rest ih =>
    rw [addEntries]
    split
    · exact reads_bind (reads_pure t) (ih _)
    · exact reads_bind (reads_bind (reads_addInode h hdescend ..) (reads_pure _)) (ih _)

theorem reads_addBlocks (d : Directory) (parent left : Nat) (t : Tour) :
    (addBlocks sb descend d parent left t).Reads P image := by
  induction left generalizing t with
  | zero => exact reads_pure t
  | succ left ih =>
    refine reads_bind
      (Query.reads_attempt (Directory.reads_loadBlock h.short h.bits_lt d _)) ?_
    split
    · exact reads_recordError ..
    · refine reads_bind (reads_addEntries h hdescend ..) ?_
      split
      · exact reads_bind (reads_reportFailure _) (reads_recordError ..)
      · exact ih _

omit hdescend in
theorem reads_addTree (levels depth parent : Nat) (i : Inode) (t : Tour) :
    (addTree sb levels depth parent i t).Reads P image := by
  induction levels generalizing depth parent i t with
  | zero => exact reads_recordError ..
  | succ levels ih =>
    rw [addTree]
    split
    · exact reads_bind (reads_reportFailure _) (reads_recordError ..)
    · exact reads_addBlocks h (fun i t => ih ..) ..

omit hdescend in
/-- **A survey reads what its steps read.** -/
theorem reads_collect (maxDepth : Nat) (s : Statistics) :
    (s.collect sb maxDepth).Reads P image := by
  refine reads_bind (Query.reads_attempt (Inode.reads_read h.short _)) ?_
  split
  · exact reads_pure _
  · simp only
    split
    · exact reads_bind (reads_addTree h ..) (reads_bind (reads_report _) (reads_pure _))
    · exact reads_bind (reads_pure _) (reads_bind (reads_report _) (reads_pure _))

omit hdescend in
theorem reads_survey (maxDepth : Nat) (s : Statistics) :
    (s.survey sb maxDepth).Reads P image :=
  reads_bind (reads_collect h maxDepth s) (reads_pure _)

end Statistics

end Erofs
