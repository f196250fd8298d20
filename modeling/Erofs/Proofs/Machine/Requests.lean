import Erofs.Proofs.Machine.Directory
import Erofs.Proofs.Machine.OccupiedSize
import Erofs.Proofs.Machine.Storage
import Erofs.Proofs.Mount.Agreement
/-!
# Requests in words

Each request as a program that computes in words, and the proof that none
of them faults on a mounted image: every sum, difference, product and
shift on the way has its exact value, and everything that is taken out of
a string of bytes is there. What ties the bounds together is where the
answers of the image lie (`Request.Admissible`, `Placed`): a request may
be made with whatever the image gave out before, and with any number or
path.
-/

namespace Erofs.Machine

variable {α : Type} {image : ByteArray}

section
variable [Lz4.Compressor]

/-- The program of a request to an image with a superblock. -/
def program (sb : Superblock) : Request α → Program α
  | .loadSuperblock verify => loadSuperblock verify
  | .verifyChecksum => verifyChecksum sb
  | .readInode nid => readInode sb nid
  | .mapBlock i block => liftM (flatExtent sb i block)
  | .listDirectory i => listDirectory sb i
  | .advance c => advance sb c
  | .lookup path => lookup sb path
  | .resolve i => resolve sb i
  | .loadLcluster f lcn => loadLcluster f lcn
  | .extents f => extents sb f
  | .lastSize f map => lastSize sb f map
  | .packedSize f => occupiedSize sb f
  | .occupiedSize i => occupiedSizeOf sb i

/-- **The program of a request does what its query does**, without a
fault. -/
theorem program_matches {sb : Superblock} (hvalid : sb.validate = .ok ())
    (himage : image.size < 2 ^ 63) {r : Request α} (hr : r.Admissible image sb) :
    Program.Matches image (program sb r) (r.query sb) := by
  cases r with
  | loadSuperblock verify => exact loadSuperblock_matches verify
  | verifyChecksum => exact verifyChecksum_matches hvalid
  | readInode nid => exact readInode_matches hvalid himage nid
  | mapBlock i block =>
    exact Program.matches_of_exact (flatExtent_eq hvalid himage (Inode.Of.placed hr) block)
  | listDirectory i => exact listDirectory_matches hvalid himage (Inode.Of.placed hr)
  | advance c => exact advance_matches hvalid himage (Cursor.Of.placed hr)
  | lookup path => exact lookup_matches hvalid himage path
  | resolve i => exact resolve_matches hvalid himage (Inode.Of.placed hr)
  | loadLcluster f lcn =>
    exact loadLcluster_matches hvalid himage (CompressedFile.Of.placed hr) lcn
  | extents f => exact extents_matches hvalid himage (CompressedFile.Of.placed hr)
  | lastSize f map =>
    have hbits := lclusterBits_lt hvalid (CompressedFile.Of.placed hr.1)
    exact lastSize_matches hvalid hbits fun p hp => hr.2.placed hp
  | packedSize f => exact occupiedSize_matches hvalid himage (CompressedFile.Of.placed hr)
  | occupiedSize i => exact occupiedSizeOf_matches hvalid himage (Inode.Of.placed hr)

/-- **A mounted image is served without a fault.** An image in memory with
fewer than `2 ^ 63` bytes, on a device with blocks of any power of two
that has 32 bits, is mounted and put to any use; then every request runs
in words to the very answer that it has in exact arithmetic, and leaves
the same volume behind. -/
theorem served_without_fault (himage : image.size < 2 ^ 63) (w : Mounting image)
    (hbits : w.blockBits < 32) {maxDepth : Nat} {verify : Bool} {m n : Mount MemoryDevice}
    (hm : w.mount maxDepth verify = .ok m) (hn : m.Becomes n) (r : Request α)
    (hr : r.Admissible image m.superblock) :
    run n.volume (program m.superblock r) = some (n.volume.ask (r.query m.superblock)) := by
  have hspec := w.mount_spec maxDepth verify
  revert hspec
  cases (Superblock.load verify).onImage image with
  | error cause =>
    rintro ⟨journal, hfailed⟩
    cases hm.symm.trans hfailed
  | ok sb =>
    rintro ⟨m', hm', -, -, hserves⟩
    cases hm.symm.trans hm'
    have hserves' := hserves.of_becomes hn
    exact run_eq hserves'.delivers.toHolds hbits himage (program_matches hserves.valid himage hr)

end

section
attribute [local instance] Lz4.Compressor.greedy

/-- An image with blocks of 512 bytes. It begins with the inode of a
compressed file of 700 bytes and its full index: a compressed pcluster, and
a plain one. -/
def smallImage : ByteArray :=
  ⟨#[2, 0, 0, 0, 0xA4, 0x81, 1, 0, 0xBC, 2, 0, 0, 0, 0, 0, 0, 2]⟩ ++ zeros 31 ++
    ⟨#[1, 0, 0, 0, 2, 0, 0, 0, 0, 0, 0, 0, 3, 0, 0, 0]⟩ ++ zeros 960 ++
    ⟨#[0xE2, 0xE1, 0xF5, 0xE0, 0, 0, 0, 0, 0, 0, 0, 0, 9]⟩ ++ zeros 115

theorem size_smallImage : smallImage.size < 2 ^ 63 := by
  simp only [smallImage, ByteArray.size_append, size_zeros]
  decide

theorem onImage_smallImage :
    (do
      let sb ← Superblock.load false
      let i ← Inode.read sb 0
      i.occupiedSize sb : Query Nat).onImage smallImage = .ok 700 := by
  decide +kernel

/-- It is mounted from a device with blocks of 4096 bytes, and the occupied
size of the file is asked for. -/
theorem served_without_fault_smallImage :
    ∃ m i v, (Mounting.device 12 ⟨smallImage, 4096, size_smallImage⟩ rfl rfl 4 #[]).mount 8 false =
        .ok m ∧
      i.Of smallImage m.superblock ∧
      run m.volume (program m.superblock (.occupiedSize i)) = some (.ok 700, v) := by
  obtain ⟨sb, hload, h⟩ := Query.onImage_bind_eq_ok.mp onImage_smallImage
  obtain ⟨i, hi, hanswer⟩ := Query.onImage_bind_eq_ok.mp h
  have hspec :=
    (Mounting.device 12 ⟨smallImage, 4096, size_smallImage⟩ rfl rfl 4 #[]).mount_spec 8 false
  rw [hload] at hspec
  obtain ⟨m, hm, rfl, -, hserves⟩ := hspec
  have hadmissible : (Request.occupiedSize i).Admissible smallImage m.superblock := ⟨0, hi⟩
  have hrun :=
    served_without_fault size_smallImage _ (by decide) hm .refl (.occupiedSize i) hadmissible
  have hfst := hserves.delivers.ask_fst (Mount.reads_short hserves.valid hadmissible)
  have hvalue := congrArg some (Prod.ext (hfst.trans hanswer) rfl :
    m.volume.ask ((Request.occupiedSize i).query m.superblock) = (.ok 700, _))
  exact ⟨m, i, _, hm, hadmissible, hrun.trans hvalue⟩

end

end Erofs.Machine
