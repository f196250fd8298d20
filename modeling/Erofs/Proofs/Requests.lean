import Erofs.Mount
import Erofs.Proofs.Query
/-!
# Requests

A request is one of the operations on an image, with its arguments. What
it asks is a query that depends on the superblock alone (`query`), so what
is proved of all requests is proved query by query. Most arguments are
answers to earlier requests, and these have a provenance: an inode, a
compressed file, an extent map and a cursor are `Of` an image if it gives
them out.
-/

namespace Erofs

/-- An operation on an image with its arguments, by the type of its
answer. -/
inductive Request : Type → Type where
  | loadSuperblock (verify : Bool) : Request Superblock
  | verifyChecksum : Request Unit
  | readInode (nid : Nat) : Request Inode
  | mapBlock (i : Inode) (block : Nat) : Request FlatExtent
  | listDirectory (i : Inode) : Request (List DirectoryEntry)
  | advance (c : Cursor) : Request (Option DirectoryEntry × Cursor)
  | lookup (path : String) : Request Inode
  | resolve (i : Inode) : Request CompressedFile
  | loadLcluster (f : CompressedFile) (lcn : Nat) : Request Lcluster
  | extents (f : CompressedFile) : Request ExtentMap
  | lastSize (f : CompressedFile) (map : ExtentMap) : Request Nat
  | packedSize (f : CompressedFile) : Request Nat
  | occupiedSize (i : Inode) : Request Nat

/-- What a request asks of an image with a superblock. -/
def Request.query [Lz4.Compressor] {α : Type} (sb : Superblock) : Request α → Query α
  | loadSuperblock verify => Superblock.load verify
  | verifyChecksum => sb.verifyChecksum
  | readInode nid => Inode.read sb nid
  | mapBlock i block => liftM (i.flatExtent sb block)
  | listDirectory i => Directory.list sb i
  | advance c => c.advance sb
  | lookup path => Path.find sb path
  | resolve i => CompressedFile.resolve sb i
  | loadLcluster f lcn => f.loadLcluster lcn
  | extents f => f.extents sb
  | lastSize f map => f.lastSize sb map
  | packedSize f => f.occupiedSize sb
  | occupiedSize i => i.occupiedSize sb

/-- Serves a request. -/
def Mount.serve [Lz4.Compressor] {δ : Type} [BlockDevice δ] {α : Type} (m : Mount δ)
    (r : Request α) : Except Error α × Mount δ :=
  m.ask (r.query m.superblock)

variable {image : ByteArray} {sb : Superblock} {i : Inode}

/-! ## Provenance -/

/-- An inode that the image gives out. -/
def Inode.Of (image : ByteArray) (sb : Superblock) (i : Inode) : Prop :=
  ∃ nid, (Inode.read sb nid).onImage image = .ok i

/-- A compressed file that it gives out. -/
def CompressedFile.Of (image : ByteArray) (sb : Superblock) (f : CompressedFile) : Prop :=
  ∃ i : Inode, i.Of image sb ∧ (CompressedFile.resolve sb i).onImage image = .ok f

/-- An extent map that it gives out, or the empty one. -/
def ExtentMap.Of (image : ByteArray) (sb : Superblock) (map : ExtentMap) : Prop :=
  map = .empty ∨ ∃ f : CompressedFile, f.Of image sb ∧ (f.extents sb).onImage image = .ok map

/-- A cursor over a directory that it gives out. -/
inductive Cursor.Of (image : ByteArray) (sb : Superblock) : Cursor → Prop
  /-- It is at the start. -/
  | start {i : Inode} {d : Directory} : i.Of image sb → Directory.ofInode sb i = .ok d →
      Of image sb (start d)
  /-- It went on by an entry. -/
  | advance {c next : Cursor} {entry : Option DirectoryEntry} : Of image sb c →
      (c.advance sb).onImage image = .ok (entry, next) → Of image sb next
  /-- It failed. -/
  | finish {c : Cursor} : Of image sb c → Of image sb (finish c.directory)
  /-- It was set back. -/
  | rewind {c : Cursor} : Of image sb c → Of image sb c.rewind

/-- A request whose arguments are answers of the image; numbers and paths
may be anything. -/
def Request.Admissible (image : ByteArray) (sb : Superblock) {α : Type} : Request α → Prop
  | loadSuperblock _ | verifyChecksum | readInode _ | lookup _ => True
  | mapBlock i _ | listDirectory i | resolve i | occupiedSize i => i.Of image sb
  | advance c => c.Of image sb
  | loadLcluster f _ | extents f | packedSize f => f.Of image sb
  | lastSize f map => f.Of image sb ∧ map.Of image sb

/-- Every step of a path gives out an inode. -/
theorem Inode.of_step {part : String} {next : Inode}
    (h : (Path.step sb i part).onImage image = .ok next) : next.Of image sb := by
  unfold Path.step at h
  split at h
  · simp at h
  · obtain ⟨nid, -, h⟩ := Query.onImage_bind_eq_ok.mp h
    rw [Query.onImage_report_bind] at h
    exact ⟨nid, h⟩

end Erofs
