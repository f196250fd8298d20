import Erofs.Proofs.Reads
/-!
# Where the answers of an image lie

What an image gives out is bounded by the image. The record of an inode
ends inside it (`Inode.Placed`), and so does the map header of a compressed
file, which has no more lclusters than there are numbers for
(`CompressedFile.Placed`). A pcluster starts at an lcluster of its file, at
a place that has 16 bits (`Pcluster.Placed`). A cursor is never past the
last block of its directory (`Cursor.Placed`).
-/

-- The zero of a sum is the numeral.
attribute [local instance (high)] Zero.ofOfNat0

namespace Erofs

variable {image : ByteArray} {sb : Superblock} {i : Inode} {f : CompressedFile}

/-! ## Inodes -/

/-- The record of an inode lies in the image, and its extended attributes
have no more entries than 16 bits count. -/
structure Inode.Placed (image : ByteArray) (i : Inode) : Prop where
  le : i.position + i.version.recordSize ≤ image.size
  xattrSize_le : i.xattrSize ≤ 12 + 65534 * 4

theorem inlineXattrSize_le (count : UInt16) : inlineXattrSize count.toNat ≤ 12 + 65534 * 4 := by
  have h := count.toNat_lt
  unfold inlineXattrSize
  split <;> omega

/-- A range that is read lies in the image. -/
theorem le_of_onImage_bytes {offset length : Nat} {bytes : ByteArray}
    (h : (Query.bytes offset length).onImage image = .ok bytes) :
    offset + length ≤ image.size ∧ bytes.size = length := by
  rw [Query.onImage_bytes] at h
  obtain ⟨-, hle, rfl⟩ := imageRange_eq_ok.mp h
  exact ⟨hle, size_slice hle⟩

/-- The inode of a record at a place is there. -/
theorem Inode.placed_of_ofHead {nid position : Nat} {head : ByteArray}
    (hhead : position + InodeVersion.compact.recordSize ≤ image.size)
    (h : (ofHead sb nid position head).onImage image = .ok i) : i.Placed image := by
  obtain ⟨layout, -, h⟩ := Query.onImage_bind_eq_ok.mp h
  split at h
  · obtain ⟨record, -, h⟩ := Query.onImage_bind_eq_ok.mp h
    obtain ⟨type, -, h⟩ := Query.onImage_bind_eq_ok.mp h
    cases h
    exact ⟨hhead, inlineXattrSize_le _⟩
  · obtain ⟨tail, htail, h⟩ := Query.onImage_bind_eq_ok.mp h
    obtain ⟨record, -, h⟩ := Query.onImage_bind_eq_ok.mp h
    obtain ⟨type, -, h⟩ := Query.onImage_bind_eq_ok.mp h
    cases h
    have hle := (le_of_onImage_bytes htail).1
    refine ⟨?_, inlineXattrSize_le _⟩
    simp only [Inode.ofExtended, InodeVersion.recordSize] at hle ⊢
    omega

/-- **An inode that an image gives out lies in it.** -/
theorem Inode.Of.placed (h : i.Of image sb) : i.Placed image := by
  obtain ⟨nid, h⟩ := h
  obtain ⟨position, -, h⟩ := Query.onImage_bind_eq_ok.mp h
  obtain ⟨head, hhead, h⟩ := Query.onImage_bind_eq_ok.mp h
  obtain ⟨inode, hinode, h⟩ := Query.onImage_bind_eq_ok.mp h
  rw [Query.onImage_report_bind] at h
  cases h
  exact placed_of_ofHead (le_of_onImage_bytes hhead).1 hinode

/-- A file has no more blocks than there are numbers for. -/
theorem Inode.le_of_blockCount {count : Nat} (h : i.blockCount sb = .ok count) :
    count = unitsCovering i.size.toNat sb.bits ∧ count ≤ maxAddressableUnits := by
  unfold blockCount at h
  simp only at h
  split at h
  · cases h
  · next hle =>
    cases h
    exact ⟨rfl, Nat.le_of_not_lt hle⟩

/-- A unit of those that cover some bytes starts before their end. -/
theorem mul_lt_of_lt_unitsCovering {size bits unit : Nat} (h : unit < unitsCovering size bits) :
    unit * 2 ^ bits < size := by
  have hpos := Nat.two_pow_pos bits
  have h := (Nat.le_div_iff_mul_le hpos).mp (Nat.succ_le_of_lt h)
  rw [Nat.succ_mul] at h
  omega

/-- And all of them together reach their end. -/
theorem le_unitsCovering_mul (size bits : Nat) : size ≤ unitsCovering size bits * 2 ^ bits := by
  have hpos := Nat.two_pow_pos bits
  have h := Nat.div_add_mod (size + (2 ^ bits - 1)) (2 ^ bits)
  have hmod := Nat.mod_lt (size + (2 ^ bits - 1)) hpos
  rw [unitsCovering, Nat.mul_comm]
  omega

/-! ## Compressed files -/

/-- The map header of a compressed file ends inside the image, and the
numbers of its lclusters have 32 bits. -/
structure CompressedFile.Placed (image : ByteArray) (sb : Superblock) (f : CompressedFile) : Prop
    extends Resolved sb f where
  headerEnd_le : f.headerEnd ≤ image.size
  count_le : f.lclusterCount ≤ maxAddressableUnits

/-- **A compressed file that an image gives out lies in it.** -/
theorem CompressedFile.placed_of_resolve (h : (resolve sb i).onImage image = .ok f) :
    f.Placed image sb := by
  obtain ⟨format, bytes, header, hbytes, hfile, hvalid⟩ := exists_header_of_resolve h
  refine ⟨resolved_of_resolve h, ?_, lclusterCount_le hvalid⟩
  rw [(ofHeader_eq_ok hfile).1]
  exact (le_of_onImage_bytes hbytes).1

theorem CompressedFile.Of.placed (h : f.Of image sb) : f.Placed image sb := by
  obtain ⟨i, -, h⟩ := h
  exact placed_of_resolve h

/-! ## Pclusters -/

/-- A pcluster starts at an lcluster whose number has 32 bits, at a place
in it that has 16 bits, and so has the number of its blocks. -/
structure Pcluster.Placed (p : Pcluster) : Prop where
  lcn_lt : p.lcn < maxAddressableUnits
  offset_lt : p.offset < 2 ^ 16
  blocks_lt : p.blocks < 2 ^ 16

/-- **A pcluster that an index records is placed.** -/
theorem CompressedFile.Placed.placed_of_recorded (r : f.Placed image sb) {p : Pcluster}
    (h : f.Recorded sb image p) : p.Placed where
  lcn_lt := Nat.lt_of_lt_of_le h.lt r.count_le
  blocks_lt := blocks_lt_of_recorded r.toResolved h
  offset_lt := small_of_loadLcluster r.toResolved h.load

/-- So is every pcluster of a map that an image gives out. -/
theorem ExtentMap.Of.placed {map : ExtentMap} (h : map.Of image sb) {p : Pcluster}
    (hp : p ∈ map.pclusters) : p.Placed := by
  rcases h with rfl | ⟨f, hf, hmap⟩
  · cases hp
  · exact hf.placed.placed_of_recorded
      ((CompressedFile.walks_of_extents hmap).2.recorded hp)

/-- Pclusters that have no more bytes than a bound have together no more than
their number times it. -/
theorem sum_blocks_mul_le {ps : List Pcluster} {size room : Nat}
    (h : ∀ p ∈ ps, p.blocks * size ≤ room) :
    (ps.map Pcluster.blocks).sum * size ≤ ps.length * room := by
  induction ps with
  | nil => simp
  | cons p ps ih =>
    have hp := h p List.mem_cons_self
    have hps := ih fun q hq => h q (List.mem_cons_of_mem _ hq)
    rw [List.map_cons, List.sum_cons, Nat.add_mul, List.length_cons, Nat.add_mul, Nat.one_mul]
    omega

/-! ## Walks -/

namespace CompressedFile

/-- A walk records one pcluster an lcluster at most. -/
theorem Walks.length_le {lcn : Nat} {ps : List Pcluster} (h : f.Walks sb image lcn ps) :
    ps.length ≤ f.lclusterCount - lcn := by
  induction h with
  | done => exact Nat.zero_le _
  | head hrecorded _ ih =>
    have hlt := hrecorded.lt
    rw [List.length_cons]
    omega
  | inner _ _ _ ih => exact Nat.le_trans ih (Nat.sub_le_sub_left (Nat.le_add_right ..) _)

/-- Where lclusters are larger than blocks, a pcluster fills one. -/
theorem Placed.blocks_eq (r : f.Placed image sb) (hne : f.lclusterBits ≠ sb.bits) {p : Pcluster}
    (h : f.Recorded sb image p) : p.blocks = 2 ^ (f.lclusterBits - sb.bits) := by
  have hsmall : f.hasBig p.storage = false := by
    have hvalid := r.valid
    unfold validate at hvalid
    cases p.storage <;> simp only [hasBig] <;> grind
  have hblocks := h.blocks
  rw [pclusterBlocks_of_not_big hsmall, Except.ok.injEq] at hblocks
  exact hblocks.symm

end CompressedFile

/-! ## Directories and cursors -/

/-- A directory is an inode of the image with the number of its blocks. -/
structure Directory.Placed (image : ByteArray) (sb : Superblock) (d : Directory) : Prop where
  inode : d.inode.Placed image
  count : d.inode.blockCount sb = .ok d.blockCount

theorem Directory.placed_of_ofInode {d : Directory} (hi : i.Placed image)
    (h : ofInode sb i = .ok d) : d.Placed image sb := by
  unfold ofInode at h
  split at h
  · cases h
  · split at h
    · cases h
    · cases hcount : i.blockCount sb with
      | error cause => simp [hcount, Except.map] at h
      | ok count =>
        simp only [hcount, Except.map, Except.ok.injEq] at h
        subst h
        exact ⟨hi, hcount⟩

/-- A cursor is at a place in such a directory. -/
structure Cursor.Placed (image : ByteArray) (sb : Superblock) (c : Cursor) : Prop where
  directory : c.directory.Placed image sb
  le : c.blocksLeft ≤ c.directory.blockCount

/-- A cursor stays in its directory and goes on in it. -/
theorem Cursor.le_of_advanceFrom {d : Directory} {pending : Listing} {left : Nat}
    {entry : Option DirectoryEntry} {next : Cursor}
    (h : (advanceFrom sb d pending left).onImage image = .ok (entry, next)) :
    next.directory = d ∧ next.blocksLeft ≤ left := by
  induction pending, left using advanceFrom.induct with
  | case1 left e rest fault =>
    rw [advanceFrom] at h
    cases h
    exact ⟨rfl, Nat.le_refl _⟩
  | case2 left cause =>
    rw [advanceFrom] at h
    simp at h
  | case3 =>
    rw [advanceFrom] at h
    cases h
    exact ⟨rfl, Nat.le_refl _⟩
  | case4 left ih =>
    rw [advanceFrom] at h
    obtain ⟨listing, -, h⟩ := Query.onImage_bind_eq_ok.mp h
    obtain ⟨hd, hle⟩ := ih listing h
    exact ⟨hd, Nat.le_succ_of_le hle⟩

/-- **A cursor that an image gives out is placed.** -/
theorem Cursor.Of.placed {c : Cursor} (h : c.Of image sb) : c.Placed image sb := by
  induction h with
  | start hi hd => exact ⟨Directory.placed_of_ofInode hi.placed hd, Nat.le_refl _⟩
  | advance _ h ih =>
    obtain ⟨hd, hle⟩ := le_of_advanceFrom h
    exact ⟨hd ▸ ih.directory, hd ▸ Nat.le_trans hle ih.le⟩
  | finish _ ih => exact ⟨ih.directory, Nat.zero_le _⟩
  | rewind _ ih => exact ⟨ih.directory, Nat.le_refl _⟩

end Erofs
