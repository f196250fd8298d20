import Erofs.Proofs.Directory.Contents
import Erofs.Proofs.Directory.Encoding
import Erofs.Proofs.Placement
/-!
# Reading what was written

A written directory is read again, name by name and block by block. The
number of entries of a block is found from where its first name starts,
and the length of a name from where the next one starts, or from the first
zero behind the last (`DirectoryBlock.nameLength_eq`). The blocks are
found whether they lie in a row or the last one follows the inode
(`Inode.Stores`), so a directory that lies in an image lists the very
entries that were written (`listDirectory_of_writable`).
-/

namespace Erofs

variable {image b : ByteArray} {sb : Superblock} {offset start nid number blockSize : Nat}
variable {entries before after : List DirectoryEntry} {e : DirectoryEntry}

/-! ## Blocks -/

/-- Bytes that stand in an image are read from there. -/
theorem HoldsAt.onImage_bytes {bytes : List UInt8} (h : HoldsAt image offset bytes)
    (hne : bytes ≠ []) (himage : image.size < addressLimit) :
    (Query.bytes offset bytes.length).onImage image = .ok ⟨bytes.toArray⟩ := by
  have hend := h.le hne
  rw [Query.onImage_bytes, imageRange_eq_ok]
  exact ⟨by omega, hend, h.slice_eq.symm⟩

/-- An inode is decoded from the record of it that stands in an image. -/
theorem Inode.onImage_read_of_holdsAt {position : Nat} {record : List UInt8}
    (hposition : sb.inodePosition nid = .ok position) (h : HoldsAt image position record)
    (hlength : record.length = InodeVersion.compact.recordSize)
    (himage : image.size < addressLimit) :
    (Inode.read sb nid).onImage image =
      (Inode.ofHead sb nid position ⟨record.toArray⟩).onImage image := by
  have hne : record ≠ [] := by
    rintro rfl
    cases hlength
  have hhead := h.onImage_bytes hne himage
  rw [hlength] at hhead
  rw [Inode.read, Query.onImage_bind_of_ok ((Query.onImage_liftM _).trans hposition),
    Query.onImage_bind_of_ok hhead, Query.onImage_bind]
  cases (ofHead sb nid position ⟨record.toArray⟩).onImage image with
  | error cause => rfl
  | ok i => exact Query.onImage_report_bind ..

theorem toList_extract_size (b : ByteArray) (start : Nat) :
    (b.extract start b.size).data.toList = b.data.toList.drop start := by
  rw [ByteArray.data_extract, Array.toList_extract, List.extract_eq_take_drop]
  exact List.take_of_length_le (Nat.le_of_eq List.length_drop)

/-- Bytes that are not zero end at the zeros behind them. -/
theorem takeWhile_append_zeros {l : List UInt8} (h : 0 ∉ l) (n : Nat) :
    (l ++ List.replicate n 0).takeWhile (· != 0) = l := by
  have hall : ∀ x ∈ l, (x != 0) = true := fun x hx => by
    rw [bne_iff_ne]
    rintro rfl
    exact h hx
  rw [List.takeWhile_append_of_pos hall]
  cases n <;> simp [List.replicate_succ]

/-- The record of an entry is read where it stands. -/
theorem DirectoryRecord.decodeAt_of_holdsAt (h : HoldsAt b offset (e.record start))
    (hnid : e.nid < 2 ^ 64) (hstart : start < 2 ^ 16) :
    ∃ r, decodeAt b offset = .ok r ∧ r.nid.toNat = e.nid ∧ r.nameOffset.toNat = start ∧
      r.typeCode = e.typeCode := by
  have hle := h.le (by simp [DirectoryEntry.record])
  rw [DirectoryEntry.length_record] at hle
  have hnumber : littleEndian b offset 8 = e.nid % 256 ^ 8 := h.left.left.littleEndian_eq
  have hname : littleEndian b (offset + 8) 2 = start % 256 ^ 2 := h.left.right.littleEndian_eq
  have htype : byteAt b (offset + 10) = e.typeCode := h.right.byteAt_eq
  refine ⟨_, by rw [decodeAt, if_neg (by omega)], ?_, ?_, htype⟩
  · simp only [u64At, hnumber, Nat.toUInt64_eq, UInt64.toNat_ofNat']
    omega
  · simp only [u16At, hname, Nat.toUInt16_eq, UInt16.toNat_ofNat']
    omega

namespace DirectoryBlock

/-- A written block, filled up with some zeros. -/
def padded (entries : List DirectoryEntry) (pad : Nat) : ByteArray :=
  ⟨(encode entries ++ List.replicate pad 0).toArray⟩

variable (pad : Nat)

theorem size_padded : (padded entries pad).size = (encode entries).length + pad := by
  change (encode entries ++ List.replicate pad 0).toArray.size = _
  simp

theorem holdsAt_padded : HoldsAt (padded entries pad) 0 (encode entries) :=
  List.prefix_append ..

/-- The record of an entry stands behind those of the entries before it. -/
theorem holdsAt_record :
    HoldsAt (padded (before ++ e :: after) pad) (before.length * DirectoryRecord.recordSize)
      (e.record (namesStart (before ++ e :: after) + (names before).length)) := by
  have h : HoldsAt (padded (before ++ e :: after) pad) 0
      (records (namesStart (before ++ e :: after)) (before ++ e :: after)) :=
    (holdsAt_padded pad).left
  rw [records_append] at h
  have hrecord := h.right
  rw [length_records, Nat.zero_add] at hrecord
  exact hrecord.left

/-- Its name stands behind their names, and after it the names of the
entries after it. -/
theorem drop_names :
    (padded (before ++ e :: after) pad).data.toList.drop
        (namesStart (before ++ e :: after) + (names before).length) =
      e.name.data.toList ++ (names after ++ List.replicate pad 0) := by
  change (encode (before ++ e :: after) ++ List.replicate pad 0).drop _ = _
  rw [encode, List.append_assoc, ← List.drop_drop, List.drop_left' (length_records ..),
    names_append, names_cons, List.append_assoc, List.drop_left, List.append_assoc]

/-- A written name can be cut out. -/
theorem holdsAt_name (before after : List DirectoryEntry) (e : DirectoryEntry) :
    HoldsAt (padded (before ++ e :: after) pad)
      (namesStart (before ++ e :: after) + (names before).length) e.name.data.toList := by
  rw [HoldsAt, drop_names]
  exact List.prefix_append ..

/-- The names of some entries end inside a written block. -/
theorem namesStart_add_le (hsize : (encode (before ++ after)).length ≤ blockSize) :
    namesStart (before ++ after) + (names before).length + (names after).length ≤ blockSize := by
  rw [length_encode, names_append, List.length_append] at hsize
  omega

section

variable (h : Writable blockSize (before ++ e :: after)) (hblock : blockSize ≤ 2 ^ 16)
include h hblock

theorem start_lt :
    namesStart (before ++ e :: after) + (names before).length < 2 ^ 16 := by
  have hle := namesStart_add_le h.length_le
  have hpos := (h.entry (List.mem_append_right before (List.mem_cons_self ..))).name_pos
  have hname : e.name.size ≤ (names (e :: after)).length := by
    rw [names_cons, List.length_append]
    exact Nat.le_add_right ..
  omega

/-- **The record of an entry is read** with the place of its name. -/
theorem ofIndex_eq :
    ∃ r, DirectoryRecord.ofIndex (padded (before ++ e :: after) pad) before.length = .ok r ∧
      r.nid.toNat = e.nid ∧ r.typeCode = e.typeCode ∧
      r.nameOffset.toNat = namesStart (before ++ e :: after) + (names before).length := by
  have hentry := h.entry (List.mem_append_right before (List.mem_cons_self ..))
  obtain ⟨r, hr, hnid, hoffset, htype⟩ :=
    DirectoryRecord.decodeAt_of_holdsAt (holdsAt_record pad) hentry.nid_lt
      (start_lt h hblock)
  exact ⟨r, hr, hnid, htype, hoffset⟩

/-- **The length of a name is found**: it ends where the next one starts,
and the last one at the first zero or with the block. -/
theorem nameLength_eq :
    Listing.nameLength (before ++ e :: after).length (padded (before ++ e :: after) pad)
      before.length (namesStart (before ++ e :: after) + (names before).length) =
        .ok e.name.size := by
  unfold Listing.nameLength
  cases after with
  | nil =>
    have hzero : 0 ∉ e.name.data.toList := h.last (by simp)
    rw [if_neg (by simp)]
    rw [toList_extract_size, drop_names, names, List.flatMap_nil, List.nil_append,
      takeWhile_append_zeros hzero]
    rfl
  | cons next rest =>
    rw [if_pos (by simp)]
    -- seen from the next entry, this one is the last before it
    have hsplit : before ++ e :: next :: rest = (before ++ [e]) ++ next :: rest := by simp
    rw [hsplit] at h ⊢
    obtain ⟨r, hr, -, -, hoffset⟩ := ofIndex_eq pad h hblock
    rw [List.length_append, List.length_singleton] at hr
    rw [hr]
    have hstop : r.nameOffset.toNat =
        namesStart (before ++ [e] ++ next :: rest) + (names before).length + e.name.size := by
      rw [hoffset, names_append, List.length_append, Nat.add_assoc]
      simp [names]
    simp only [bind, Except.bind, hstop]
    rw [if_neg (by omega), Nat.add_sub_cancel_left]

/-- **An entry is read** as it was written. -/
theorem entryAt_eq :
    Listing.entryAt nid (before ++ e :: after).length (padded (before ++ e :: after) pad)
      before.length = .ok e := by
  have hentry := h.entry (List.mem_append_right before (List.mem_cons_self ..))
  obtain ⟨r, hr, hnid, htype, hoffset⟩ := ofIndex_eq pad h hblock
  have hname : slice (padded (before ++ e :: after) pad)
      (namesStart (before ++ e :: after) + (names before).length) e.name.size = e.name :=
    (holdsAt_name pad before after e).slice_eq
  have hstop := (holdsAt_name pad before after e).le
    (List.length_pos_iff.mp hentry.name_pos)
  change _ + e.name.size ≤ _ at hstop
  have hpos := hentry.name_pos
  have hlength := hentry.name_le
  unfold Listing.entryAt
  rw [hr]
  simp only [bind, Except.bind, hoffset]
  rw [if_neg (by rw [← namesStart]; omega), nameLength_eq pad h hblock]
  simp only
  rw [if_neg (by omega), hname, hnid, htype]

end

section

variable (h : Writable blockSize entries) (hblock : blockSize ≤ 2 ^ 16)
include h hblock

/-- So are the last entries of a block. -/
theorem lastEntries_eq (hsplit : entries = before ++ after) :
    Listing.lastEntries nid entries.length (padded entries pad) after.length = ⟨after, none⟩ := by
  induction after generalizing before with
  | nil => rfl
  | cons e rest ih =>
    subst hsplit
    have hindex : (before ++ e :: rest).length - (rest.length + 1) = before.length := by simp
    rw [List.length_cons, Listing.lastEntries, hindex, entryAt_eq pad h hblock]
    simp only
    rw [ih (List.append_cons before e rest)]
    rfl

/-- **A written block is read**, whatever fills it up. -/
theorem ofBlock_eq (nid number : Nat) :
    Listing.entryCount blockSize nid number (padded entries pad) = .ok entries.length ∧
      Listing.ofBlock nid entries.length (padded entries pad) = ⟨entries, none⟩ := by
  refine ⟨?_, lastEntries_eq pad h hblock (List.nil_append entries).symm⟩
  obtain ⟨e, rest, rfl⟩ := List.exists_cons_of_ne_nil h.ne_nil
  have hfirst : Writable blockSize ([] ++ e :: rest) := h
  obtain ⟨r, hr, -, -, hoffset⟩ := ofIndex_eq pad hfirst hblock
  have hstart : r.nameOffset.toNat = namesStart (e :: rest) := hoffset
  have hsize : namesStart (e :: rest) ≤ (padded (e :: rest) pad).size := by
    rw [size_padded, length_encode]
    omega
  have hpos := (h.entry (List.mem_cons_self ..)).name_pos
  have hlt : namesStart (e :: rest) < blockSize := by
    have hle := h.length_le
    rw [length_encode, names_cons, List.length_append] at hle
    change _ + (e.name.size + _) ≤ _ at hle
    omega
  have hrecord : DirectoryRecord.recordSize ≤ namesStart (e :: rest) :=
    Nat.le_mul_of_pos_left _ (Nat.succ_pos _)
  unfold Listing.entryCount
  rw [List.length_nil] at hr
  simp only [List.nil_append] at hr
  rw [hr]
  simp only [bind, Except.bind, hstart]
  rw [if_neg (by omega), namesStart, Nat.mul_div_cancel _ (by decide)]

end

end DirectoryBlock

/-! ## Data of an inode -/

/-- Where the data of an inode lie that is not compressed. -/
inductive Inode.Stores (image : ByteArray) (sb : Superblock) (i : Inode) : List UInt8 → Prop
  /-- In consecutive blocks. -/
  | plain {first : UInt32} {content : List UInt8} : i.layout = .flatPlain →
      i.firstBlock? = some first → i.size.toNat = content.length →
      HoldsAt image (sb.blockStart first.toNat) content → Stores image sb i content
  /-- In consecutive blocks, but for the last block, which follows the
  inode, in the block of the image that it starts in. -/
  | inline {first : UInt32} {front tail : List UInt8} {count : Nat} : i.layout = .flatInline →
      i.firstBlock? = some first → i.size.toNat = (front ++ tail).length →
      front.length = count * sb.blockSize → 0 < tail.length →
      sb.offsetInBlock i.inlineDataPosition + tail.length ≤ sb.blockSize →
      HoldsAt image (sb.blockStart first.toNat) front →
      HoldsAt image i.inlineDataPosition tail → Stores image sb i (front ++ tail)

/-- Some whole units, and one that need not be whole. -/
theorem unitsCovering_add {count length bits : Nat} (hpos : 0 < length)
    (hle : length ≤ 2 ^ bits) : unitsCovering (count * 2 ^ bits + length) bits = count + 1 := by
  have hunit := Nat.two_pow_pos bits
  rw [unitsCovering, Nat.add_assoc, Nat.add_comm, Nat.add_mul_div_right _ _ hunit,
    Nat.div_eq_of_lt_le (k := 1) (by omega) (by omega), Nat.add_comm]

namespace Inode

variable {i : Inode} {content : List UInt8}

theorem Stores.size_eq (h : i.Stores image sb content) : i.size.toNat = content.length := by
  cases h with
  | plain _ _ hsize _ => exact hsize
  | inline _ _ hsize _ _ _ _ _ => exact hsize

theorem Stores.not_compressed (h : i.Stores image sb content) : i.isCompressed = false := by
  cases h with
  | plain hlayout _ _ _ => rw [isCompressed, hlayout]; rfl
  | inline hlayout _ _ _ _ _ _ _ => rw [isCompressed, hlayout]; rfl

/-- The blocks of the data are counted, unless 32 bits are too few to number
them. -/
theorem Stores.blockCount_eq (h : i.Stores image sb content) :
    i.blockCount sb =
      if unitsCovering content.length sb.bits ≤ maxAddressableUnits then
        .ok (unitsCovering content.length sb.bits)
      else .error (.tooManyBlocks i.nid content.length) := by
  rw [blockCount, h.size_eq]
  split
  · next hmany => rw [if_neg (Nat.not_le.mpr hmany)]
  · next hfew => rw [if_pos (Nat.le_of_not_lt hfew)]

/-- **Every block of the data is found.** -/
theorem Stores.exists_flatExtent (h : i.Stores image sb content)
    (hfew : unitsCovering content.length sb.bits ≤ maxAddressableUnits)
    (hnumber : number * sb.blockSize < content.length) :
    ∃ extent, i.flatExtent sb number = .ok extent ∧
      extent.length = ((content.drop (number * sb.blockSize)).take sb.blockSize).length ∧
      HoldsAt image extent.offset
        ((content.drop (number * sb.blockSize)).take sb.blockSize) := by
  have hcovered := le_unitsCovering_mul content.length sb.bits
  have hcount : number < unitsCovering content.length sb.bits :=
    Nat.lt_of_mul_lt_mul_right (Nat.lt_of_lt_of_le hnumber hcovered)
  have hlength : i.blockLength sb number =
      ((content.drop (number * sb.blockSize)).take sb.blockSize).length := by
    rw [blockLength, h.size_eq, List.length_take, List.length_drop]
  rw [flatExtent, h.blockCount_eq, if_pos hfew]
  simp only [bind, Except.bind]
  rw [if_neg (Nat.not_le.mpr hcount), h.not_compressed, if_neg Bool.false_ne_true, hlength]
  cases h with
  | @plain first _ hlayout hfirst hsize hholds =>
    rw [if_neg (by simp [hlayout]), plainExtent, hfirst]
    refine ⟨_, rfl, rfl, ?_⟩
    simp only [Superblock.blockStart, Nat.add_mul]
    exact hholds.drop_take (Nat.le_of_lt hnumber)
  | @inline first front tail count hlayout hfirst hsize hfront hpos hfits hholds htail =>
    have htotal : unitsCovering (front ++ tail).length sb.bits = count + 1 := by
      rw [List.length_append, hfront]
      exact unitsCovering_add hpos (by rw [← Superblock.blockSize]; omega)
    rw [htotal] at hcount ⊢
    rcases Nat.lt_succ_iff_lt_or_eq.mp hcount with hlt | rfl
    · -- the block is one of those before the tail
      have hle : (number + 1) * sb.blockSize ≤ front.length :=
        hfront ▸ Nat.mul_le_mul_right _ hlt
      rw [Nat.succ_mul] at hle
      rw [if_neg (by omega), plainExtent, hfirst]
      refine ⟨_, rfl, rfl, ?_⟩
      rw [List.drop_append_of_le_length (by omega),
        List.take_append_of_le_length (by rw [List.length_drop]; omega)]
      simp only [Superblock.blockStart, Nat.add_mul]
      exact hholds.drop_take (by omega)
    · have hlast : ((front ++ tail).drop (number * sb.blockSize)).take sb.blockSize = tail := by
        rw [← hfront, List.drop_left]
        exact List.take_of_length_le (by omega)
      rw [hlast, if_pos ⟨hlayout, rfl⟩, inlineExtent, if_neg (by omega)]
      exact ⟨_, rfl, rfl, htail⟩

end Inode

/-! ## Directories -/

namespace Directory

variable {i : Inode} {d : Directory} {lastLength : Nat}
variable {blocks front rest : List (List DirectoryEntry)}

/-- A written directory has as many blocks as were written. -/
theorem Writable.unitsCovering_eq (hw : Writable sb.blockSize lastLength blocks) :
    unitsCovering (encode sb.blockSize lastLength blocks).length sb.bits = blocks.length := by
  rw [hw.length_encode, Superblock.blockSize, unitsCovering_add hw.lastLength_pos hw.lastLength_le,
    Nat.sub_add_cancel (List.length_pos_iff.mpr hw.ne_nil)]

/-- A block of a written directory that lies in an image is loaded. -/
theorem onImage_loadBlock (himage : image.size < addressLimit) (hbits : sb.bits ≤ 16)
    (hw : Writable sb.blockSize lastLength blocks)
    (hs : d.inode.Stores image sb (encode sb.blockSize lastLength blocks))
    (hfew : blocks.length ≤ maxAddressableUnits) (hsplit : blocks = front ++ entries :: rest) :
    (d.loadBlock sb front.length).onImage image = .ok ⟨entries, none⟩ := by
  have hblock : sb.blockSize ≤ 2 ^ 16 := Nat.pow_le_pow_right (by decide) hbits
  have hentries : DirectoryBlock.Writable sb.blockSize entries :=
    hw.block (hsplit ▸ List.mem_append_right front (List.mem_cons_self ..))
  have hcovered : unitsCovering (encode sb.blockSize lastLength blocks).length sb.bits =
      blocks.length := hw.unitsCovering_eq
  have hchunk := hw.take_drop_encode hsplit
  have hle := hw.le_filledLength hsplit
  have hpos := hentries.length_pos
  have hfilled := Writable.length_rightpad_eq hle
  have hnumber : front.length * sb.blockSize < (encode sb.blockSize lastLength blocks).length := by
    have hlength := congrArg List.length hchunk
    rw [hfilled, List.length_take, List.length_drop] at hlength
    omega
  obtain ⟨extent, hextent, hlength, hholds⟩ :=
    hs.exists_flatExtent (hcovered ▸ hfew) hnumber
  rw [hchunk] at hlength hholds
  have hbytes : (Query.bytes extent.offset extent.length).onImage image =
      .ok (DirectoryBlock.padded entries
        (filledLength sb.blockSize lastLength rest - (DirectoryBlock.encode entries).length)) := by
    rw [hlength]
    exact hholds.onImage_bytes (List.length_pos_iff.mp (by omega)) himage
  rw [loadBlock, Query.onImage_bind_of_ok ((Query.onImage_liftM _).trans hextent),
    Query.onImage_bind_of_ok hbytes]
  obtain ⟨hcount, hlisting⟩ := DirectoryBlock.ofBlock_eq
    (filledLength sb.blockSize lastLength rest - (DirectoryBlock.encode entries).length)
    hentries hblock d.inode.nid front.length
  rw [Query.onImage_bind_of_ok ((Query.onImage_liftM _).trans hcount), Query.onImage_report_bind,
    Query.onImage_pure, hlisting]

/-- So are all the last blocks. -/
theorem contentsFrom_eq (himage : image.size < addressLimit) (hbits : sb.bits ≤ 16)
    (hw : Writable sb.blockSize lastLength blocks)
    (hs : d.inode.Stores image sb (encode sb.blockSize lastLength blocks))
    (hfew : blocks.length ≤ maxAddressableUnits) (hcount : d.blockCount = blocks.length)
    (hsplit : blocks = front ++ rest) :
    d.contentsFrom image sb rest.length = ⟨rest.flatten, none⟩ := by
  induction rest generalizing front with
  | nil => rfl
  | cons entries rest ih =>
    have hnumber : d.blockCount - (rest.length + 1) = front.length := by
      rw [hcount, hsplit, List.length_append, List.length_cons]
      omega
    have hnext : blocks = (front ++ [entries]) ++ rest := by
      rw [hsplit, List.append_cons]
    rw [List.length_cons, contentsFrom, hnumber,
      block_of_ok (onImage_loadBlock himage hbits hw hs hfew hsplit), ih hnext]
    rfl

/-- **What a written directory holds** are the entries that were written, if
32 bits are enough to number its blocks. -/
theorem contents_of_writable (himage : image.size < addressLimit) (hbits : sb.bits ≤ 16)
    (hdirectory : i.isDirectory) (hw : Writable sb.blockSize lastLength blocks)
    (hs : i.Stores image sb (encode sb.blockSize lastLength blocks))
    (hfew : blocks.length ≤ maxAddressableUnits) :
    i.contents image sb = ⟨blocks.flatten, none⟩ := by
  have hcount := hs.blockCount_eq
  rw [hw.unitsCovering_eq, if_pos hfew] at hcount
  have hd : ofInode sb i = .ok ⟨i, blocks.length⟩ := by
    simp [ofInode, hdirectory, hs.not_compressed, hcount, Except.map]
  rw [contents_of_ofInode hd]
  exact contentsFrom_eq himage hbits hw hs hfew rfl (List.nil_append blocks).symm

/-- If they are not, it is refused before a block is read. -/
theorem contents_of_many (hdirectory : i.isDirectory)
    (hw : Writable sb.blockSize lastLength blocks)
    (hs : i.Stores image sb (encode sb.blockSize lastLength blocks))
    (hmany : maxAddressableUnits < blocks.length) :
    i.contents image sb = ⟨[], some (.tooManyBlocks i.nid i.size.toNat)⟩ := by
  have hcount := hs.blockCount_eq
  rw [hw.unitsCovering_eq, if_neg (Nat.not_le.mpr hmany), ← hs.size_eq] at hcount
  have hd : ofInode sb i = .error (.tooManyBlocks i.nid i.size.toNat) := by
    simp [ofInode, hdirectory, hs.not_compressed, hcount, Except.map]
  rw [Inode.contents, hd]

end Directory

section

variable {δ : Type} [BlockDevice δ] {m : Mount δ} {deviceBlockSize lastLength : Nat} {i : Inode}
variable {blocks : List (List DirectoryEntry)}

/-- A directory of too many blocks is not listed. -/
theorem Mount.Serves.listDirectory_of_many (hm : m.Serves image deviceBlockSize)
    (hdirectory : i.isDirectory)
    (hw : Directory.Writable m.superblock.blockSize lastLength blocks)
    (hs : i.Stores image m.superblock
      (Directory.encode m.superblock.blockSize lastLength blocks))
    (hmany : maxAddressableUnits < blocks.length) :
    (m.listDirectory i).1 = .error (.tooManyBlocks i.nid i.size.toNat) := by
  rw [hm.listDirectory_fst, Directory.contents_of_many hdirectory hw hs hmany]
  rfl

/-- **A written directory lists the entries that were written**, in order
and with every byte of their names, if 32 bits are enough to number its
blocks, and is refused if they are not. The blocks may have any size that
is accepted, and the last one may be filled up to any length; they may lie
in a row or have an inline tail. -/
theorem Mount.listDirectory_of_writable (hm : m.Serves image deviceBlockSize)
    (himage : image.size < addressLimit) (hdirectory : i.isDirectory)
    (hw : Directory.Writable m.superblock.blockSize lastLength blocks)
    (hs : i.Stores image m.superblock
      (Directory.encode m.superblock.blockSize lastLength blocks)) :
    (m.listDirectory i).1 =
      if blocks.length ≤ maxAddressableUnits then .ok blocks.flatten
      else .error (.tooManyBlocks i.nid i.size.toNat) := by
  split
  · next hfew =>
    have hbits := (Superblock.bits_of_validate hm.valid).2
    rw [hm.listDirectory_fst, Directory.contents_of_writable himage hbits hdirectory hw hs hfew]
    rfl
  · next hmany => exact hm.listDirectory_of_many hdirectory hw hs (Nat.lt_of_not_le hmany)

end

/-! ## A small tree

An image with blocks of 512 bytes for concrete cases. Its root directory
has two blocks, of which the second follows the inode, and one name with a
zero in it. -/

/-- The compact record of an inode with one link. -/
def compactRecord (format mode size payload : Nat) : List UInt8 :=
  bytesOf 2 format ++ bytesOf 2 0 ++ bytesOf 2 mode ++ bytesOf 2 1 ++ bytesOf 8 size ++
    bytesOf 4 payload ++ bytesOf 4 1 ++ bytesOf 8 0

/-- The blocks of the root directory. -/
def treeBlocks : List (List DirectoryEntry) :=
  [[⟨0, ⟨#[0x2E]⟩, 2⟩, ⟨0, ⟨#[0x2E, 0x2E]⟩, 2⟩],
    [⟨8, ⟨#[0x64, 0, 0x64]⟩, 2⟩, ⟨4, ⟨#[0x66]⟩, 1⟩]]

/-- The entries of the directory below it. A file of the root directory is
linked there as well. -/
def treeBranchEntries : List DirectoryEntry :=
  [⟨8, ⟨#[0x2E]⟩, 2⟩, ⟨0, ⟨#[0x2E, 0x2E]⟩, 2⟩, ⟨16, ⟨#[0x63]⟩, 1⟩, ⟨4, ⟨#[0x66]⟩, 1⟩,
    ⟨12, ⟨#[0x67]⟩, 5⟩]

/-- The record of its superblock. -/
def treeRecord : List UInt8 :=
  [0xE2, 0xE1, 0xF5, 0xE0, 0, 0, 0, 0, 0, 0, 0, 0, 9, 0, 0, 0, 1].rightpad 128 0

/-- The image: five inodes, of which one is a compressed file and one a
pipe, the superblock and the first block of the root directory. -/
def treeImage : ByteArray :=
  let root := Directory.encode 512 28 treeBlocks
  ⟨((compactRecord 4 0o040755 540 3 ++ root.drop 512).rightpad 128 0 ++
    (compactRecord 0 0o100644 100 4).rightpad 128 0 ++
    (compactRecord 4 0o040755 66 0 ++ DirectoryBlock.encode treeBranchEntries).rightpad 128 0 ++
    (compactRecord 0 0o010644 0 0).rightpad 128 0 ++
    (compactRecord 2 0o100644 700 2 ++ List.replicate 16 0 ++
      [1, 0, 0, 0, 2, 0, 0, 0, 0, 0, 0, 0, 3, 0, 0, 0]).rightpad 512 0 ++
    treeRecord.rightpad 512 0 ++ root.take 512).toArray⟩

/-- Its root directory. -/
def treeRoot : Inode :=
  { Inode.bare .flatInline 540 with
    mode := 0o040755, type := .directory, payload := .firstBlock 3 }

/-- The directory below it. -/
def treeBranch : Inode :=
  { Inode.bare .flatInline 66 with
    nid := 8, position := 256, mode := 0o040755, type := .directory, payload := .firstBlock 0 }

/-- The file with two links. -/
def treeFile : Inode :=
  { Inode.bare .flatPlain 100 with nid := 4, position := 128, payload := .firstBlock 4 }

/-- The compressed file. -/
def treePacked : Inode :=
  { Inode.bare .compressedFull 700 with nid := 16, position := 512, payload := .compressedBlocks 2 }

/-- The pipe. -/
def treePipe : Inode :=
  { Inode.bare .flatPlain 0 with
    nid := 12, position := 384, mode := 0o010644, type := .fifo, payload := .none }

theorem size_treeImage : treeImage.size = 2048 := by
  decide +kernel

theorem size_treeImage_lt : treeImage.size < addressLimit := by
  rw [size_treeImage]
  decide

/-- The superblock is loaded from an image in which its record stands. -/
theorem onImage_load_of_treeRecord (h : HoldsAt image Superblock.position treeRecord)
    (himage : image.size < addressLimit) :
    (Superblock.load false).onImage image = .ok (.bare 9 0) := by
  have hbytes : (Query.bytes Superblock.position Superblock.recordSize).onImage image =
      .ok ⟨treeRecord.toArray⟩ := h.onImage_bytes (by decide) himage
  have hdecode : Superblock.decode ⟨treeRecord.toArray⟩ = .ok (.bare 9 0) := by
    decide +kernel
  rw [Superblock.load, Superblock.readRecord, Query.bind_assoc, Query.onImage_bind_of_ok hbytes,
    Query.bind_assoc, Query.onImage_bind_of_ok ((Query.onImage_liftM _).trans hdecode)]
  rfl

theorem onImage_load_treeImage : (Superblock.load false).onImage treeImage = .ok (.bare 9 0) :=
  onImage_load_of_treeRecord (by decide +kernel) size_treeImage_lt

/-- The image in memory. -/
def treeDevice : MemoryDevice :=
  ⟨treeImage, 512, by rw [size_treeImage]; decide⟩

theorem image_treeDevice : treeDevice.image = treeImage := rfl

/-- The image is mounted from a device with blocks of its own size. -/
theorem exists_serves_treeImage (maxDepth : Nat) :
    ∃ m : Mount MemoryDevice, m.superblock = .bare 9 0 ∧ m.options.maxDepth = maxDepth ∧
      m.Serves treeImage 512 := by
  have hspec :=
    (Mounting.device 9 treeDevice image_treeDevice rfl 4 #[]).mount_spec maxDepth false
  rw [onImage_load_treeImage] at hspec
  obtain ⟨m, -, hsuperblock, hdepth, hserves⟩ := hspec
  exact ⟨m, hsuperblock, hdepth, hserves⟩

theorem onImage_read_treeImage {i : Inode}
    (h : i ∈ [treeRoot, treeBranch, treeFile, treePacked, treePipe]) :
    (Inode.read (.bare 9 0) i.nid).onImage treeImage = .ok i := by
  have hread (record : List UInt8) {i : Inode} (hlength : record.length = 32)
      (hposition : (Superblock.bare 9 0).inodePosition i.nid = .ok i.position)
      (hholds : HoldsAt treeImage i.position record)
      (hhead : (Inode.ofHead (.bare 9 0) i.nid i.position ⟨record.toArray⟩).onImage treeImage =
        .ok i) : (Inode.read (.bare 9 0) i.nid).onImage treeImage = .ok i :=
    (Inode.onImage_read_of_holdsAt hposition hholds hlength size_treeImage_lt).trans hhead
  simp only [List.mem_cons, List.not_mem_nil, or_false] at h
  rcases h with rfl | rfl | rfl | rfl | rfl
  · exact hread (compactRecord 4 0o040755 540 3) rfl rfl (by decide) (by decide)
  · exact hread (compactRecord 4 0o040755 66 0) rfl rfl (by decide +kernel) (by decide +kernel)
  · exact hread (compactRecord 0 0o100644 100 4) rfl rfl (by decide +kernel) (by decide +kernel)
  · exact hread (compactRecord 2 0o100644 700 2) rfl rfl (by decide +kernel) (by decide +kernel)
  · exact hread (compactRecord 0 0o010644 0 0) rfl rfl (by decide +kernel) (by decide +kernel)

theorem Mount.Serves.readInode_tree {m : Mount MemoryDevice} (hm : m.Serves treeImage 512)
    (hsuperblock : m.superblock = .bare 9 0) {i : Inode}
    (h : i ∈ [treeRoot, treeBranch, treeFile, treePacked, treePipe]) :
    (m.readInode i.nid).1 = .ok i := by
  rw [hm.readInode_fst, hsuperblock]
  exact onImage_read_treeImage h

theorem Mount.Serves.readRoot_tree {m : Mount MemoryDevice} (hm : m.Serves treeImage 512)
    (hsuperblock : m.superblock = .bare 9 0) : m.readRoot.1 = .ok treeRoot := by
  rw [hm.readRoot_fst, hsuperblock]
  exact onImage_read_treeImage (i := treeRoot) (by simp)

/-- Its root directory has an inline tail. -/
theorem stores_treeRoot :
    treeRoot.Stores treeImage (.bare 9 0) (Directory.encode 512 28 treeBlocks) := by
  have hfront : ((Directory.encode 512 28 treeBlocks).take 512).length =
      1 * (Superblock.bare 9 0).blockSize := by decide +kernel
  rw [← List.take_append_drop 512 (Directory.encode 512 28 treeBlocks)]
  exact .inline rfl rfl (by decide +kernel) hfront (by decide +kernel) (by decide +kernel)
    (by decide +kernel) (by decide +kernel)

/-- The directory below has nothing else. -/
theorem stores_treeBranch :
    treeBranch.Stores treeImage (.bare 9 0) (Directory.encode 512 66 [treeBranchEntries]) := by
  have hfront : ([] : List UInt8).length = 0 * (Superblock.bare 9 0).blockSize := rfl
  rw [← List.nil_append (Directory.encode 512 66 [treeBranchEntries])]
  exact .inline rfl rfl (by decide +kernel) hfront (by decide +kernel) (by decide +kernel)
    (by decide +kernel) (by decide +kernel)

theorem writable_treeBlocks :
    Directory.Writable (Superblock.bare 9 0).blockSize 28 treeBlocks := by
  decide

theorem writable_treeBranchEntries :
    Directory.Writable (Superblock.bare 9 0).blockSize 66 [treeBranchEntries] := by
  decide

theorem contents_treeRoot :
    treeRoot.contents treeImage (.bare 9 0) = ⟨treeBlocks.flatten, none⟩ :=
  Directory.contents_of_writable size_treeImage_lt (by decide) rfl writable_treeBlocks
    stores_treeRoot (by decide)

theorem contents_treeBranch :
    treeBranch.contents treeImage (.bare 9 0) = ⟨treeBranchEntries, none⟩ :=
  Directory.contents_of_writable size_treeImage_lt (by decide) rfl writable_treeBranchEntries
    stores_treeBranch (by decide)

theorem listDirectory_treeRoot :
    ∃ m : Mount MemoryDevice, m.Serves treeImage 512 ∧ treeImage.size < addressLimit ∧
      treeRoot.isDirectory ∧ Directory.Writable m.superblock.blockSize 28 treeBlocks ∧
      treeRoot.Stores treeImage m.superblock
        (Directory.encode m.superblock.blockSize 28 treeBlocks) ∧
      (m.listDirectory treeRoot).1 = .ok treeBlocks.flatten := by
  obtain ⟨m, hsuperblock, -, hm⟩ := exists_serves_treeImage 8
  have hw : Directory.Writable m.superblock.blockSize 28 treeBlocks := by
    rw [hsuperblock]
    exact writable_treeBlocks
  have hs : treeRoot.Stores treeImage m.superblock
      (Directory.encode m.superblock.blockSize 28 treeBlocks) := by
    rw [hsuperblock]
    exact stores_treeRoot
  have hlist := Mount.listDirectory_of_writable hm size_treeImage_lt rfl hw hs
  rw [if_pos (by decide)] at hlist
  exact ⟨m, hm, size_treeImage_lt, rfl, hw, hs, hlist⟩

/-! ## A directory of too many blocks

It has one block more than 32 bits can number. An image holds the inode, the
superblock and these blocks, and only its front is ever looked at. -/

/-- Blocks of one entry each. -/
def longBlocks : List (List DirectoryEntry) :=
  List.replicate (maxAddressableUnits + 1) [⟨0, ⟨#[0x2E]⟩, 2⟩]

/-- The extended record of their inode. -/
def longRecord : List UInt8 :=
  bytesOf 2 1 ++ bytesOf 2 0 ++ bytesOf 2 0o040755 ++ bytesOf 2 0 ++
    bytesOf 8 ((maxAddressableUnits + 1) * 512) ++ bytesOf 4 4 ++ List.replicate 44 0

/-- The four blocks in front of them. -/
def longFront : List UInt8 := longRecord.rightpad 1024 0 ++ treeRecord.rightpad 1024 0

/-- The image. -/
def longImage : ByteArray := ⟨(longFront ++ Directory.encode 512 512 longBlocks).toArray⟩

/-- The inode. -/
def longRoot : Inode :=
  { Inode.bare .flatPlain ((maxAddressableUnits + 1) * 512).toUInt64 with
    version := .extended, ino := 0, linkCount := 0, mode := 0o040755, type := .directory,
    payload := .firstBlock 4 }

theorem writable_longBlocks : Directory.Writable 512 512 longBlocks where
  ne_nil := by simp [longBlocks]
  block h := by
    rw [List.eq_of_mem_replicate h]
    decide
  le_lastLength h := by
    rw [List.eq_of_mem_replicate (List.mem_of_getLast? h)]
    decide
  lastLength_le := Nat.le_refl _

theorem length_longBlocks : longBlocks.length = maxAddressableUnits + 1 := List.length_replicate

theorem length_encode_longBlocks :
    (Directory.encode 512 512 longBlocks).length = (maxAddressableUnits + 1) * 512 := by
  rw [writable_longBlocks.length_encode, length_longBlocks, Nat.add_sub_cancel, Nat.succ_mul]

theorem length_longRecord : (longRecord.rightpad 1024 0).length = Superblock.position :=
  Directory.Writable.length_rightpad_eq (by decide)

theorem length_longFront : longFront.length = 2048 := by
  have hlength : treeRecord.length ≤ 1024 := by
    rw [treeRecord, Directory.Writable.length_rightpad_eq (by decide)]
    decide
  rw [longFront, List.length_append, length_longRecord,
    Directory.Writable.length_rightpad_eq hlength]
  rfl

theorem size_longImage_lt : longImage.size < 2 ^ 63 := by
  change (longFront ++ Directory.encode 512 512 longBlocks).toArray.size < _
  rw [List.size_toArray, List.length_append, length_longFront, length_encode_longBlocks]
  decide

/-- The image in memory. -/
def longDevice : MemoryDevice := ⟨longImage, 512, size_longImage_lt⟩

theorem image_longDevice : longDevice.image = longImage := rfl

theorem size_longImage_lt_addressLimit : longImage.size < addressLimit :=
  Nat.lt_trans size_longImage_lt (by decide)

theorem holdsAt_longRecord : HoldsAt longImage 0 longRecord := by
  show longRecord <+: longFront ++ Directory.encode 512 512 longBlocks
  rw [longFront, List.append_assoc]
  exact (List.prefix_append ..).trans (List.prefix_append ..)

theorem holdsAt_treeRecord : HoldsAt longImage Superblock.position treeRecord := by
  show treeRecord <+: (longFront ++ Directory.encode 512 512 longBlocks).drop Superblock.position
  rw [longFront, List.append_assoc, List.drop_left' length_longRecord]
  exact (List.prefix_append ..).trans (List.prefix_append ..)

theorem onImage_load_longImage : (Superblock.load false).onImage longImage = .ok (.bare 9 0) :=
  onImage_load_of_treeRecord holdsAt_treeRecord size_longImage_lt_addressLimit

theorem onImage_read_longImage :
    (Inode.read (.bare 9 0) 0).onImage longImage = .ok longRoot := by
  let head : ByteArray := ⟨(longRecord.take 32).toArray⟩
  have hholds : HoldsAt longImage 0 (longRecord.take 32 ++ longRecord.drop 32) := by
    rw [List.take_append_drop]
    exact holdsAt_longRecord
  have hhead : (Query.bytes 0 InodeVersion.compact.recordSize).onImage longImage = .ok head :=
    hholds.left.onImage_bytes (by decide) size_longImage_lt_addressLimit
  have htail : (Query.bytes (0 + InodeVersion.compact.recordSize)
      (InodeVersion.extended.recordSize - InodeVersion.compact.recordSize)).onImage longImage =
        .ok ⟨(longRecord.drop 32).toArray⟩ :=
    hholds.right.onImage_bytes (by decide) size_longImage_lt_addressLimit
  have hposition : (Superblock.bare 9 0).inodePosition 0 = .ok 0 := rfl
  have hlayout : DataLayout.ofFormat (u16At head 0) = .ok .flatPlain := by decide
  have hversion : InodeVersion.ofFormat (u16At head 0) = .extended := by decide
  rw [Inode.read, Query.onImage_bind_of_ok ((Query.onImage_liftM _).trans hposition),
    Query.onImage_bind_of_ok hhead, Inode.ofHead, Query.bind_assoc,
    Query.onImage_bind_of_ok ((Query.onImage_liftM _).trans hlayout), hversion]
  simp only
  rw [Query.bind_assoc, Query.onImage_bind_of_ok htail]
  decide

/-- The blocks lie in a row from block 4 on. -/
theorem stores_longRoot :
    longRoot.Stores longImage (.bare 9 0) (Directory.encode 512 512 longBlocks) := by
  have hstart : (Superblock.bare 9 0).blockStart (4 : UInt32).toNat = longFront.length := by
    rw [length_longFront]
    rfl
  refine .plain rfl rfl length_encode_longBlocks.symm ?_
  rw [hstart]
  show Directory.encode 512 512 longBlocks <+: (longFront ++ _).drop longFront.length
  simp only [List.drop_left, List.prefix_refl]

/-- **It is written as a directory is, and not listed.** The image is mounted,
and the inode is read from it. -/
theorem not_listDirectory_longRoot :
    ∃ m : Mount MemoryDevice, m.Serves longImage 512 ∧ longImage.size < addressLimit ∧
      (m.readInode 0).1 = .ok longRoot ∧ longRoot.isDirectory ∧
      Directory.Writable m.superblock.blockSize 512 longBlocks ∧
      longRoot.Stores longImage m.superblock
        (Directory.encode m.superblock.blockSize 512 longBlocks) ∧
      (m.listDirectory longRoot).1 ≠ .ok longBlocks.flatten ∧
      ∃ cause, (m.listDirectory longRoot).1 = .error cause ∧ cause.kind = .corrupted := by
  have hspec := (Mounting.device 9 longDevice image_longDevice rfl 4 #[]).mount_spec 8 false
  rw [onImage_load_longImage] at hspec
  obtain ⟨m, -, hsuperblock, -, hm⟩ := hspec
  have hread : (m.readInode 0).1 = .ok longRoot := by
    rw [hm.readInode_fst, hsuperblock]
    exact onImage_read_longImage
  have hw : Directory.Writable m.superblock.blockSize 512 longBlocks := by
    rw [hsuperblock]
    exact writable_longBlocks
  have hs : longRoot.Stores longImage m.superblock
      (Directory.encode m.superblock.blockSize 512 longBlocks) := by
    rw [hsuperblock]
    exact stores_longRoot
  have hmany : maxAddressableUnits < longBlocks.length := by
    rw [length_longBlocks]
    exact Nat.lt_succ_self _
  have hlist := hm.listDirectory_of_many rfl hw hs hmany
  refine ⟨m, hm, size_longImage_lt_addressLimit, hread, rfl, hw, hs, ?_, _, hlist, rfl⟩
  rw [hlist]
  exact nofun

end Erofs
