import Erofs.Proofs.Directory.Decoding
import Erofs.Proofs.Inode.Decoding
import Erofs.Proofs.Volume.Truncation
/-!
# Reading inodes

An inode is read if its record stands at its place in the image
(`Inode.onImage_read_eq_ok`), whatever means nothing in that record. Where
none is read, the kind of the failure is that of the first thing that is
wrong (`Inode.fault?`). So nothing that is read is made up, and nothing
that means something is lost.
-/

namespace Erofs

variable {α β : Type} {image b : ByteArray} {sb : Superblock} {i : Inode}
variable {offset length m n nid position : Nat}

/-! ## Ranges of an image -/

/-- A range of bytes lies in an image, where there are addresses. -/
def InImage (image : ByteArray) (offset length : Nat) : Prop :=
  offset + length < addressLimit ∧ offset + length ≤ image.size

instance : Decidable (InImage image offset length) :=
  inferInstanceAs (Decidable (_ ∧ _))

/-- A computation fails with an error of some kind. -/
def Fails (kind : ErrorKind) (result : Except Error α) : Prop :=
  ∃ cause, result = .error cause ∧ cause.kind = kind

theorem Fails.bind {kind : ErrorKind} {first : Except Error α} {next : α → Except Error β}
    (h : Fails kind first) : Fails kind (first.bind next) := by
  obtain ⟨cause, rfl, hkind⟩ := h
  exact ⟨cause, rfl, hkind⟩

theorem imageRange_of_inImage (h : InImage image offset length) :
    imageRange image offset length = .ok (slice image offset length) :=
  imageRange_eq_ok.mpr ⟨h.1, h.2, rfl⟩

/-- Bytes that are not there are an error of the device. -/
theorem fails_imageRange (h : ¬ InImage image offset length) :
    Fails .io (imageRange image offset length) := by
  unfold imageRange
  cases hrange : checkRange image.size offset length with
  | error cause => exact ⟨cause, rfl, kind_of_checkRange hrange⟩
  | ok _ => exact absurd (Volume.checkRange_eq_ok.mp hrange) h

/-- A range in two parts is read if its second part is. -/
theorem imageRange_add (image : ByteArray) (offset m n : Nat) :
    imageRange image offset (m + n) =
      (imageRange image (offset + m) n).map fun tail => slice image offset m ++ tail := by
  unfold imageRange checkRange
  rw [← Nat.add_assoc]
  split
  · rfl
  · split
    · rfl
    · exact congrArg Except.ok (slice_add ..)

theorem u16At_slice (h : n + 2 ≤ length) :
    u16At (slice image offset length) n = u16At image (offset + n) := by
  rw [u16At, littleEndian_slice h, u16At]

/-- Bytes stand at the front of a slice if they stand at its place. -/
theorem holdsAt_slice_iff {bytes : List UInt8} (h : bytes.length ≤ length) :
    HoldsAt (slice image offset length) 0 bytes ↔ HoldsAt image offset bytes := by
  unfold HoldsAt
  rw [slice, ByteArray.data_extract, Array.toList_extract, List.extract_eq_take_drop,
    Nat.add_sub_cancel_left, List.drop_zero, List.prefix_take_iff]
  exact and_iff_left h

/-! ## The record of an inode -/

namespace Inode

/-- The record whose first bytes are known is decoded as a whole. -/
theorem onImage_ofHead (hhead : InImage image position 32) :
    (ofHead sb nid position (slice image position 32)).onImage image =
      (DataLayout.ofFormat (u16At image position)).bind fun layout =>
        (imageRange image position (InodeVersion.ofFormat (u16At image position)).recordSize).bind
          fun b => ofRecord sb nid position layout b
            (InodeVersion.ofFormat (u16At image position)) := by
  have hformat : u16At (slice image position 32) 0 = u16At image position :=
    u16At_slice (by decide)
  rw [ofHead, Query.onImage_bind, Query.onImage_liftM, hformat]
  refine congrArg _ (funext fun layout => ?_)
  cases InodeVersion.ofFormat (u16At image position) with
  | compact =>
    simp only [Query.onImage_bind, Query.onImage_liftM, InodeVersion.recordSize,
      imageRange_of_inImage hhead]
    rfl
  | extended =>
    have hwhole := imageRange_add image position 32 32
    simp only [Query.onImage_bind, Query.onImage_liftM, Query.onImage_bytes,
      InodeVersion.recordSize]
    rw [hwhole]
    cases imageRange image (position + 32) 32 with
    | error cause => rfl
    | ok tail => rfl

/-- An inode whose place is known is decoded from there. -/
theorem onImage_read (hposition : sb.inodePosition nid = .ok position)
    (hhead : InImage image position 32) :
    (read sb nid).onImage image =
      (ofHead sb nid position (slice image position 32)).onImage image := by
  have hbytes : (Query.bytes position InodeVersion.compact.recordSize).onImage image =
      .ok (slice image position 32) :=
    (Query.onImage_bytes ..).trans (imageRange_of_inImage hhead)
  rw [read, Query.onImage_bind_of_ok ((Query.onImage_liftM _).trans hposition),
    Query.onImage_bind_of_ok hbytes, Query.onImage_bind]
  cases (ofHead sb nid position (slice image position 32)).onImage image with
  | error cause => rfl
  | ok i => exact Query.onImage_report_bind ..

/-- What is wrong with an inode, if anything is: the kind of the first of
the things that can be wrong. -/
def fault? (image : ByteArray) (sb : Superblock) (nid : Nat) : Option ErrorKind :=
  let position := nid * 32 + sb.metaBlock.toNat * sb.blockSize
  let format := (u16At image position).toNat
  let mode := u16At image (position + 4)
  if 2 ^ 64 ≤ position then some .corrupted
  else if ¬ InImage image position 32 then some .io
  else if 4 ≤ format / 2 % 8 then some .unsupported
  else if format % 2 = 1 ∧ ¬ InImage image position 64 then some .io
  else if ∀ t ∈ FileType.all, t ≠ .unknown → mode &&& FileType.modeMask ≠ t.modeBits then
    some .corrupted
  else none

/-- The record of an inode stands at its place in an image. -/
structure RecordedIn (image : ByteArray) (sb : Superblock) (i : Inode) : Prop where
  position_eq : i.position = i.nid * 32 + sb.metaBlock.toNat * sb.blockSize
  position_lt : i.position < 2 ^ 64
  inImage : InImage image i.position i.version.recordSize
  recordable : i.Recordable sb
  holdsAt_record : ∃ spare, HoldsAt image i.position (i.record spare)

/-- A layout has a meaning if it has one of the first four codes. -/
theorem fails_ofFormat {format : UInt16} (h : 4 ≤ format.toNat / 2 % 8) :
    Fails .unsupported (DataLayout.ofFormat format) := by
  rw [DataLayout.ofFormat]
  generalize format.toNat / 2 % 8 = code at h
  unfold DataLayout.ofCode
  split
  all_goals first | omega | exact ⟨_, rfl, rfl⟩

theorem exists_ofFormat {format : UInt16} (h : format.toNat / 2 % 8 < 4) :
    ∃ layout, DataLayout.ofFormat format = .ok layout := by
  have hcode : ∃ layout : DataLayout, format.toNat / 2 % 8 = layout.code := by
    rcases (by omega : format.toNat / 2 % 8 = 0 ∨ format.toNat / 2 % 8 = 1 ∨
      format.toNat / 2 % 8 = 2 ∨ format.toNat / 2 % 8 = 3) with h | h | h | h
    · exact ⟨.flatPlain, h⟩
    · exact ⟨.compressedFull, h⟩
    · exact ⟨.flatInline, h⟩
    · exact ⟨.compressedCompact, h⟩
  exact hcode.imp fun _ => DataLayout.ofFormat_eq_ok_iff.mpr

/-- The form of a record whose bytes are there. -/
theorem inImage_recordSize_iff {format : UInt16} (hhead : InImage image position 32) :
    InImage image position (InodeVersion.ofFormat format).recordSize ↔
      ¬ (format.toNat % 2 = 1 ∧ ¬ InImage image position 64) := by
  unfold InodeVersion.ofFormat
  split
  · simp [InodeVersion.recordSize, *]
  · simp [InodeVersion.recordSize, *]

theorem ofMode?_eq_none_iff {mode : UInt16} :
    FileType.ofMode? mode = none ↔
      ∀ t ∈ FileType.all, t ≠ .unknown → mode &&& FileType.modeMask ≠ t.modeBits := by
  have hall (t : FileType) : t ∈ FileType.all := by cases t <;> decide
  rw [Option.eq_none_iff_forall_ne_some]
  constructor
  · intro h t _ ht hbits
    exact h t (FileType.ofMode?_eq_some_iff.mpr ⟨ht, hbits⟩)
  · intro h t hmode
    obtain ⟨ht, hbits⟩ := FileType.ofMode?_eq_some_iff.mp hmode
    exact h t (hall t) ht hbits

/-- A record whose bytes are there fails to be decoded only because of its
mode. -/
theorem onImage_ofHead_spec (sb : Superblock) (nid : Nat) {layout : DataLayout}
    (hhead : InImage image position 32)
    (hlayout : DataLayout.ofFormat (u16At image position) = .ok layout)
    (hwhole : InImage image position (InodeVersion.ofFormat (u16At image position)).recordSize) :
    match FileType.ofMode? (u16At image (position + 4)) with
    | none => Fails .corrupted ((ofHead sb nid position (slice image position 32)).onImage image)
    | some _ => ∃ i, (ofHead sb nid position (slice image position 32)).onImage image = .ok i ∧
        i.nid = nid ∧ i.position = position ∧ InImage image i.position i.version.recordSize ∧
        i.Recordable sb ∧ ∃ spare, HoldsAt image i.position (i.record spare) := by
  rw [onImage_ofHead hhead, hlayout]
  generalize hversion : InodeVersion.ofFormat (u16At image position) = version at hwhole ⊢
  have hsize := Nat.le_of_eq (size_slice hwhole.2).symm
  have hrecord : 32 ≤ version.recordSize := by
    cases version <;> decide
  have hword : u16At (slice image position version.recordSize) 0 = u16At image position :=
    u16At_slice (by omega)
  have hmode : u16At (slice image position version.recordSize) 4 = u16At image (position + 4) :=
    u16At_slice (by omega)
  have hspec := ofRecord_spec sb nid position layout hsize
  rw [hmode] at hspec
  simp only [imageRange_of_inImage hwhole, Except.bind]
  cases htype : FileType.ofMode? (u16At image (position + 4)) with
  | none =>
    rw [htype] at hspec
    exact ⟨_, hspec, rfl⟩
  | some type =>
    rw [htype] at hspec
    obtain ⟨i, hi⟩ := hspec
    obtain ⟨hnid, rfl, rfl, hrecordable, hholds⟩ := recorded_of_ofRecord
      ((congrArg _ hword).trans hlayout) ((congrArg _ hword).trans hversion) hsize hi
    rw [holdsAt_slice_iff (Nat.le_of_eq (length_record ..))] at hholds
    exact ⟨i, hi, hnid, rfl, hwhole, hrecordable, _, hholds⟩

/-- **An inode is read unless something is wrong with it**, and then what
was read is what its record says. -/
theorem onImage_read_spec (image : ByteArray) (sb : Superblock) (nid : Nat) :
    match fault? image sb nid with
    | some kind => Fails kind ((read sb nid).onImage image)
    | none => ∃ i, (read sb nid).onImage image = .ok i ∧ i.nid = nid ∧ i.RecordedIn image sb := by
  have hposition : sb.inodePosition nid =
      if 2 ^ 64 ≤ nid * 32 + sb.metaBlock.toNat * sb.blockSize then .error .nidOutOfRange
      else .ok (nid * 32 + sb.metaBlock.toNat * sb.blockSize) := rfl
  unfold fault?
  generalize hplace : nid * 32 + sb.metaBlock.toNat * sb.blockSize = position at hposition
  by_cases hlimit : 2 ^ 64 ≤ position
  · rw [if_pos hlimit] at hposition ⊢
    rw [read, Query.onImage_bind, Query.onImage_liftM, hposition]
    exact ⟨.nidOutOfRange, rfl, rfl⟩
  rw [if_neg hlimit] at hposition ⊢
  by_cases hhead : InImage image position 32
  case neg =>
    rw [if_pos hhead, read, Query.onImage_bind_of_ok ((Query.onImage_liftM _).trans hposition),
      Query.onImage_bind, Query.onImage_bytes]
    exact (fails_imageRange hhead).bind
  rw [if_neg (not_not_intro hhead), onImage_read hposition hhead]
  by_cases hcode : 4 ≤ (u16At image position).toNat / 2 % 8
  · rw [if_pos hcode, onImage_ofHead hhead]
    exact (fails_ofFormat hcode).bind
  rw [if_neg hcode]
  obtain ⟨layout, hlayout⟩ := exists_ofFormat (Nat.lt_of_not_le hcode)
  by_cases hwhole : InImage image position (InodeVersion.ofFormat (u16At image position)).recordSize
  case neg =>
    rw [if_pos (Decidable.not_not.mp (mt (inImage_recordSize_iff hhead).mpr hwhole)),
      onImage_ofHead hhead, hlayout]
    exact (fails_imageRange hwhole).bind
  rw [if_neg ((inImage_recordSize_iff hhead).mp hwhole)]
  have hspec := onImage_ofHead_spec sb nid hhead hlayout hwhole
  cases htype : FileType.ofMode? (u16At image (position + 4)) with
  | none =>
    rw [if_pos (ofMode?_eq_none_iff.mp htype)]
    rwa [htype] at hspec
  | some type =>
    rw [if_neg (mt ofMode?_eq_none_iff.mpr (by simp [htype]))]
    rw [htype] at hspec
    obtain ⟨i, hi, rfl, rfl, hin, hrecordable, hholds⟩ := hspec
    exact ⟨i, hi, rfl, hplace.symm, Nat.lt_of_not_le hlimit, hin, hrecordable, hholds⟩

/-- **A record is read as its inode**, and as no other. -/
theorem onImage_read_eq_ok :
    (read sb nid).onImage image = .ok i ↔ i.nid = nid ∧ i.RecordedIn image sb := by
  constructor
  · intro h
    have hspec := onImage_read_spec image sb nid
    split at hspec
    · obtain ⟨cause, hcause, -⟩ := hspec
      cases hcause.symm.trans h
    · obtain ⟨i', hi', hrecorded⟩ := hspec
      cases hi'.symm.trans h
      exact hrecorded
  · rintro ⟨rfl, hplace, hlimit, hin, hrecordable, spare, hholds⟩
    have hposition : sb.inodePosition i.nid = .ok i.position := by
      rw [hplace] at hlimit ⊢
      exact if_neg (Nat.not_le_of_lt hlimit)
    have hrecord : 32 ≤ i.version.recordSize := by
      cases i.version <;> decide
    have hhead : InImage image i.position 32 := by
      obtain ⟨hlt, hle⟩ := hin
      constructor <;> omega
    have hword : (u16At image i.position).toNat = i.formatField spare % 256 ^ 2 := by
      have hle : i.position + (fieldBytes (i.recordFields spare)).length ≤ image.size := by
        change i.position + (i.record spare).length ≤ image.size
        rw [length_record]
        exact hin.2
      have hfields := (holdsAt_fieldBytes_iff hle).mp hholds
      rw [toNat_u16At]
      unfold recordFields at hfields
      split at hfields <;> exact hfields.1
    obtain ⟨hversion, hlayout⟩ := ofFormat_of_formatField hword
    rw [onImage_read hposition hhead, onImage_ofHead hhead, hlayout, hversion,
      imageRange_of_inImage hin]
    refine ofRecord_of_holdsAt hrecordable ?_ ((holdsAt_slice_iff ?_).mpr hholds)
    · exact Nat.le_of_eq (size_slice hin.2).symm
    · exact Nat.le_of_eq (length_record ..)

end Inode

/-- **Reading an inode loses nothing and makes nothing up.** It fails
with the kind of error of the first thing that is wrong. If nothing is, the
inode that is read is the one whose record stands at the place of its
number. -/
theorem Mount.readInode_spec {δ : Type} [BlockDevice δ] {m : Mount δ} {blockSize : Nat}
    (hm : m.Serves image blockSize) (nid : Nat) :
    (match Inode.fault? image m.superblock nid with
      | some kind => Fails kind (m.readInode nid).1
      | none => ∃ i, (m.readInode nid).1 = .ok i) ∧
    ∀ i, (m.readInode nid).1 = .ok i ↔ i.nid = nid ∧ i.RecordedIn image m.superblock := by
  rw [hm.readInode_fst]
  refine ⟨?_, fun i => Inode.onImage_read_eq_ok⟩
  have hspec := Inode.onImage_read_spec image m.superblock nid
  split at hspec
  · exact hspec
  · exact hspec.imp fun i hi => hi.1

/-- A pipe of the small tree, and a number behind its end. -/
theorem Mount.readInode_treeImage :
    ∃ m : Mount MemoryDevice, m.Serves treeImage 512 ∧ (m.readInode 12).1 = .ok treePipe ∧
      treePipe.RecordedIn treeImage m.superblock ∧ Fails .io (m.readInode 64).1 := by
  obtain ⟨m, hsuperblock, -, hm⟩ := exists_serves_treeImage 8
  have hpipe : (m.readInode 12).1 = .ok treePipe :=
    hm.readInode_tree hsuperblock (i := treePipe) (by simp)
  have hfault : Inode.fault? treeImage m.superblock 64 = some .io := by
    rw [hsuperblock]
    decide +kernel
  have hbehind := (Mount.readInode_spec hm 64).1
  rw [hfault] at hbehind
  exact ⟨m, hm, hpipe, (((Mount.readInode_spec hm 12).2 treePipe).mp hpipe).2, hbehind⟩

end Erofs
