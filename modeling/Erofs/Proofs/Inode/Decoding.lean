import Erofs.Proofs.Inode.Encoding
import Erofs.Proofs.Query
/-!
# Records of inodes read again

A record says the same as its inode. Every number of a record is found
again in the inode that is read from it, but for those that mean nothing
(`Inode.holdsAt_record_of_ofRecord`), and every inode that has a record is
read from it (`Inode.ofRecord_of_holdsAt`). A packed device number and a
number of extended attributes are the parts of a record that are not just
copied.
-/

namespace Erofs

variable {b : ByteArray} {sb : Superblock} {i : Inode} {nid position n : Nat}

/-! ## Numbers in fields -/

theorem toNat_u16At (b : ByteArray) (offset : Nat) :
    (u16At b offset).toNat = littleEndian b offset 2 := by
  have hlt := littleEndian_lt b offset 2
  rw [u16At, Nat.toUInt16_eq, UInt16.toNat_ofNat']
  omega

theorem toNat_u32At (b : ByteArray) (offset : Nat) :
    (u32At b offset).toNat = littleEndian b offset 4 := by
  have hlt := littleEndian_lt b offset 4
  rw [u32At, Nat.toUInt32_eq, UInt32.toNat_ofNat']
  omega

theorem toNat_u64At (b : ByteArray) (offset : Nat) :
    (u64At b offset).toNat = littleEndian b offset 8 := by
  have hlt := littleEndian_lt b offset 8
  rw [u64At, Nat.toUInt64_eq, UInt64.toNat_ofNat']
  omega

theorem u16At_eq {x : UInt16} (h : littleEndian b n 2 = x.toNat % 256 ^ 2) : u16At b n = x := by
  refine UInt16.toNat.inj ?_
  rw [toNat_u16At, h]
  exact Nat.mod_eq_of_lt x.toNat_lt

theorem u32At_eq {x : UInt32} (h : littleEndian b n 4 = x.toNat % 256 ^ 4) : u32At b n = x := by
  refine UInt32.toNat.inj ?_
  rw [toNat_u32At, h]
  exact Nat.mod_eq_of_lt x.toNat_lt

theorem u64At_eq {x : UInt64} (h : littleEndian b n 8 = x.toNat % 256 ^ 8) : u64At b n = x := by
  refine UInt64.toNat.inj ?_
  rw [toNat_u64At, h]
  exact Nat.mod_eq_of_lt x.toNat_lt

/-- A number that was written into a narrower field. -/
theorem toUInt32_u16At {x : UInt32} (hx : x.toNat < 2 ^ 16)
    (h : littleEndian b n 2 = x.toNat % 256 ^ 2) : (u16At b n).toUInt32 = x := by
  refine UInt32.toNat.inj ?_
  rw [UInt16.toNat_toUInt32, toNat_u16At, h]
  exact Nat.mod_eq_of_lt hx

theorem toUInt64_u32At {x : UInt64} (hx : x.toNat < 2 ^ 32)
    (h : littleEndian b n 4 = x.toNat % 256 ^ 4) : (u32At b n).toUInt64 = x := by
  refine UInt64.toNat.inj ?_
  rw [UInt32.toNat_toUInt64, toNat_u32At, h]
  exact Nat.mod_eq_of_lt hx

/-- Cutting some bits out of a number. -/
theorem and_shiftLeft_eq (n width place : Nat) :
    n &&& (2 ^ width - 1) <<< place = 2 ^ place * (n / 2 ^ place % 2 ^ width) := by
  rw [← Nat.and_two_pow_sub_one_eq_mod, ← Nat.shiftRight_eq_div_pow, Nat.mul_comm,
    ← Nat.shiftLeft_eq, Nat.shiftLeft_and_distrib]
  refine Nat.eq_of_testBit_eq fun i => ?_
  simp only [Nat.testBit_and, Nat.testBit_shiftLeft, Nat.testBit_shiftRight]
  by_cases h : place ≤ i
  · simp [h]
  · simp [h]

/-- Where the two numbers of a device lie in the packed one. -/
theorem toNat_splitDeviceNumber (number : UInt32) :
    (splitDeviceNumber number).1.toNat = number.toNat / 2 ^ 8 % 2 ^ 12 ∧
      (splitDeviceNumber number).2.toNat =
        number.toNat % 2 ^ 8 + 2 ^ 8 * (number.toNat / 2 ^ 20) := by
  have hlt := number.toNat_lt
  have hwide (n : Nat) : n &&& 0xfff00 = 2 ^ 8 * (n / 2 ^ 8 % 2 ^ 12) := and_shiftLeft_eq n 12 8
  have hnarrow : number.toNat &&& 0xff = number.toNat % 2 ^ 8 :=
    Nat.and_two_pow_sub_one_eq_mod _ 8
  have hor (a : Nat) : number.toNat % 2 ^ 8 ||| 2 ^ 8 * a = number.toNat % 2 ^ 8 + 2 ^ 8 * a := by
    rw [Nat.or_comm, Nat.add_comm]
    exact (Nat.two_pow_add_eq_or_of_lt (Nat.mod_lt _ (by decide)) a).symm
  constructor
  · simp only [splitDeviceNumber, UInt32.toNat_shiftRight, UInt32.toNat_and, UInt32.reduceToNat,
      hwide, Nat.shiftRight_eq_div_pow, Nat.reduceMod]
    omega
  · simp only [splitDeviceNumber, UInt32.toNat_shiftRight, UInt32.toNat_and, UInt32.toNat_or,
      UInt32.reduceToNat, hwide, hnarrow, hor, Nat.shiftRight_eq_div_pow, Nat.reduceMod]
    omega

/-- A device is packed again into the number that was split. -/
theorem packedDeviceNumber_split (number : UInt32) :
    packedDeviceNumber (splitDeviceNumber number).1 (splitDeviceNumber number).2 =
      number.toNat := by
  obtain ⟨hmajor, hminor⟩ := toNat_splitDeviceNumber number
  have hlt := number.toNat_lt
  rw [packedDeviceNumber, hmajor, hminor]
  omega

/-- And split again as it was packed, if there was room for both numbers. -/
theorem splitDeviceNumber_of_packed {number major minor : UInt32} (hmajor : major.toNat < 2 ^ 12)
    (hminor : minor.toNat < 2 ^ 20) (h : number.toNat = packedDeviceNumber major minor) :
    splitDeviceNumber number = (major, minor) := by
  obtain ⟨hfirst, hsecond⟩ := toNat_splitDeviceNumber number
  rw [packedDeviceNumber] at h
  have hfirst' : (splitDeviceNumber number).1.toNat = major.toNat := by omega
  have hsecond' : (splitDeviceNumber number).2.toNat = minor.toNat := by omega
  exact Prod.ext (UInt32.toNat.inj hfirst') (UInt32.toNat.inj hsecond')

/-- The type of a mode is the one that has its bits, and never the unknown
one. -/
theorem FileType.ofMode?_eq_some_iff {mode : UInt16} {t : FileType} :
    ofMode? mode = some t ↔ t ≠ .unknown ∧ mode &&& modeMask = t.modeBits := by
  unfold ofMode?
  generalize mode &&& modeMask = bits
  constructor
  · intro h
    split at h
    all_goals cases h
    all_goals exact ⟨by decide, UInt16.toNat.inj (by assumption)⟩
  · rintro ⟨ht, rfl⟩
    cases t with
    | unknown => exact absurd rfl ht
    | _ => rfl

/-! ## Payloads -/

theorem Payload.suits_ofField {type : FileType} (htype : type ≠ .unknown) (layout : DataLayout)
    (field : UInt32) : (ofField type layout field).Suits type layout := by
  obtain ⟨hmajor, hminor⟩ := toNat_splitDeviceNumber field
  have hlt := field.toNat_lt
  have hdevice : (splitDeviceNumber field).1.toNat < 2 ^ 12 ∧
      (splitDeviceNumber field).2.toNat < 2 ^ 20 := by omega
  cases type with
  | unknown => exact absurd rfl htype
  | fifo | socket => simp [ofField, Suits]
  | characterDevice | blockDevice => simp [ofField, Suits, hdevice]
  | directory | regularFile | symlink =>
    rw [ofField]
    split <;> simp [Suits, *]

/-- What a payload is read from, and nothing is lost but the field of a file
without data. -/
theorem Payload.field_ofField (type : FileType) (layout : DataLayout) (field : UInt32) :
    (ofField type layout field).field field.toNat = field.toNat := by
  cases type with
  | unknown | fifo | socket => rfl
  | characterDevice | blockDevice => exact packedDeviceNumber_split field
  | directory | regularFile | symlink =>
    rw [ofField]
    split <;> rfl

/-- A payload is read again from its field. -/
theorem Payload.ofField_of_suits {p : Payload} {type : FileType} {layout : DataLayout}
    {field : UInt32} {spare : Nat} (hsuits : p.Suits type layout)
    (h : field.toNat = p.field spare % 256 ^ 4) : ofField type layout field = p := by
  cases p with
  | firstBlock block =>
    obtain ⟨htype, hlayout⟩ := hsuits
    obtain rfl : field = block := UInt32.toNat.inj (h.trans (Nat.mod_eq_of_lt block.toNat_lt))
    simp only [List.mem_cons, List.not_mem_nil, or_false] at htype
    rcases htype with rfl | rfl | rfl <;> exact if_neg hlayout
  | compressedBlocks count =>
    obtain ⟨htype, hlayout⟩ := hsuits
    obtain rfl : field = count := UInt32.toNat.inj (h.trans (Nat.mod_eq_of_lt count.toNat_lt))
    simp only [List.mem_cons, List.not_mem_nil, or_false] at htype
    rcases htype with rfl | rfl | rfl <;> exact if_pos hlayout
  | device major minor =>
    obtain ⟨htype, hmajor, hminor⟩ := hsuits
    have hsplit : splitDeviceNumber field = (major, minor) := by
      refine splitDeviceNumber_of_packed hmajor hminor (h.trans (Nat.mod_eq_of_lt ?_))
      simp only [Payload.field, packedDeviceNumber]
      omega
    simp only [List.mem_cons, List.not_mem_nil, or_false] at htype
    rcases htype with rfl | rfl <;> simp [ofField, hsplit]
  | none =>
    simp only [Suits, List.mem_cons, List.not_mem_nil, or_false] at hsuits
    rcases hsuits with rfl | rfl <;> rfl

/-! ## Records -/

namespace Inode

/-- The inode of a record of some form. -/
def ofRecord (sb : Superblock) (nid position : Nat) (layout : DataLayout) (b : ByteArray) :
    InodeVersion → Except Error Inode
  | .compact => do
    let record ← CompactInode.decode b
    let type ← typeOfMode nid record.mode
    return ofCompact sb nid position layout type record
  | .extended => do
    let record ← ExtendedInode.decode b
    let type ← typeOfMode nid record.mode
    return ofExtended nid position layout type record

/-- What a record of some form holds besides its inode. -/
def Spare.ofRecord (b : ByteArray) : InodeVersion → Spare
  | .compact =>
    ⟨littleEndian b 0 2 / 16, littleEndian b 12 4, littleEndian b 16 4, littleEndian b 28 4⟩
  | .extended =>
    ⟨littleEndian b 0 2 / 16, littleEndian b 6 2, littleEndian b 16 4, littleEndian b 48 16⟩

end Inode

theorem InodeVersion.bit_ofFormat (format : UInt16) : (ofFormat format).bit = format.toNat % 2 := by
  rw [ofFormat]
  split <;> simp only [bit] <;> omega

theorem InodeVersion.bit_injective {version other : InodeVersion} (h : version.bit = other.bit) :
    version = other := by
  cases version <;> cases other <;> first | rfl | cases h

theorem DataLayout.ofFormat_eq_ok_iff {format : UInt16} {layout : DataLayout} :
    ofFormat format = .ok layout ↔ format.toNat / 2 % 8 = layout.code := by
  have hlt : format.toNat / 2 % 8 < 8 := Nat.mod_lt _ (by decide)
  rw [ofFormat]
  generalize format.toNat / 2 % 8 = code at hlt ⊢
  cases layout <;> unfold ofCode <;> split <;> simp [DataLayout.code] <;> omega

namespace Inode

variable {version : InodeVersion} {layout : DataLayout} {type : FileType}

theorem typeOfMode_eq_ok_iff {mode : UInt16} :
    typeOfMode nid mode = .ok type ↔ FileType.ofMode? mode = some type := by
  unfold typeOfMode
  split <;> simp [*]

section

variable (hlayout : DataLayout.ofFormat (u16At b 0) = .ok layout)
  (hversion : InodeVersion.ofFormat (u16At b 0) = version)
include hlayout hversion

theorem formatField_eq (hi : i.layout = layout) (hiv : i.version = version) :
    i.formatField (.ofRecord b version) = littleEndian b 0 2 := by
  have hcode := DataLayout.ofFormat_eq_ok_iff.mp hlayout
  have hbit := InodeVersion.bit_ofFormat (u16At b 0)
  rw [toNat_u16At] at hcode hbit
  have hspare : (Spare.ofRecord b version).format = littleEndian b 0 2 / 16 := by
    cases version <;> rfl
  rw [formatField, hi, hiv, ← hversion, hbit, hversion, hspare]
  omega

end

/-- The numbers of a compact record are found again in its inode. -/
theorem readsFields_ofCompact (hlayout : DataLayout.ofFormat (u16At b 0) = .ok layout)
    (hversion : InodeVersion.ofFormat (u16At b 0) = .compact) {record : CompactInode}
    (hrecord : CompactInode.decode b = .ok record) :
    ReadsFields b 0 ((ofCompact sb nid position layout type record).recordFields
      (.ofRecord b .compact)) := by
  have hformat := formatField_eq hlayout hversion
    (i := ofCompact sb nid position layout type record) rfl rfl
  have hpayload := Payload.field_ofField type layout (u32At b 16)
  rw [CompactInode.decode] at hrecord
  split at hrecord
  · cases hrecord
  · cases hrecord
    rw [toNat_u32At] at hpayload
    simp only [ofCompact] at hformat
    simp only [recordFields, ofCompact, ReadsFields, hformat]
    refine ⟨(Nat.mod_eq_of_lt (littleEndian_lt ..)).symm, ?_⟩
    simp only [Spare.ofRecord, hpayload, xattrCountOf_inlineXattrSize, UInt16.toNat_toUInt32,
      UInt32.toNat_toUInt64, toNat_u16At, toNat_u32At, Nat.mod_eq_of_lt (littleEndian_lt ..),
      Nat.reduceAdd, and_true]

/-- And so are those of an extended record. -/
theorem readsFields_ofExtended (hlayout : DataLayout.ofFormat (u16At b 0) = .ok layout)
    (hversion : InodeVersion.ofFormat (u16At b 0) = .extended) {record : ExtendedInode}
    (hrecord : ExtendedInode.decode b = .ok record) :
    ReadsFields b 0 ((ofExtended nid position layout type record).recordFields
      (.ofRecord b .extended)) := by
  have hformat := formatField_eq hlayout hversion
    (i := ofExtended nid position layout type record) rfl rfl
  have hpayload := Payload.field_ofField type layout (u32At b 16)
  rw [ExtendedInode.decode] at hrecord
  split at hrecord
  · cases hrecord
  · cases hrecord
    rw [toNat_u32At] at hpayload
    simp only [ofExtended] at hformat
    simp only [recordFields, ofExtended, ReadsFields, hformat]
    refine ⟨(Nat.mod_eq_of_lt (littleEndian_lt ..)).symm, ?_⟩
    simp only [Spare.ofRecord, hpayload, xattrCountOf_inlineXattrSize, toNat_u16At, toNat_u32At,
      toNat_u64At, Nat.mod_eq_of_lt (littleEndian_lt ..), Nat.reduceAdd, and_true]

/-- The inode of a compact record can be written. -/
theorem recordable_ofCompact {record : CompactInode}
    (htype : FileType.ofMode? record.mode = some type) :
    (ofCompact sb nid position layout type record).Recordable sb where
  xattrSize_eq := ⟨_, UInt16.toNat_lt _, rfl⟩
  type_eq := htype
  payload_suits := Payload.suits_ofField (FileType.ofMode?_eq_some_iff.mp htype).1 ..
  of_compact _ := by
    simp only [ofCompact, UInt16.toNat_toUInt32, UInt32.toNat_toUInt64]
    exact ⟨UInt16.toNat_lt _, UInt32.toNat_lt _, UInt16.toNat_lt _, UInt16.toNat_lt _, trivial,
      trivial⟩

theorem recordable_ofExtended {record : ExtendedInode}
    (htype : FileType.ofMode? record.mode = some type) :
    (ofExtended nid position layout type record).Recordable sb where
  xattrSize_eq := ⟨_, UInt16.toNat_lt _, rfl⟩
  type_eq := htype
  payload_suits := Payload.suits_ofField (FileType.ofMode?_eq_some_iff.mp htype).1 ..
  of_compact hcompact := by cases hcompact

/-- **A record is found again in its inode**, up to what means nothing. -/
theorem recorded_of_ofRecord (hlayout : DataLayout.ofFormat (u16At b 0) = .ok layout)
    (hversion : InodeVersion.ofFormat (u16At b 0) = version) (hsize : version.recordSize ≤ b.size)
    (h : ofRecord sb nid position layout b version = .ok i) :
    i.nid = nid ∧ i.position = position ∧ i.version = version ∧ i.Recordable sb ∧
      HoldsAt b 0 (i.record (.ofRecord b version)) := by
  have hholds (hi : i.version = version)
      (hfields : ReadsFields b 0 (i.recordFields (.ofRecord b version))) :
      HoldsAt b 0 (i.record (.ofRecord b version)) := by
    refine (holdsAt_fieldBytes_iff ?_).mpr hfields
    change 0 + (i.record _).length ≤ b.size
    rwa [Nat.zero_add, length_record, hi]
  cases version with
  | compact =>
    obtain ⟨record, hrecord, h⟩ := bind_eq_ok.mp h
    obtain ⟨type, htype, ⟨⟩⟩ := bind_eq_ok.mp h
    exact ⟨rfl, rfl, rfl, recordable_ofCompact (typeOfMode_eq_ok_iff.mp htype),
      hholds rfl (readsFields_ofCompact hlayout hversion hrecord)⟩
  | extended =>
    obtain ⟨record, hrecord, h⟩ := bind_eq_ok.mp h
    obtain ⟨type, htype, ⟨⟩⟩ := bind_eq_ok.mp h
    exact ⟨rfl, rfl, rfl, recordable_ofExtended (typeOfMode_eq_ok_iff.mp htype),
      hholds rfl (readsFields_ofExtended hlayout hversion hrecord)⟩

/-- Every record has an inode, unless its mode has no type. -/
theorem ofRecord_spec (sb : Superblock) (nid position : Nat) (layout : DataLayout)
    (hsize : version.recordSize ≤ b.size) :
    match FileType.ofMode? (u16At b 4) with
    | some _ => ∃ i, ofRecord sb nid position layout b version = .ok i
    | none => ofRecord sb nid position layout b version = .error (.bogusMode nid (u16At b 4)) := by
  cases version with
  | compact =>
    rw [ofRecord, CompactInode.decode, if_neg (Nat.not_lt_of_le hsize)]
    cases hmode : FileType.ofMode? (u16At b 4) with
    | none => simp [typeOfMode, hmode, bind, Except.bind]
    | some type => simp [typeOfMode, hmode, bind, Except.bind, pure, Except.pure]
  | extended =>
    rw [ofRecord, ExtendedInode.decode, if_neg (Nat.not_lt_of_le hsize)]
    cases hmode : FileType.ofMode? (u16At b 4) with
    | none => simp [typeOfMode, hmode, bind, Except.bind]
    | some type => simp [typeOfMode, hmode, bind, Except.bind, pure, Except.pure]

/-- The first number of a record gives the form and the layout. -/
theorem ofFormat_of_formatField {spare : Spare} {format : UInt16}
    (h : format.toNat = i.formatField spare % 256 ^ 2) :
    InodeVersion.ofFormat format = i.version ∧ DataLayout.ofFormat format = .ok i.layout := by
  rw [formatField] at h
  have hbit : i.version.bit < 2 := by
    cases i.version <;> decide
  have hcode : i.layout.code < 8 := by
    cases i.layout <;> decide
  constructor
  · refine InodeVersion.bit_injective ?_
    rw [InodeVersion.bit_ofFormat]
    omega
  · rw [DataLayout.ofFormat_eq_ok_iff]
    omega

/-- The size of the extended attributes is found again in their number. -/
theorem inlineXattrSize_u16At {size : Nat} (hsize : ∃ count < 2 ^ 16, size = inlineXattrSize count)
    (h : littleEndian b n 2 = xattrCountOf size % 256 ^ 2) :
    inlineXattrSize (u16At b n).toNat = size := by
  obtain ⟨count, hcount, rfl⟩ := hsize
  rw [xattrCountOf_inlineXattrSize, Nat.mod_eq_of_lt hcount] at h
  rw [toNat_u16At, h]

/-- **An inode is found again in its record**, whatever else the record
holds. -/
theorem ofRecord_of_holdsAt (hi : i.Recordable sb) (hsize : i.version.recordSize ≤ b.size)
    {spare : Spare} (h : HoldsAt b 0 (i.record spare)) :
    ofRecord sb i.nid i.position i.layout b i.version = .ok i := by
  have hle : 0 + (i.record spare).length ≤ b.size := by
    rwa [Nat.zero_add, length_record]
  have hfields := (holdsAt_fieldBytes_iff hle).mp h
  obtain ⟨hxattr, htype, hsuits, hcompact⟩ := hi
  obtain ⟨nid, position, version, layout, xattrSize, ino, mode, type, uid, gid, linkCount,
    changeTime, changeTimeNanos, size, payload⟩ := i
  cases version with
  | compact =>
    obtain ⟨hlinkCount_lt, hsize_lt, huid_lt, hgid_lt, rfl, rfl⟩ := hcompact rfl
    obtain ⟨-, hcount, hmode, hlinkCount, hfile, -, hpayload, hino, huid, hgid, -⟩ := hfields
    obtain rfl := u16At_eq hmode
    rw [ofRecord, CompactInode.decode, if_neg (Nat.not_lt_of_le hsize)]
    refine bind_eq_ok.mpr ⟨_, rfl, bind_eq_ok.mpr ⟨type, typeOfMode_eq_ok_iff.mpr htype, ?_⟩⟩
    simp only [pure, Except.pure, ofCompact, inlineXattrSize_u16At hxattr hcount, u32At_eq hino,
      toUInt32_u16At huid_lt huid, toUInt32_u16At hgid_lt hgid,
      toUInt32_u16At hlinkCount_lt hlinkCount, toUInt64_u32At hsize_lt hfile,
      Payload.ofField_of_suits hsuits ((toNat_u32At ..).trans hpayload)]
  | extended =>
    obtain ⟨-, hcount, hmode, -, hfile, hpayload, hino, huid, hgid, htime, hnanos, hlinkCount, -⟩ :=
      hfields
    obtain rfl := u16At_eq hmode
    rw [ofRecord, ExtendedInode.decode, if_neg (Nat.not_lt_of_le hsize)]
    refine bind_eq_ok.mpr ⟨_, rfl, bind_eq_ok.mpr ⟨type, typeOfMode_eq_ok_iff.mpr htype, ?_⟩⟩
    simp only [pure, Except.pure, ofExtended, inlineXattrSize_u16At hxattr hcount, u32At_eq hino,
      u32At_eq huid, u32At_eq hgid, u64At_eq htime, u32At_eq hnanos, u32At_eq hlinkCount,
      u64At_eq hfile, Payload.ofField_of_suits hsuits ((toNat_u32At ..).trans hpayload)]

end Inode

end Erofs
