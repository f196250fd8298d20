import Erofs.Proofs.Inode.Reading
import Erofs.Proofs.Mount.Agreement
import Erofs.Proofs.Superblock.Checksum
/-!
# Which images are accepted

An image is accepted if its superblock keeps six conditions
(`Superblock.Condition`). The first one that is violated decides how loading
fails (`onImage_load_spec`). What is loaded is the record in the image,
whether its checksum is verified or not.
-/

namespace Erofs

variable {image b : ByteArray} {offset length n m : Nat}

/-! ## Records in an image -/

theorem u32At_slice (h : n + 4 ≤ length) :
    u32At (slice image offset length) n = u32At image (offset + n) := by
  rw [u32At, littleEndian_slice h, u32At]

theorem u64At_slice (h : n + 8 ≤ length) :
    u64At (slice image offset length) n = u64At image (offset + n) := by
  rw [u64At, littleEndian_slice h, u64At]

/-- A slice of a slice. -/
theorem slice_slice (h : n + m ≤ length) :
    slice (slice image offset length) n m = slice image (offset + n) m := by
  simp only [slice, ByteArray.extract_extract]
  congr 1
  omega

namespace Superblock

/-- The record of the superblock in an image. -/
def recordIn (image : ByteArray) : Superblock where
  magic := u32At image position
  checksum := u32At image (position + 4)
  compat := u32At image (position + 8)
  blockBits := byteAt image (position + 12)
  reserved := byteAt image (position + 13)
  rootNid := u16At image (position + 14)
  inodeCount := u64At image (position + 16)
  buildTime := u64At image (position + 24)
  buildTimeNanos := u32At image (position + 32)
  blockCount := u32At image (position + 36)
  metaBlock := u32At image (position + 40)
  xattrBlock := u32At image (position + 44)
  uuid := slice image (position + 48) 16
  volumeName := slice image (position + 64) 16
  incompat := u32At image (position + 80)
  lz4MaxDistance := u16At image (position + 84)
  extraDevices := u16At image (position + 86)
  deviceTableSlot := u16At image (position + 88)

/-- It is what its bytes are decoded to. -/
theorem decode_slice (h : position + recordSize ≤ image.size) :
    decode (slice image position recordSize) = .ok (recordIn image) := by
  have hsize : (slice image position recordSize).size = recordSize := size_slice h
  unfold decode
  rw [hsize, if_neg (Nat.lt_irrefl _)]
  have h16 : ∀ n, n + 2 ≤ recordSize →
      u16At (slice image position recordSize) n = u16At image (position + n) := fun n => u16At_slice
  have h32 : ∀ n, n + 4 ≤ recordSize →
      u32At (slice image position recordSize) n = u32At image (position + n) := fun n => u32At_slice
  have h64 : ∀ n, n + 8 ≤ recordSize →
      u64At (slice image position recordSize) n = u64At image (position + n) := fun n => u64At_slice
  have h8 : ∀ n, n < recordSize →
      byteAt (slice image position recordSize) n = byteAt image (position + n) :=
    fun n => byteAt_slice
  have hslice : ∀ n, n + 16 ≤ recordSize →
      slice (slice image position recordSize) n 16 = slice image (position + n) 16 :=
    fun n => slice_slice
  rw [h32 0 (by decide), h32 4 (by decide), h32 8 (by decide), h8 12 (by decide),
    h8 13 (by decide), h16 14 (by decide), h64 16 (by decide), h64 24 (by decide),
    h32 32 (by decide), h32 36 (by decide), h32 40 (by decide), h32 44 (by decide),
    hslice 48 (by decide), hslice 64 (by decide), h32 80 (by decide), h16 84 (by decide),
    h16 86 (by decide), h16 88 (by decide)]
  rfl

/-- The bytes that the checksum covers: so many from the superblock on, with
zeros in the field of the checksum. -/
def coveredBytes (image : ByteArray) (length : Nat) : ByteArray :=
  ⟨Array.ofFn fun i : Fin length => if Counts i then byteAt image (position + i) else 0⟩

theorem size_coveredBytes (image : ByteArray) (length : Nat) :
    (coveredBytes image length).size = length := by
  simp [coveredBytes, ByteArray.size]

theorem byteAt_coveredBytes {i : Nat} (h : i < length) :
    byteAt (coveredBytes image length) i =
      if Counts i then byteAt image (position + i) else 0 := by
  rw [byteAt_of_lt (by rwa [size_coveredBytes])]
  simp [coveredBytes, ByteArray.getElem_eq_getElem_data]

/-- They are what the bytes of the image are without that field. -/
theorem withoutChecksum_slice (h : position + length ≤ image.size) :
    withoutChecksum (slice image position length) = coveredBytes image length := by
  refine ext_byteAt (by rw [size_withoutChecksum, size_slice h, size_coveredBytes]) fun i hi => ?_
  rw [size_withoutChecksum, size_slice h] at hi
  rw [byteAt_withoutChecksum, byteAt_slice hi, byteAt_coveredBytes hi]

/-! ## Conditions -/

/-- The conditions on which an image is accepted, in the order in which they
are looked at. -/
inductive Condition where
  /-- The record is there. -/
  | recordThere
  /-- It starts as it should. -/
  | magicRight
  /-- Blocks have 512 bytes to 64 KiB. -/
  | blockSizeAllowed
  /-- No data lies on other devices. -/
  | singleDevice
  /-- The bytes that the checksum covers are there. -/
  | coveredThere
  /-- The checksum is theirs. -/
  | checksumRight
  deriving DecidableEq, Repr

namespace Condition

/-- All of them, in this order. -/
def all : List Condition :=
  [recordThere, magicRight, blockSizeAllowed, singleDevice, coveredThere, checksumRight]

/-- How loading fails if the condition is the first that is violated. -/
def kind : Condition → ErrorKind
  | recordThere | coveredThere => .io
  | magicRight | checksumRight => .corrupted
  | blockSizeAllowed | singleDevice => .unsupported

/-- Whether an image keeps the condition, with the checksum verified or
not. -/
def Holds (image : ByteArray) (verify : Bool) : Condition → Prop
  | recordThere => position + recordSize ≤ image.size
  | magicRight => (recordIn image).magic = expectedMagic
  | blockSizeAllowed => 9 ≤ (recordIn image).bits ∧ (recordIn image).bits ≤ 16
  | singleDevice => ¬ ((recordIn image).hasIncompat IncompatFeature.deviceTable ∧
      0 < (recordIn image).extraDevices.toNat)
  | coveredThere => verify ∧ (recordIn image).hasChecksum →
      position + checksumLength (recordIn image).blockSize ≤ image.size
  | checksumRight => verify ∧ (recordIn image).hasChecksum →
      Crc32c.checksum (coveredBytes image (checksumLength (recordIn image).blockSize)) =
        (recordIn image).checksum

instance (image : ByteArray) (verify : Bool) : DecidablePred (Holds image verify)
  | recordThere => inferInstanceAs (Decidable (_ ≤ _))
  | magicRight => inferInstanceAs (Decidable (_ = _))
  | blockSizeAllowed => inferInstanceAs (Decidable (_ ∧ _))
  | singleDevice => inferInstanceAs (Decidable (¬ (_ ∧ _)))
  | coveredThere => inferInstanceAs (Decidable (_ ∧ _ → _))
  | checksumRight => inferInstanceAs (Decidable (_ ∧ _ → _))

/-- The first condition that an image violates, if there is any. -/
def firstViolated? (image : ByteArray) (verify : Bool) : Option Condition :=
  all.find? fun c => ¬ c.Holds image verify

theorem firstViolated?_eq_none {verify : Bool} :
    firstViolated? image verify = none ↔ ∀ c : Condition, c.Holds image verify := by
  have hall (c : Condition) : c ∈ all := by cases c <;> decide
  simp only [firstViolated?, List.find?_eq_none, decide_not, Bool.not_eq_true',
    decide_eq_false_iff_not, Decidable.not_not]
  exact ⟨fun h c => h c (hall c), fun h c _ => h c⟩

end Condition

/-! ## Sealing -/

/-- The image with the checksum of its covered bytes in its place. -/
def sealed (image : ByteArray) : ByteArray :=
  let sum := computeChecksum (slice image position (checksumLength (recordIn image).blockSize))
  slice image 0 (position + 4) ++ ⟨(bytesOf 4 sum.toNat).toArray⟩ ++
    image.extract (position + 8) image.size

/-- Nothing else is changed. -/
theorem differWithin_sealed (h : position + 8 ≤ image.size) :
    DifferWithin (position + 4) 4 image (sealed image) := by
  have hfront : (slice image 0 (position + 4)).size = position + 4 := size_slice (by omega)
  have hfield (sum : Nat) : ByteArray.size ⟨(bytesOf 4 sum).toArray⟩ = 4 := length_bytesOf 4 sum
  refine ⟨?_, fun i hi => ?_⟩
  · simp only [sealed, ByteArray.size_append, hfront, hfield, ByteArray.size_extract]
    omega
  · simp only [sealed, byteAt_append, ByteArray.size_append, hfront, hfield, byteAt_extract_size]
    rcases hi with hbefore | hafter
    · rw [if_pos (by omega), if_pos hbefore, byteAt_slice hbefore, Nat.zero_add]
    · have hplace : position + 8 + (i - (position + 4 + 4)) = i := by omega
      rw [if_neg (by omega), hplace]

/-- Numbers that lie outside are read the same. -/
theorem littleEndian_of_differWithin {b' : ByteArray} {start width : Nat}
    (h : DifferWithin start width b b') (hout : offset + n ≤ start ∨ start + width ≤ offset) :
    littleEndian b offset n = littleEndian b' offset n := by
  induction n generalizing offset with
  | zero => rfl
  | succ n ih => rw [littleEndian, littleEndian, h.outside offset (by omega), ih (by omega)]

/-- The checksum is read as it was put there. -/
theorem checksum_sealed (h : position + 8 ≤ image.size) :
    (recordIn (sealed image)).checksum =
      computeChecksum (slice image position (checksumLength (recordIn image).blockSize)) := by
  have hfront : (slice image 0 (position + 4)).data.toList.length = position + 4 := by
    rw [Array.length_toList]
    exact size_slice (by omega)
  have hholds (sum : UInt32) (rest : ByteArray) : HoldsAt
      (slice image 0 (position + 4) ++ ⟨(bytesOf 4 sum.toNat).toArray⟩ ++ rest) (position + 4)
      (bytesOf 4 sum.toNat) := by
    simp only [HoldsAt, ByteArray.data_append, Array.toList_append, List.append_assoc]
    rw [List.drop_left' hfront]
    exact List.prefix_append ..
  exact u32At_eq (hholds _ _).littleEndian_eq

/-- **Every image can be sealed.** If it is accepted as long as nobody looks
at its checksum, and has the bytes that this covers, it is accepted once it
is sealed. -/
theorem holds_sealed {verify : Bool} (hall : ∀ c : Condition, c.Holds image false)
    (hcovered : position + checksumLength (recordIn image).blockSize ≤ image.size)
    (c : Condition) : c.Holds (sealed image) verify := by
  have hrecord : position + recordSize ≤ image.size := hall .recordThere
  have hfield : position + 8 ≤ image.size := Nat.le_trans (by decide) hrecord
  have hdiffer := differWithin_sealed hfield
  have hsum := checksum_sealed hfield
  generalize sealed image = whole at hdiffer hsum ⊢
  have hmagic : (recordIn whole).magic = (recordIn image).magic :=
    congrArg Nat.toUInt32 (littleEndian_of_differWithin hdiffer (.inl (by decide))).symm
  have hbits : (recordIn whole).blockBits = (recordIn image).blockBits :=
    (hdiffer.outside _ (.inr (by decide))).symm
  have hincompat : (recordIn whole).incompat = (recordIn image).incompat :=
    congrArg Nat.toUInt32 (littleEndian_of_differWithin hdiffer (.inr (by decide))).symm
  have hdevices : (recordIn whole).extraDevices = (recordIn image).extraDevices :=
    congrArg Nat.toUInt16 (littleEndian_of_differWithin hdiffer (.inr (by decide))).symm
  have hsize := hdiffer.size
  cases c with
  | recordThere =>
    simp only [Condition.Holds]
    omega
  | magicRight =>
    simp only [Condition.Holds, hmagic]
    exact hall .magicRight
  | blockSizeAllowed =>
    simp only [Condition.Holds, bits, hbits]
    exact hall .blockSizeAllowed
  | singleDevice =>
    simp only [Condition.Holds, hasIncompat, hincompat, hdevices]
    exact hall .singleDevice
  | coveredThere =>
    intro _
    simp only [blockSize, bits, hbits, ← hsize]
    exact hcovered
  | checksumRight =>
    intro _
    have hsame : (recordIn whole).blockSize = (recordIn image).blockSize := by
      simp only [blockSize, bits, hbits]
    have hslice := hdiffer.slice position (checksumLength (recordIn image).blockSize)
    rw [hsame, hsum, computeChecksum_congr hslice, computeChecksum_eq,
      withoutChecksum_slice (by omega)]

/-! ## The rules of a record -/

section

variable {sb : Superblock}

theorem fails_validate (hmagic : sb.magic = expectedMagic)
    (hbits : ¬ (9 ≤ sb.bits ∧ sb.bits ≤ 16)) : Fails .unsupported sb.validate := by
  have hown : sb.hasMagic := beq_iff_eq.mpr hmagic
  have hodd : sb.bits < minBits ∨ maxBits < sb.bits := by
    simp only [minBits, maxBits]
    omega
  simp only [validate, hown, Bool.not_true, Bool.false_eq_true, if_false, if_pos hodd]
  exact ⟨_, rfl, rfl⟩

theorem validate_of_bits (hmagic : sb.magic = expectedMagic) (hbits : 9 ≤ sb.bits ∧ sb.bits ≤ 16) :
    sb.validate =
      if sb.hasIncompat IncompatFeature.deviceTable ∧ 0 < sb.extraDevices.toNat then
        .error .multiDevice
      else .ok () := by
  have hown : sb.hasMagic := beq_iff_eq.mpr hmagic
  have heven : ¬ (sb.bits < minBits ∨ maxBits < sb.bits) := by
    simp only [minBits, maxBits]
    omega
  simp only [validate, hown, Bool.not_true, Bool.false_eq_true, if_false, if_neg heven]

/-- Remarks on what is odd do not fail. -/
theorem onImage_check (sb : Superblock) : sb.check.onImage image = sb.validate := by
  have hreports (remarks : List Remark) :
      (remarks.forM Query.report).onImage image = .ok () := by
    induction remarks with
    | nil => rfl
    | cons remark rest ih => exact (Query.onImage_report_bind ..).trans ih
  rw [check, Query.onImage_bind, Query.onImage_liftM]
  cases sb.validate with
  | error cause => rfl
  | ok _ => exact hreports _

/-- The checksum of a superblock with blocks that are not too large covers
bytes that have addresses. -/
theorem inImage_covered (hbits : sb.bits ≤ 16)
    (hcovered : position + checksumLength sb.blockSize ≤ image.size) :
    InImage image position (checksumLength sb.blockSize) := by
  refine ⟨?_, hcovered⟩
  have hsize : sb.blockSize ≤ 2 ^ 16 := Nat.pow_le_pow_right (by decide) hbits
  have hlength : checksumLength sb.blockSize ≤ sb.blockSize := by
    unfold checksumLength
    split <;> omega
  simp only [position, addressLimit] at *
  omega

theorem fails_verifyChecksum
    (hcovered : ¬ position + checksumLength sb.blockSize ≤ image.size) :
    Fails .io (sb.verifyChecksum.onImage image) := by
  have hout : ¬ InImage image position (checksumLength sb.blockSize) := fun hin => hcovered hin.2
  rw [onImage_verifyChecksum]
  exact (fails_imageRange hout).bind

theorem onImage_verifyChecksum_of_covered (hbits : sb.bits ≤ 16)
    (hcovered : position + checksumLength sb.blockSize ≤ image.size) :
    sb.verifyChecksum.onImage image =
      let computed := Crc32c.checksum (coveredBytes image (checksumLength sb.blockSize))
      if computed = sb.checksum then .ok ()
      else .error (.checksumMismatch sb.checksum computed) := by
  rw [onImage_verifyChecksum, imageRange_of_inImage (inImage_covered hbits hcovered), Except.bind,
    computeChecksum_eq, withoutChecksum_slice hcovered]

end

/-! ## Loading -/

open Condition

theorem onImage_readRecord (hrecord : position + recordSize ≤ image.size) :
    readRecord.onImage image =
      if (recordIn image).hasMagic then .ok (recordIn image) else .error .badMagic := by
  have hin : InImage image position recordSize := ⟨by decide, hrecord⟩
  have hbytes : (Query.bytes position recordSize).onImage image =
      .ok (slice image position recordSize) :=
    (Query.onImage_bytes ..).trans (imageRange_of_inImage hin)
  rw [readRecord, Query.onImage_bind_of_ok hbytes,
    Query.onImage_bind_of_ok ((Query.onImage_liftM _).trans (decode_slice hrecord))]
  split
  · rfl
  · rw [Query.onImage_report_bind, Query.onImage_fail]

variable {verify : Bool}

theorem fails_load_of_no_record (hrecord : ¬ position + recordSize ≤ image.size) :
    Fails .io ((load verify).onImage image) := by
  have hout : ¬ InImage image position recordSize := fun hin => hrecord hin.2
  rw [load, readRecord, Query.bind_assoc, Query.onImage_bind, Query.onImage_bytes]
  exact (fails_imageRange hout).bind

theorem fails_load_of_magic (hrecord : position + recordSize ≤ image.size)
    (hmagic : (recordIn image).magic ≠ expectedMagic) :
    Fails .corrupted ((load verify).onImage image) := by
  have hforeign : ¬ (recordIn image).hasMagic := mt beq_iff_eq.mp hmagic
  rw [load, Query.onImage_bind, onImage_readRecord hrecord, if_neg hforeign]
  exact ⟨_, rfl, rfl⟩

/-- What is left to do once the record was read. -/
theorem onImage_load (hrecord : position + recordSize ≤ image.size)
    (hmagic : (recordIn image).magic = expectedMagic) :
    (load verify).onImage image =
      (recordIn image).validate.bind fun _ =>
        if verify && (recordIn image).hasChecksum then
          ((recordIn image).verifyChecksum.onImage image).bind fun _ => .ok (recordIn image)
        else .ok (recordIn image) := by
  have hown : (recordIn image).hasMagic := beq_iff_eq.mpr hmagic
  rw [load, Query.onImage_bind_of_ok ((onImage_readRecord hrecord).trans (if_pos hown)),
    Query.onImage_bind, onImage_check]
  refine congrArg _ (funext fun _ => ?_)
  split
  · rw [Query.onImage_bind]
    exact congrArg _ (funext fun _ => Query.onImage_report_bind ..)
  · exact Query.onImage_report_bind ..

theorem fails_load_of_bits (hrecord : position + recordSize ≤ image.size)
    (hmagic : (recordIn image).magic = expectedMagic)
    (hbits : ¬ (9 ≤ (recordIn image).bits ∧ (recordIn image).bits ≤ 16)) :
    Fails .unsupported ((load verify).onImage image) := by
  rw [onImage_load hrecord hmagic]
  exact (fails_validate hmagic hbits).bind

section

variable (hrecord : position + recordSize ≤ image.size)
variable (hmagic : (recordIn image).magic = expectedMagic)
variable (hbits : 9 ≤ (recordIn image).bits ∧ (recordIn image).bits ≤ 16)
include hrecord hmagic hbits

theorem fails_load_of_devices
    (hdevices : (recordIn image).hasIncompat IncompatFeature.deviceTable ∧
      0 < (recordIn image).extraDevices.toNat) :
    Fails .unsupported ((load verify).onImage image) := by
  rw [onImage_load hrecord hmagic, validate_of_bits hmagic hbits, if_pos hdevices]
  exact ⟨_, rfl, rfl⟩

variable (hdevices : singleDevice.Holds image verify)
include hdevices

/-- A record that keeps all rules is what is loaded, if nobody looks at its
checksum. -/
theorem onImage_load_of_not_verified (hverify : ¬ (verify ∧ (recordIn image).hasChecksum)) :
    (load verify).onImage image = .ok (recordIn image) := by
  rw [onImage_load hrecord hmagic, validate_of_bits hmagic hbits, if_neg hdevices, Except.bind,
    if_neg (by simpa using hverify)]

/-- Otherwise the checksum decides. -/
theorem onImage_load_of_verified (hverify : verify ∧ (recordIn image).hasChecksum) :
    (load verify).onImage image =
      ((recordIn image).verifyChecksum.onImage image).bind fun _ => .ok (recordIn image) := by
  rw [onImage_load hrecord hmagic, validate_of_bits hmagic hbits, if_neg hdevices, Except.bind,
    if_pos (by simpa using hverify)]

end

/-- **An image is accepted unless it violates a condition.** Then the first
that it violates decides the kind of the failure. -/
theorem onImage_load_spec (image : ByteArray) (verify : Bool) :
    match firstViolated? image verify with
    | none => (load verify).onImage image = .ok (recordIn image)
    | some c => Fails c.kind ((load verify).onImage image) := by
  by_cases hrecord : recordThere.Holds image verify
  case neg =>
    have hfirst : firstViolated? image verify = some .recordThere := by
      simp [firstViolated?, all, hrecord]
    rw [hfirst]
    exact fails_load_of_no_record hrecord
  by_cases hmagic : magicRight.Holds image verify
  case neg =>
    have hfirst : firstViolated? image verify = some .magicRight := by
      simp [firstViolated?, all, hrecord, hmagic]
    rw [hfirst]
    exact fails_load_of_magic hrecord hmagic
  by_cases hbits : blockSizeAllowed.Holds image verify
  case neg =>
    have hfirst : firstViolated? image verify = some .blockSizeAllowed := by
      simp [firstViolated?, all, hrecord, hmagic, hbits]
    rw [hfirst]
    exact fails_load_of_bits hrecord hmagic hbits
  by_cases hdevices : singleDevice.Holds image verify
  case neg =>
    have hfirst : firstViolated? image verify = some .singleDevice := by
      simp [firstViolated?, all, hrecord, hmagic, hbits, hdevices]
    rw [hfirst]
    exact fails_load_of_devices hrecord hmagic hbits (Decidable.not_not.mp hdevices)
  by_cases hverify : verify ∧ (recordIn image).hasChecksum
  case neg =>
    -- the last two conditions say nothing of an image that is not verified
    have hcovered : coveredThere.Holds image verify := fun h => absurd h hverify
    have hright : checksumRight.Holds image verify := fun h => absurd h hverify
    have hfirst : firstViolated? image verify = none := by
      simp [firstViolated?, all, hrecord, hmagic, hbits, hdevices, hcovered, hright]
    rw [hfirst]
    exact onImage_load_of_not_verified hrecord hmagic hbits hdevices hverify
  rw [onImage_load_of_verified hrecord hmagic hbits hdevices hverify]
  by_cases hcovered : coveredThere.Holds image verify
  case neg =>
    have hfirst : firstViolated? image verify = some .coveredThere := by
      simp [firstViolated?, all, hrecord, hmagic, hbits, hdevices, hcovered]
    rw [hfirst]
    exact (fails_verifyChecksum fun hin => hcovered fun _ => hin).bind
  rw [onImage_verifyChecksum_of_covered hbits.2 (hcovered hverify)]
  by_cases hright : checksumRight.Holds image verify
  case neg =>
    have hfirst : firstViolated? image verify = some .checksumRight := by
      simp [firstViolated?, all, hrecord, hmagic, hbits, hdevices, hcovered, hright]
    rw [hfirst]
    simp only [if_neg fun h => hright fun _ => h]
    exact ⟨_, rfl, rfl⟩
  have hfirst : firstViolated? image verify = none := by
    simp [firstViolated?, all, hrecord, hmagic, hbits, hdevices, hcovered, hright]
  rw [hfirst]
  simp only [if_pos (hright hverify)]
  rfl

/-- What loading the superblock of an image comes to. -/
structure Loads (image : ByteArray) (verify : Bool) (result : Except Error Superblock) :
    Prop where
  /-- It succeeds if every condition is kept, and not otherwise. -/
  ok_iff : (∃ sb, result = .ok sb) ↔ ∀ c : Condition, c.Holds image verify
  /-- The first condition that is violated decides how it fails. -/
  fails {c : Condition} : firstViolated? image verify = some c → Fails c.kind result
  /-- What is loaded is the record, decoded from its bytes. -/
  record {sb : Superblock} : result = .ok sb →
    sb = recordIn image ∧ decode (slice image position recordSize) = .ok sb

theorem loads_onImage (image : ByteArray) (verify : Bool) :
    Loads image verify ((load verify).onImage image) := by
  have hspec := onImage_load_spec image verify
  cases hfirst : firstViolated? image verify with
  | none =>
    rw [hfirst] at hspec
    have hall := firstViolated?_eq_none.mp hfirst
    refine ⟨⟨fun _ => hall, fun _ => ⟨_, hspec⟩⟩, fun {c} hc => ?_, fun {sb} hsb => ?_⟩
    · rw [hfirst] at hc
      cases hc
    · cases hspec.symm.trans hsb
      exact ⟨rfl, decode_slice (hall .recordThere)⟩
  | some c =>
    rw [hfirst] at hspec
    obtain ⟨cause, hcause, hkind⟩ := hspec
    refine ⟨⟨?_, fun hall => ?_⟩, fun {c'} hc' => ?_, fun {sb} hsb => ?_⟩
    · rintro ⟨sb, hsb⟩
      cases hcause.symm.trans hsb
    · rw [firstViolated?_eq_none.mpr hall] at hfirst
      cases hfirst
    · rw [hfirst] at hc'
      cases hc'
      exact ⟨cause, hcause, hkind⟩
    · cases hcause.symm.trans hsb

/-- An image that is accepted with its checksum verified is accepted without
that as well. -/
theorem onImage_load_false {sb : Superblock} (h : (load true).onImage image = .ok sb) :
    (load false).onImage image = .ok sb := by
  have hall := (loads_onImage image true).ok_iff.mp ⟨sb, h⟩
  have hall' (c : Condition) : c.Holds image false := by
    cases c with
    | recordThere => exact hall .recordThere
    | magicRight => exact hall .magicRight
    | blockSizeAllowed => exact hall .blockSizeAllowed
    | singleDevice => exact hall .singleDevice
    | coveredThere => exact fun hverify => absurd hverify.1 (by decide)
    | checksumRight => exact fun hverify => absurd hverify.1 (by decide)
  obtain ⟨sb', hsb'⟩ := (loads_onImage image false).ok_iff.mpr hall'
  rw [hsb', ((loads_onImage image false).record hsb').1, ((loads_onImage image true).record h).1]

/-- What comes of mounting is what comes of loading. -/
theorem map_mount (w : Mounting image) (maxDepth : Nat) (verify : Bool) :
    ((w.mount maxDepth verify).map Mount.superblock).mapError Prod.fst =
      (load verify).onImage image := by
  have hspec := w.mount_spec maxDepth verify
  revert hspec
  cases (load verify).onImage image with
  | error cause =>
    rintro ⟨journal, hmount⟩
    rw [hmount]
    rfl
  | ok sb =>
    rintro ⟨m, hmount, rfl, -⟩
    rw [hmount]
    rfl

/-- **The images that are accepted are those that keep all conditions.** An
image in memory may be used through a device with blocks of any size and
with any cache, or with none, and whatever was read before. Loading its
superblock, and mounting it, comes to what its bytes say. -/
theorem loads_inUse {v : Volume MemoryDevice} {k : Nat} (hv : v.InUse image k) :
    (∀ verify, Loads image verify (v.ask (load verify)).1) ∧
      (∀ sb, (v.ask (load true)).1 = .ok sb → (v.ask (load false)).1 = .ok sb) ∧
      ∀ (w : Mounting image) (maxDepth : Nat) (verify : Bool),
        Loads image verify
          (((w.mount maxDepth verify).map Mount.superblock).mapError Prod.fst) := by
  have hask (verify : Bool) : (v.ask (load verify)).1 = (load verify).onImage image :=
    hv.delivers.ask_fst (reads_load (fun _ hshort => hshort) verify)
  refine ⟨fun verify => ?_, fun sb hsb => ?_, fun w maxDepth verify => ?_⟩
  · rw [hask]
    exact loads_onImage image verify
  · rw [hask] at hsb ⊢
    exact onImage_load_false hsb
  · rw [map_mount]
    exact loads_onImage image verify

/-- A superblock with a checksum, and with a feature that nobody knows, in an
image of some length. The checksum covers 512 bytes. -/
def unsealedImage (length : Nat) : ByteArray :=
  let record := [0xE2, 0xE1, 0xF5, 0xE0, 0, 0, 0, 0, 1, 0, 0, 0, 9, 0, 36].rightpad 83 0 ++ [0x80]
  ⟨((List.replicate 1024 0 ++ record).rightpad length 0).toArray⟩

/-- If it has these bytes, it is accepted once it is sealed. If one of them is
missing it is not, unless nobody looks at the checksum. -/
theorem loads_unsealedImage :
    ∃ v w : Volume MemoryDevice, v.InUse (sealed (unsealedImage 1536)) 12 ∧
      w.InUse (unsealedImage 1535) 9 ∧
      (v.ask (load true)).1 = .ok (recordIn (sealed (unsealedImage 1536))) ∧
      (v.ask (load false)).1 = .ok (recordIn (sealed (unsealedImage 1536))) ∧
      Fails .io (w.ask (load true)).1 ∧
      (w.ask (load false)).1 = .ok (recordIn (unsealedImage 1535)) := by
  have hopen : firstViolated? (unsealedImage 1536) false = none := by decide +kernel
  have hcovered : position + checksumLength (recordIn (unsealedImage 1536)).blockSize ≤
      (unsealedImage 1536).size := by decide +kernel
  have hsize : (unsealedImage 1536).size < 2 ^ 63 := by decide +kernel
  have hshort : (unsealedImage 1535).size < 2 ^ 63 := by decide +kernel
  have hcut : firstViolated? (unsealedImage 1535) true = some .coveredThere := by decide +kernel
  have hignored : firstViolated? (unsealedImage 1535) false = none := by decide +kernel
  generalize unsealedImage 1536 = whole at hopen hcovered hsize ⊢
  generalize unsealedImage 1535 = cut at hcut hignored hshort ⊢
  have hrecord : position + recordSize ≤ whole.size := firstViolated?_eq_none.mp hopen .recordThere
  have hfield : position + 8 ≤ whole.size := Nat.le_trans (by decide) hrecord
  rw [(differWithin_sealed hfield).size] at hsize
  obtain ⟨-, v, -, -, hv⟩ := Volume.exists_inUse hsize (show 12 < 32 by decide) 4 #[]
  obtain ⟨-, w, -, -, hw⟩ := Volume.exists_inUse hshort (show 9 < 32 by decide) 0 #[]
  obtain ⟨hloads, hwithout, -⟩ := loads_inUse hv
  obtain ⟨hloads', -, -⟩ := loads_inUse hw
  obtain ⟨sb, hsb⟩ := (hloads true).ok_iff.mpr
    (holds_sealed (firstViolated?_eq_none.mp hopen) hcovered)
  obtain ⟨rfl, -⟩ := (hloads true).record hsb
  obtain ⟨sb', hsb'⟩ := (hloads' false).ok_iff.mpr (firstViolated?_eq_none.mp hignored)
  obtain ⟨rfl, -⟩ := (hloads' false).record hsb'
  exact ⟨v, w, hv, hw, hsb, hwithout _ hsb, (hloads' true).fails hcut, hsb'⟩

end Superblock

end Erofs
