import Erofs.Proofs.Compression.Resolved
import Erofs.Proofs.Crc32c
import Erofs.Proofs.Volume.Answers
import Erofs.Proofs.Volume.Spans
/-!
# What the checksum guards

The checksum of a superblock is computed in two parts, but is that of the
covered bytes as a whole with zeros in the field that holds it
(`computeChecksum_eq`). So it leaves out this field and nothing else: two
blocks that differ in the field alone have one checksum
(`computeChecksum_congr`), and two that differ anywhere else, but only
within four bytes next to each other, have different ones
(`computeChecksum_ne`). So where a superblock is accepted, such damage to
the image makes it rejected (`onImage_verifyChecksum_of_differWithin`), on
whatever device and through whatever cache it is read.
-/

namespace Erofs

variable {b b' image image' : ByteArray} {start width i : Nat}

/-- Two strings of bytes of one size that differ at most in the `width`
bytes from `start` on. -/
structure DifferWithin (start width : Nat) (b b' : ByteArray) : Prop where
  size : b.size = b'.size
  outside : ∀ i, i < start ∨ start + width ≤ i → byteAt b i = byteAt b' i

/-- They have the bytes before and after those in common. -/
theorem DifferWithin.exists_append (h : DifferWithin start width b b') :
    ∃ before bytes bytes' after, bytes.length ≤ width ∧ bytes.length = bytes'.length ∧
      b.data.toList = before ++ bytes ++ after ∧ b'.data.toList = before ++ bytes' ++ after := by
  have hget : ∀ i, i < start ∨ start + width ≤ i → b.data.toList[i]? = b'.data.toList[i]? :=
    fun i hi => by rw [getElem?_data, getElem?_data, h.outside i hi, h.size]
  have hlength : b.data.toList.length = b'.data.toList.length := by simpa using h.size
  have hbefore : b.data.toList.take start = b'.data.toList.take start := by
    refine List.ext_getElem? fun i => ?_
    simp only [List.getElem?_take]
    split
    · next hi => exact hget i (.inl hi)
    · rfl
  have hafter : b.data.toList.drop (start + width) = b'.data.toList.drop (start + width) := by
    refine List.ext_getElem? fun i => ?_
    simp only [List.getElem?_drop]
    exact hget _ (.inr (Nat.le_add_right ..))
  have hsplit : ∀ l : List UInt8,
      l = l.take start ++ (l.drop start).take width ++ l.drop (start + width) := fun l => by
    rw [List.append_assoc, ← List.drop_drop, List.take_append_drop, List.take_append_drop]
  refine ⟨b.data.toList.take start, (b.data.toList.drop start).take width,
    (b'.data.toList.drop start).take width, b.data.toList.drop (start + width),
    List.length_take_le .., ?_, hsplit _, ?_⟩
  · simp only [List.length_take, List.length_drop, hlength]
  · rw [hbefore, hafter]
    exact hsplit _

/-- The same part of both differs at most in what is left of those bytes. -/
theorem DifferWithin.slice (h : DifferWithin start width b b') (offset length : Nat) :
    DifferWithin (start - offset) width (slice b offset length) (slice b' offset length) where
  size := by simp only [Erofs.slice, ByteArray.size_extract, h.size]
  outside i hi := by
    rcases Nat.lt_or_ge i length with hin | hpast
    · rw [byteAt_slice hin, byteAt_slice hin, h.outside _ (by omega)]
    · have hsize : ∀ c : ByteArray, (Erofs.slice c offset length).size ≤ i := fun c => by
        simp only [Erofs.slice, ByteArray.size_extract]
        omega
      rw [byteAt_of_size_le (hsize b), byteAt_of_size_le (hsize b')]

/-- **Damage of at most four bytes is not missed.** -/
theorem DifferWithin.eq_of_checksum_eq (h : DifferWithin start 4 b b')
    (hsum : Crc32c.checksum b = Crc32c.checksum b') : b = b' := by
  obtain ⟨before, bytes, bytes', after, hshort, hlength, hb, hb'⟩ := h.exists_append
  simp only [Crc32c.checksum, Crc32c.feedAll, ← Array.foldl_toList, hb, hb'] at hsum
  have hbytes := Crc32c.foldl_feed_inj hshort hlength hsum
  exact ByteArray.ext (Array.toList_inj.mp (by rw [hb, hb', hbytes]))

namespace Superblock

/-! ## The field that is left out -/

/-- Whether a byte of the covered bytes counts: those of the field of the
checksum do not. -/
def Counts (i : Nat) : Prop := i < 4 ∨ 8 ≤ i

instance : DecidablePred Counts := fun _ => inferInstanceAs (Decidable (_ ∨ _))

/-- The bytes with zeros in the field of the checksum. -/
def withoutChecksum (b : ByteArray) : ByteArray :=
  slice b 0 4 ++ zeros (min b.size 8 - min b.size 4) ++ b.extract 8 b.size

theorem size_withoutChecksum (b : ByteArray) : (withoutChecksum b).size = b.size := by
  simp only [withoutChecksum, slice, ByteArray.size_append, ByteArray.size_extract, size_zeros]
  omega

theorem byteAt_withoutChecksum (b : ByteArray) (i : Nat) :
    byteAt (withoutChecksum b) i = if Counts i then byteAt b i else 0 := by
  rcases Nat.lt_or_ge i b.size with hin | hpast
  · have hfront : (slice b 0 4).size = min 4 b.size := by
      simp only [slice, ByteArray.size_extract]
      omega
    simp only [withoutChecksum, byteAt_append, ByteArray.size_append, hfront, size_zeros,
      byteAt_zeros, byteAt_extract_size]
    by_cases hlow : i < 4
    · rw [if_pos (show Counts i from .inl hlow), if_pos (by omega), if_pos (by omega),
        byteAt_slice hlow, Nat.zero_add]
    · by_cases hfield : i < 8
      · rw [if_pos (by omega), if_neg (by omega), if_neg (by unfold Counts; omega)]
      · rw [if_neg (by omega), if_pos (show Counts i from .inr (by omega))]
        congr 1
        omega
  · rw [byteAt_of_size_le (by rwa [size_withoutChecksum]), byteAt_of_size_le hpast, ite_self]

theorem size_clearedHead (b : ByteArray) : (clearedHead b).size = min b.size recordSize := by
  simp only [clearedHead, slice, ByteArray.size_append, ByteArray.size_extract, size_zeros,
    size_paddedSlice, recordSize]
  omega

theorem byteAt_clearedHead (hi : i < min b.size recordSize) :
    byteAt (clearedHead b) i = if Counts i then byteAt b i else 0 := by
  have hrecord : i < recordSize := by omega
  have hfront : (slice (paddedSlice b 0 recordSize) 0 4).size = 4 :=
    size_slice (by simp [recordSize])
  simp only [clearedHead]
  rw [byteAt_slice hi, Nat.zero_add]
  simp only [byteAt_append, ByteArray.size_append, hfront, size_zeros, byteAt_zeros,
    byteAt_extract_size]
  by_cases hlow : i < 4
  · rw [if_pos (by omega), if_pos hlow, if_pos (show Counts i from .inl hlow),
      byteAt_slice hlow, Nat.zero_add, byteAt_paddedSlice hrecord, Nat.zero_add]
  · by_cases hfield : i < 8
    · rw [if_pos hfield, if_neg hlow, if_neg (by unfold Counts; omega)]
    · rw [if_neg hfield, if_pos (show Counts i from .inr (by omega)),
        byteAt_paddedSlice (by omega)]
      exact congrArg (byteAt b) (by omega)

/-- The two parts together are the covered bytes without the field. -/
theorem clearedHead_append_tail (b : ByteArray) :
    clearedHead b ++ tail b = withoutChecksum b := by
  refine ext_byteAt ?_ fun i hi => ?_
  · rw [ByteArray.size_append, size_clearedHead, size_withoutChecksum, tail,
      ByteArray.size_extract]
    omega
  · rw [byteAt_append, size_clearedHead, byteAt_withoutChecksum, tail, byteAt_extract_size]
    split
    · next hhead => exact byteAt_clearedHead hhead
    · next htail =>
      rw [ByteArray.size_append, size_clearedHead, tail, ByteArray.size_extract] at hi
      have hrecord : 8 ≤ i := by
        simp only [recordSize] at htail
        omega
      rw [if_pos (show Counts i from .inr hrecord)]
      congr 1
      omega

/-- **The checksum is that of the covered bytes as a whole.** -/
theorem computeChecksum_eq (b : ByteArray) :
    computeChecksum b = Crc32c.checksum (withoutChecksum b) := by
  rw [computeChecksum, Crc32c.checksumParts_eq, List.foldr_cons, List.foldr_cons, List.foldr_nil,
    ByteArray.append_empty, clearedHead_append_tail]

/-- **Bytes of the field do not count.** -/
theorem computeChecksum_congr (h : DifferWithin 4 4 b b') :
    computeChecksum b = computeChecksum b' := by
  rw [computeChecksum_eq, computeChecksum_eq]
  refine congrArg Crc32c.checksum (ext_byteAt ?_ fun i _ => ?_)
  · rw [size_withoutChecksum, size_withoutChecksum, h.size]
  · rw [byteAt_withoutChecksum, byteAt_withoutChecksum]
    split
    · next hi => exact h.outside i hi
    · rfl

/-- **All others do.** -/
theorem computeChecksum_ne (h : DifferWithin start 4 b b') (hi : Counts i)
    (hne : byteAt b i ≠ byteAt b' i) : computeChecksum b ≠ computeChecksum b' := by
  intro hsum
  rw [computeChecksum_eq, computeChecksum_eq] at hsum
  have hwithin : DifferWithin start 4 (withoutChecksum b) (withoutChecksum b') := {
    size := by rw [size_withoutChecksum, size_withoutChecksum, h.size]
    outside := fun j hj => by
      rw [byteAt_withoutChecksum, byteAt_withoutChecksum, h.outside j hj] }
  have hbyte := congrArg (byteAt · i) (hwithin.eq_of_checksum_eq hsum)
  simp only [byteAt_withoutChecksum, if_pos hi] at hbyte
  exact hne hbyte

/-! ## Verification -/

/-- What is compared, and what is said if it differs. -/
theorem onImage_verifyChecksum (sb : Superblock) :
    sb.verifyChecksum.onImage image =
      (imageRange image position (checksumLength sb.blockSize)).bind fun bytes =>
        if computeChecksum bytes = sb.checksum then .ok ()
        else .error (.checksumMismatch sb.checksum (computeChecksum bytes)) := by
  unfold verifyChecksum
  rw [Query.onImage_bind, Query.onImage_bytes]
  refine congrArg _ (funext fun bytes => ?_)
  generalize computeChecksum bytes = computed
  by_cases hequal : computed = sb.checksum
  · rw [if_pos hequal, if_pos hequal, Query.onImage_pure]
  · rw [if_neg hequal, if_neg hequal, Query.onImage_fail]

/-- An image that is accepted is rejected once it is damaged. -/
theorem onImage_verifyChecksum_of_differWithin {sb : Superblock}
    (hok : sb.verifyChecksum.onImage image = .ok ()) (h : DifferWithin start 4 image image')
    (hcovered : i < checksumLength sb.blockSize) (hi : Counts i)
    (hne : byteAt image (position + i) ≠ byteAt image' (position + i)) :
    ∃ computed, computed ≠ sb.checksum ∧
      sb.verifyChecksum.onImage image' = .error (.checksumMismatch sb.checksum computed) := by
  rw [onImage_verifyChecksum] at hok ⊢
  obtain ⟨bytes, hbytes, hequal⟩ := bind_eq_ok.mp hok
  obtain ⟨haddress, hsize, rfl⟩ := imageRange_eq_ok.mp hbytes
  have hbytes' : imageRange image' position (checksumLength sb.blockSize) =
      .ok (slice image' position (checksumLength sb.blockSize)) :=
    imageRange_eq_ok.mpr ⟨haddress, h.size ▸ hsize, rfl⟩
  have hsum : computeChecksum (slice image position (checksumLength sb.blockSize)) =
      sb.checksum := by
    by_contra hdiffer
    simp [hdiffer] at hequal
  have hsum' : computeChecksum (slice image' position (checksumLength sb.blockSize)) ≠
      sb.checksum := by
    rw [← hsum]
    refine (computeChecksum_ne (h.slice position _) hi ?_).symm
    rwa [byteAt_slice hcovered, byteAt_slice hcovered]
  refine ⟨_, hsum', ?_⟩
  rw [hbytes', Except.bind, if_neg hsum']

/-- **The checksum detects every short burst of damage.** Bytes that differ
within four places only, and in one that counts, have different checksums;
those that differ in the field alone have the same. So a superblock whose
block size is a 32-bit number and that is accepted with an image is rejected
with every image that was damaged like this where the checksum covers it. -/
theorem computeChecksum_guards {δ ε : Type} [BlockDevice δ] [BlockDevice ε] :
    (∀ {b b' : ByteArray} {start i : Nat}, DifferWithin start 4 b b' → Counts i →
      byteAt b i ≠ byteAt b' i → computeChecksum b ≠ computeChecksum b') ∧
    (∀ {b b' : ByteArray}, DifferWithin 4 4 b b' → computeChecksum b = computeChecksum b') ∧
    ∀ {sb : Superblock} {image image' : ByteArray} {blockSize blockSize' start i : Nat}
      {v : Volume δ} {w : Volume ε}, sb.bits < 32 →
      v.Delivers image blockSize → w.Delivers image' blockSize' →
      (v.ask sb.verifyChecksum).1 = .ok () →
      DifferWithin start 4 image image' → i < checksumLength sb.blockSize → Counts i →
      byteAt image (position + i) ≠ byteAt image' (position + i) →
      ∃ computed, computed ≠ sb.checksum ∧
        (w.ask sb.verifyChecksum).1 = .error (.checksumMismatch sb.checksum computed) ∧
        (Error.checksumMismatch sb.checksum computed).kind = .corrupted := by
  refine ⟨computeChecksum_ne, computeChecksum_congr, ?_⟩
  intro sb image image' blockSize blockSize' start i v w hbits hv hw hok h hcovered hi hne
  rw [hv.ask_fst (reads_verifyChecksum (fun _ hshort => hshort) hbits)] at hok
  obtain ⟨computed, hcomputed, hrejected⟩ :=
    onImage_verifyChecksum_of_differWithin hok h hcovered hi hne
  refine ⟨computed, hcomputed, ?_, rfl⟩
  rw [hw.ask_fst (reads_verifyChecksum (fun _ hshort => hshort) hbits), hrejected]

/-- A superblock that accepts an image of zeros. -/
def blankGuard : Superblock :=
  { bare 9 0 with checksum := computeChecksum (slice (zeros 1536) position 512) }

/-- An image of zeros with three bytes changed, two of them at the end of
the field. -/
def dented : ByteArray := zeros 1030 ++ ⟨#[1, 2, 3]⟩ ++ zeros 503

theorem differWithin_dented : DifferWithin 1030 4 (zeros 1536) dented where
  size := by simp only [dented, ByteArray.size_append, size_zeros]; rfl
  outside i hi := by
    have hmiddle : ByteArray.size ⟨#[1, 2, 3]⟩ = 3 := rfl
    simp only [dented, byteAt_append, byteAt_zeros, ByteArray.size_append, size_zeros, hmiddle]
    split
    · rw [if_pos (by omega)]
    · rfl

theorem computeChecksum_guards_dented :
    ∃ v w : Volume MemoryDevice, v.InUse (zeros 1536) 9 ∧ w.InUse dented 12 ∧
      (v.ask blankGuard.verifyChecksum).1 = .ok () ∧
      ∃ computed, computed ≠ blankGuard.checksum ∧
        (w.ask blankGuard.verifyChecksum).1 =
          .error (.checksumMismatch blankGuard.checksum computed) ∧
        (Error.checksumMismatch blankGuard.checksum computed).kind = .corrupted := by
  have hsize : (zeros 1536).size < 2 ^ 63 := by
    rw [size_zeros]
    decide
  have hdented : dented.size < 2 ^ 63 := differWithin_dented.size ▸ hsize
  obtain ⟨-, v, -, -, hv⟩ := Volume.exists_inUse hsize (show 9 < 32 by decide) 4 #[]
  obtain ⟨-, w, -, -, hw⟩ := Volume.exists_inUse hdented (show 12 < 32 by decide) 0 #[]
  have hok : (v.ask blankGuard.verifyChecksum).1 = .ok () := by
    have hrange : imageRange (zeros 1536) position (checksumLength blankGuard.blockSize) =
        .ok (slice (zeros 1536) position 512) :=
      imageRange_eq_ok.mpr ⟨by decide, by rw [size_zeros]; decide, rfl⟩
    rw [hv.delivers.ask_fst (reads_verifyChecksum (fun _ hshort => hshort) (by decide)),
      onImage_verifyChecksum, hrange, Except.bind, if_pos (by simp only [blankGuard])]
  refine ⟨v, w, hv, hw, hok, ?_⟩
  exact computeChecksum_guards.2.2 (i := 8) (by decide) hv.delivers hw.delivers hok
    differWithin_dented (by decide) (.inr (by decide)) (by decide +kernel)

end Superblock

end Erofs
