import Erofs.Proofs.Bytes
import Erofs.Proofs.Compression.IndexTable
/-!
# Full indexes of a table

A full index of a table has a record of eight bytes for each lcluster,
eight bytes after the map header. Nothing is said of the bits of a record
that have no meaning. A file whose full index is one of a table shows that
table, the distances ahead included (`shows_of_holdsFullIndex`).
-/

namespace Erofs

/-- The record of an lcluster stands at a position of an image: the type in
the low two bits of the first field, then the place in the lcluster and the
first block of a head, or behind a field without meaning the distances of
any other lcluster. -/
def HoldsRecord (image : ByteArray) (position : Nat) : Lcluster → Prop
  | .head storage offset block =>
    littleEndian image position 2 % 4 = storage.type.code ∧
      littleEndian image (position + 2) 2 = offset ∧
      littleEndian image (position + 4) 4 = block.toNat
  | .inner back ahead count =>
    littleEndian image position 2 % 4 = ClusterType.nonHead.code ∧
      littleEndian image (position + 4) 2 = writtenBack back count ∧
      littleEndian image (position + 6) 2 = ahead

instance (image : ByteArray) (position : Nat) (l : Lcluster) :
    Decidable (HoldsRecord image position l) :=
  match l with
  | .head .. => inferInstanceAs (Decidable (_ ∧ _ ∧ _))
  | .inner .. => inferInstanceAs (Decidable (_ ∧ _ ∧ _))

/-! ## Reading a record -/

namespace FullIndexRecord

variable {image : ByteArray} {s : TableShape} {e : TableEntry s} {k position : Nat}

/-- The fields of a record that is read from an image are numbers there. -/
theorem decode_slice (h : position + recordSize ≤ image.size) :
    ∃ r, decode (slice image position recordSize) = .ok r ∧
      r.typeCode = littleEndian image position 2 % 4 ∧
      r.offset.toNat = littleEndian image (position + 2) 2 ∧
      r.payload.toNat = littleEndian image (position + 4) 4 := by
  have hsize := size_slice h
  refine ⟨_, by rw [decode, if_neg (by omega)], ?_, ?_, ?_⟩
  · have := littleEndian_lt image position 2
    simp only [typeCode, u16At, @littleEndian_slice image position _ _ _
      (show 0 + 2 ≤ recordSize by decide), Nat.add_zero, Nat.toUInt16_eq, UInt16.toNat_ofNat']
    omega
  · have := littleEndian_lt image (position + 2) 2
    simp only [u16At, @littleEndian_slice image position _ _ _
      (show 2 + 2 ≤ recordSize by decide), Nat.toUInt16_eq, UInt16.toNat_ofNat']
    omega
  · have := littleEndian_lt image (position + 4) 4
    simp only [u32At, @littleEndian_slice image position _ _ _
      (show 4 + 4 ≤ recordSize by decide), Nat.toUInt32_eq, UInt32.toNat_ofNat']
    omega

/-- **The record of an lcluster of a table is read as that lcluster.** -/
theorem lcluster_eq {r : FullIndexRecord} (hk : k < e.span)
    (hrecord : HoldsRecord image position (e.lcluster k))
    (htype : r.typeCode = littleEndian image position 2 % 4)
    (hoffset : r.offset.toNat = littleEndian image (position + 2) 2)
    (hpayload : r.payload.toNat = littleEndian image (position + 4) 4) :
    r.lcluster = .ok (e.lcluster k) := by
  cases k with
  | zero =>
    obtain ⟨hcode, hplace, hblock⟩ := hrecord
    have hb : r.payload = e.block := UInt32.toNat.inj (hpayload.trans hblock)
    rw [lcluster, htype, hcode, hoffset, hplace, hb]
    cases h : e.storage <;> simp [TableEntry.lcluster, h, Storage.type, ClusterType.code,
      ClusterType.ofCode, bind, Except.bind, pure, Except.pure]
  | succ k =>
    obtain ⟨hcode, hback, hahead⟩ := hrecord
    -- the two distances share the field that holds the block of a head
    have hsplit : littleEndian image (position + 4) 4 =
        littleEndian image (position + 4) 2 + 256 ^ 2 * littleEndian image (position + 6) 2 :=
      littleEndian_add image (position + 4) 2 2
    have hlow := littleEndian_lt image (position + 4) 2
    have hb : r.back = writtenBack (k + 1) (e.countAt (k + 1)) := by
      rw [back, hpayload, ← hback]
      omega
    have ha : r.ahead = e.span - (k + 1) := by
      rw [ahead, hpayload, ← hahead]
      omega
    rw [lcluster, htype, hcode]
    simp only [bind, Except.bind, ClusterType.ofCode, ClusterType.code, hb, ha,
      e.markedBlockCount?_writtenBack hk, TableEntry.lcluster]
    by_cases hcount : e.countAt (k + 1) = 0
    · simp [hcount, writtenBack, pure, Except.pure]
    · obtain ⟨-, hone⟩ := e.countAt_ne_zero.mp hcount
      obtain rfl : k = 0 := by omega
      simp only [if_neg hcount, pure, Except.pure, Nat.zero_add]

end FullIndexRecord

/-! ## Reading the index -/

namespace CompressedFile

variable {f : CompressedFile} {sb : Superblock} {image : ByteArray}
variable {s : TableShape} {t : IndexTable s}

/-- The full index of some lclusters is in an image, behind a map header
that ends at `headerEnd`. -/
def HoldsFullIndex (image : ByteArray) (headerEnd : Nat) (ls : List Lcluster) : Prop :=
  ∀ lcn, (h : lcn < ls.length) →
    headerEnd + 8 + 8 * lcn + 8 ≤ image.size ∧ HoldsRecord image (headerEnd + 8 + 8 * lcn) ls[lcn]

instance (image : ByteArray) (headerEnd : Nat) (ls : List Lcluster) :
    Decidable (HoldsFullIndex image headerEnd ls) :=
  inferInstanceAs (Decidable (∀ lcn, (h : lcn < ls.length) → _))

/-- **Every lcluster is read as the table has it.** -/
theorem loadFull_eq {lcn : Nat} {l : Lcluster} (himage : image.size < addressLimit)
    (hindex : HoldsFullIndex image f.headerEnd t.lclusters)
    (hl : t.lclusters[lcn]? = some l) : (f.loadFull lcn).onImage image = .ok l := by
  obtain ⟨hlt, hget⟩ := List.getElem?_eq_some_iff.mp hl
  obtain ⟨hsize, hrecord⟩ := hindex lcn hlt
  obtain ⟨head, e, k, r, hk, rfl⟩ := IndexTable.exists_run hlt
  rw [r.get k hk, Option.some.injEq] at hl
  rw [hget, ← hl] at hrecord
  subst hl
  have hposition : f.headerEnd + 8 + 8 * (head + k) = f.fullIndexPosition (head + k) := by
    simp only [fullIndexPosition, fullIndexPadding, FullIndexRecord.recordSize]
    omega
  rw [hposition] at hsize hrecord
  obtain ⟨record, hdecode, htype, hoffset, hpayload⟩ := FullIndexRecord.decode_slice hsize
  unfold loadFull
  rw [Query.onImage_bind_of_ok (a := slice image (f.fullIndexPosition (head + k)) 8),
    Query.onImage_bind_of_ok (a := record)]
  · rw [Query.onImage_liftM]
    exact FullIndexRecord.lcluster_eq hk hrecord htype hoffset hpayload
  · rw [Query.onImage_liftM]
    exact hdecode
  · rw [Query.onImage_bytes, imageRange_eq_ok]
    exact ⟨Nat.lt_of_le_of_lt hsize himage, hsize, rfl⟩

/-- So they are read of a file with that index. -/
theorem load_of_holdsFullIndex {lcn : Nat} {l : Lcluster} (hformat : f.format = .full)
    (himage : image.size < addressLimit) (hfits : f.Fits sb t)
    (hindex : HoldsFullIndex image f.headerEnd t.lclusters)
    (hl : t.lclusters[lcn]? = some l) :
    (f.loadLcluster lcn).onImage image = .ok l := by
  rw [loadLcluster_eq_ok, hformat, hfits.count]
  exact ⟨(List.getElem?_eq_some_iff.mp hl).1, loadFull_eq himage hindex hl⟩

/-- **A file with the full index of a table shows it.** -/
theorem shows_of_holdsFullIndex (hformat : f.format = .full) (himage : image.size < addressLimit)
    (hfits : f.Fits sb t)
    (hindex : HoldsFullIndex image f.headerEnd t.lclusters) : f.Shows sb image t where
  toFits := hfits
  reads _ l hl := ⟨l, load_of_holdsFullIndex hformat himage hfits hindex hl, ReadAs.refl l⟩

end CompressedFile

end Erofs
