import Erofs.Lz4.Plan
import Erofs.Proofs.Volume.Answers
/-!
# Images that were cut short

A volume of an image that was cut short answers as one of the whole image
does, until it is asked for bytes that were cut off, and then it fails
with an error of the device (`FailsClosed`). Zeros that fill up a last
block are never taken for bytes of the image, because ranges are checked
against the size of the image and not against its blocks. A query stops at
its first failure, so this carries over from reads to every request
(`truncated_fails_closed`).
-/

namespace Erofs

variable {δ ε α : Type} [BlockDevice δ] [BlockDevice ε]
variable {image rest : ByteArray} {blockSize offset length : Nat} {route : Route}

/-- The answer of an image that was cut short, next to that of the whole
image: they are the same, or the device failed. -/
def FailsClosed (shorter longer : Except Error α) : Prop :=
  shorter = longer ∨ ∃ cause, shorter = .error cause ∧ cause.kind = .io

/-- So a success is one of the whole image as well. -/
theorem FailsClosed.eq_ok {shorter longer : Except Error α} (h : FailsClosed shorter longer)
    {a : α} (ha : shorter = .ok a) : longer = .ok a := by
  rcases h with rfl | ⟨cause, hcause, -⟩
  · exact ha
  · cases ha.symm.trans hcause

/-- A slice of an image does not change when bytes are appended. -/
theorem slice_append (hin : offset + length ≤ image.size) :
    slice (image ++ rest) offset length = slice image offset length := by
  have hsize : offset + length ≤ (image ++ rest).size := by
    rw [ByteArray.size_append]
    omega
  refine ext_byteAt (by rw [size_slice hin, size_slice hsize]) fun i hi => ?_
  rw [size_slice hsize] at hi
  have hi' : offset + i < image.size := by omega
  rw [byteAt_slice hi, byteAt_slice hi, byteAt_of_lt hi',
    byteAt_of_lt (by rw [ByteArray.size_append]; omega), ByteArray.getElem_append_left hi']

theorem kind_of_checkRange {size : Nat} {cause : Error}
    (h : checkRange size offset length = .error cause) : cause.kind = .io := by
  unfold checkRange at h
  split at h
  · cases h
    rfl
  · split at h
    · cases h
      rfl
    · cases h

/-- Reads through the cache are short; those past it may be of any
length. -/
def CachedShort : Route → Nat → Prop := fun route length => route = .cached → length < shortLimit

namespace Volume

variable {v : Volume δ} {w : Volume ε}

/-- A read past the cache of too many blocks is refused, whatever the
image. -/
theorem read_of_many (h : v.Holds image blockSize)
    (hrange : checkRange image.size offset length = .ok ()) (hlength : 0 < length)
    (hmany : 2 ^ 32 ≤ blocksTouched blockSize offset length) :
    (v.read .direct offset length).1 = .error .rangeTooLarge := by
  rw [← h.size_eq] at hrange
  rw [← h.blockSize_eq] at hmany
  have hnone : transferBlocks? v.blockSize offset length = none := by
    refine Option.eq_none_iff_forall_ne_some.mpr fun count hcount => ?_
    obtain ⟨-, hfew, -⟩ := transferBlocks?_eq_some.mp hcount
    omega
  rw [read_of_direct hrange hlength (.inl rfl)]
  exact congrArg Prod.fst (readDirect_of_none (v := { v with reads := v.reads + 1 }) hnone)

variable (hv : v.Delivers image blockSize) (hw : w.Delivers (image ++ rest) blockSize)
include hv hw

/-- **One read of an image that was cut short.** -/
theorem read_failsClosed (hallowed : CachedShort route length) :
    FailsClosed (v.read route offset length).1 (w.read route offset length).1 := by
  cases hrange : checkRange image.size offset length with
  | error cause =>
    refine .inr ⟨cause, ?_, kind_of_checkRange hrange⟩
    rw [← hv.size_eq] at hrange
    rw [read_of_refused hrange]
  | ok checked =>
    obtain ⟨hlimit, hin⟩ := checkRange_eq_ok.mp hrange
    have hin' : offset + length ≤ (image ++ rest).size := by
      rw [ByteArray.size_append]
      omega
    have hrange' := checkRange_eq_ok.mpr ⟨hlimit, hin'⟩
    have hpos := hv.served.blockSize_pos
    left
    by_cases hmany : 0 < length ∧ route = .direct ∧
        2 ^ 32 ≤ blocksTouched blockSize offset length
    · obtain ⟨hlength, rfl, hmany⟩ := hmany
      rw [read_of_many hv.toHolds hrange hlength hmany,
        read_of_many hw.toHolds hrange' hlength hmany]
    · have hfew : blocksTouched blockSize offset length < 2 ^ 32 := by
        cases route with
        | cached => exact blocksTouched_lt_of_short hpos (hallowed rfl)
        | direct =>
          rcases Nat.eq_zero_or_pos length with rfl | hlength
          · exact blocksTouched_lt_of_short hpos (by decide)
          · exact Nat.lt_of_not_le fun h => hmany ⟨hlength, rfl, h⟩
      have hcount := transferBlocks?_of_le hw.fits hin' hfew
      rw [hv.toHolds.read_fst hv.delivered fun _ _ => ⟨_, hcount⟩,
        hw.toHolds.read_fst hw.delivered fun _ _ => ⟨_, hcount⟩,
        imageRange_eq_ok.mpr ⟨hlimit, hin, rfl⟩, imageRange_eq_ok.mpr ⟨hlimit, hin', rfl⟩,
        slice_append hin]

omit hv hw [BlockDevice ε] in
/-- A query that fails leaves a line and fails. -/
theorem ask_fail (v : Volume δ) (cause : Error) :
    (v.ask (.fail cause : Query α)).1 = .error cause := by
  simp only [ask, Query.attempt, Session.reportFailure]
  cases cause.remark? <;> rfl

/-- **One query to an image that was cut short:** as long as its reads
succeed they answer the same, and the first that does not ends it. -/
theorem ask_failsClosed {q : Query α} (hq : q.Reads CachedShort image) :
    FailsClosed (v.ask q).1 (w.ask q).1 := by
  induction q generalizing v w with
  | done a => exact .inl rfl
  | fail cause => exact .inl (by rw [ask_fail, ask_fail])
  | note remark next ih =>
    exact ih (hv.of_becomes (.note remark .refl)) (hw.of_becomes (.note remark .refl)) hq
  | read route offset length next ih =>
    have hread : FailsClosed (v.read route offset length).1 (w.read route offset length).1 :=
      read_failsClosed hv hw hq.1
    have hspec := (hv.toHolds.read_spec route offset length).2
    have hv' := hv.of_becomes (.read route offset length .refl)
    have hw' := hw.of_becomes (.read route offset length .refl)
    simp only [ask, Query.attempt, perform]
    rcases hread with heq | ⟨cause, hcause, hkind⟩
    · rw [← heq]
      cases hanswer : (v.read route offset length).1 with
      | error cause => exact .inl rfl
      | ok bytes => exact ih bytes hv' hw' (hq.2 bytes (hspec bytes hanswer))
    · rw [hcause]
      exact .inr ⟨cause, rfl, hkind⟩

end Volume

/-- **Truncation fails closed.** An image that was cut short is asked
anything, on a volume with the same block size as one of the whole image,
with the same superblock and the same arguments, whatever both volumes
were used for before. It gives the same answer or the same failure, or
else the device failed. So appending bytes to an image changes no answer
but failures of the device. The superblock need not be one that is
accepted, as long as the size of its blocks has 32 bits. -/
theorem truncated_fails_closed [Lz4.Compressor] (image rest : ByteArray) (k : Nat)
    {v w : Volume MemoryDevice} (hv : v.InUse image k) (hw : w.InUse (image ++ rest) k)
    {sb : Superblock} (hbits : sb.bits < 32) (r : Request α) :
    FailsClosed (v.ask (r.query sb)).1 (w.ask (r.query sb)).1 ∧
      ∀ a, (v.ask (r.query sb)).1 = .ok a → (w.ask (r.query sb)).1 = .ok a := by
  have hreads : (r.query sb).Reads CachedShort image :=
    r.reads_query hbits (fun length h _ => h) fun last _ h => by cases h
  have h := Volume.ask_failsClosed hv.delivers hw.delivers hreads
  exact ⟨h, fun a => h.eq_ok⟩

section
attribute [local instance] Lz4.Compressor.greedy

/-- An image whose second inode was cut off: with the bytes back in place,
the inode may be read, and without them only the device fails. -/
theorem truncated_fails_closed_secondInode :
    ∃ v w : Volume MemoryDevice, v.InUse (zeros 40) 9 ∧ w.InUse (zeros 40 ++ zeros 24) 9 ∧
      (Superblock.bare 9 0).bits < 32 ∧
      FailsClosed (v.ask ((Request.readInode 1).query (.bare 9 0))).1
        (w.ask ((Request.readInode 1).query (.bare 9 0))).1 := by
  have hsize : (zeros 40).size < 2 ^ 63 := by decide
  have hsize' : (zeros 40 ++ zeros 24).size < 2 ^ 63 := by decide
  obtain ⟨-, v, -, -, hv⟩ := Volume.exists_inUse hsize (show 9 < 32 by decide) 4 #[]
  obtain ⟨-, w, -, -, hw⟩ := Volume.exists_inUse hsize' (show 9 < 32 by decide) 0 #[]
  exact ⟨v, w, hv, hw, by decide,
    (truncated_fails_closed (zeros 40) (zeros 24) 9 hv hw (by decide) (.readInode 1)).1⟩

end

end Erofs
