import Erofs.Proofs.Compression.Encodings
import Erofs.Proofs.Mount.Agreement
import Erofs.Proofs.Superblock.Checksum
/-!
# What an occupied size depends on

Two images may differ in everything but the map header of a file and its
index. The file is resolved to the same on both, and the walk is the same
(`same_walkFrom`), because nothing else is read of an lcluster than its record
or its pack (`indexSpan`). So is the size of the last pcluster, unless it has
to be decoded. Only then do bytes of data matter, and only those of this
pcluster (`sameSize_of_sameMetadata`).
-/

namespace Erofs

variable {α β : Type} {image image' : ByteArray} {offset length : Nat}

/-! ## Two images -/

/-- Two images have the bytes of a range in common. -/
def SameBytes (image image' : ByteArray) (offset length : Nat) : Prop :=
  ∀ i < length, byteAt image (offset + i) = byteAt image' (offset + i)

/-- Then the range is read the same, or fails the same. -/
theorem imageRange_congr (hsize : image.size = image'.size)
    (h : SameBytes image image' offset length) :
    imageRange image offset length = imageRange image' offset length := by
  unfold imageRange
  rw [← hsize]
  cases hrange : checkRange image.size offset length with
  | error cause => rfl
  | ok checked =>
    obtain ⟨-, hin⟩ := Volume.checkRange_eq_ok.mp hrange
    have hlength : (slice image offset length).size = length := size_slice hin
    have hlength' : (slice image' offset length).size = length := size_slice (hsize ▸ hin)
    refine congrArg Except.ok (ext_byteAt (hlength.trans hlength'.symm) fun i hi => ?_)
    rw [hlength] at hi
    rw [byteAt_slice hi, byteAt_slice hi, h i hi]

/-- Images that differ within a range have all others in common. -/
theorem DifferWithin.sameBytes {start width : Nat} (h : DifferWithin start width image image')
    (hout : offset + length ≤ start ∨ start + width ≤ offset) :
    SameBytes image image' offset length :=
  fun i hi => h.outside (offset + i) (by omega)

/-- Images that are alike but for one byte. -/
theorem differWithin_cons (front rest : List UInt8) (byte byte' : UInt8) :
    DifferWithin front.length 1 ⟨(front ++ byte :: rest).toArray⟩
      ⟨(front ++ byte' :: rest).toArray⟩ where
  size := by simp [ByteArray.size]
  outside i hi := by
    simp only [byteAt_eq_getD, List.getD_eq_getElem?_getD, List.getElem?_append]
    split
    · rfl
    · rw [List.getElem?_cons, List.getElem?_cons, if_neg (by omega), if_neg (by omega)]

namespace Query

/-- A query has one answer on two images. -/
def SameOn (image image' : ByteArray) (q : Query α) : Prop := q.onImage image = q.onImage image'

theorem same_pure (a : α) : (pure a : Query α).SameOn image image' := rfl

theorem same_fail (cause : Error) : (fail cause : Query α).SameOn image image' :=
  (onImage_fail cause).trans (onImage_fail cause).symm

theorem same_liftM (e : Except Error α) : (liftM e : Query α).SameOn image image' :=
  (onImage_liftM e).trans (onImage_liftM e).symm

/-- So has a sequence, if what follows the answer of the first has one. -/
theorem same_bind {q : Query α} {next : α → Query β} (hq : q.SameOn image image')
    (hnext : ∀ a, q.onImage image = .ok a → (next a).SameOn image image') :
    (q >>= next).SameOn image image' := by
  unfold SameOn
  rw [onImage_bind, onImage_bind, ← hq]
  cases ha : q.onImage image with
  | error cause => rfl
  | ok a => exact hnext a ha

theorem same_report_bind {remark : Remark} {next : Unit → Query β}
    (h : (next ()).SameOn image image') : (report remark >>= next).SameOn image image' :=
  same_bind rfl fun _ _ => h

theorem same_bytes (hsize : image.size = image'.size) (h : SameBytes image image' offset length) :
    (bytes offset length).SameOn image image' := by
  unfold SameOn
  rw [onImage_bytes, onImage_bytes, imageRange_congr hsize h]

/-- A range whose bytes do not matter is there in both images or in none. -/
theorem same_bytesDirect_bind {q : Query β} (hsize : image.size = image'.size)
    (hq : q.SameOn image image') :
    (bytesDirect offset length >>= fun _ => q).SameOn image image' := by
  unfold SameOn
  rw [onImage_bind, onImage_bind, onImage_bytesDirect, onImage_bytesDirect, imageRange, imageRange,
    ← hsize]
  cases checkRange image.size offset length with
  | error cause => rfl
  | ok checked => exact hq

end Query

namespace CompressedFile

open Query

variable {sb : Superblock} {i : Inode} {f : CompressedFile} {lcn : Nat}

/-! ## The index -/

/-- Where an index has the record of an lcluster, or its pack, and how long
that is. -/
def indexSpan (f : CompressedFile) (lcn : Nat) : Nat × Nat :=
  match f.format with
  | .full => (f.fullIndexPosition lcn, FullIndexRecord.recordSize)
  | .compact => ((f.packPlace lcn).base, (f.packPlace lcn).kind.size)

/-- Two images of one size that have the index of a file in common. -/
structure SameIndex (image image' : ByteArray) (f : CompressedFile) : Prop where
  size_eq : image.size = image'.size
  index {lcn : Nat} : lcn < f.lclusterCount →
    SameBytes image image' (f.indexSpan lcn).1 (f.indexSpan lcn).2

section

variable (h : f.SameIndex image image')
include h

/-- **An lcluster is read the same.** -/
theorem same_loadLcluster (lcn : Nat) : (f.loadLcluster lcn).SameOn image image' := by
  unfold loadLcluster
  split
  · exact same_fail _
  · next hlt =>
    have hspan := h.index (Nat.lt_of_not_le hlt)
    unfold indexSpan at hspan
    cases hformat : f.format with
    | full =>
      simp only [hformat] at hspan
      refine same_bind ?_ fun l _ => same_report_bind (same_pure l)
      exact same_bind (same_bytes h.size_eq hspan) fun bytes _ =>
        same_bind (same_liftM _) fun record _ => same_liftM _
    | compact =>
      simp only [hformat] at hspan
      refine same_bind ?_ fun l _ => same_report_bind (same_pure l)
      simp only [loadCompact]
      split
      · exact same_fail _
      · exact same_bind (same_bytes h.size_eq hspan) fun bytes _ => same_liftM _

theorem same_pclusterBlocks (lcn : Nat) (storage : Storage) :
    (f.pclusterBlocks sb lcn storage).SameOn image image' := by
  unfold pclusterBlocks
  split
  · exact same_pure _
  · split
    · exact same_pure _
    · refine same_bind (same_loadLcluster h _) fun l _ => ?_
      cases l with
      | head => exact same_pure _
      | inner =>
        simp only
        split
        · exact same_pure _
        · exact same_fail _

/-- **So the walk is the same.** -/
theorem same_walkFrom (lcn : Nat) (before : Collected) :
    (f.walkFrom sb lcn before).SameOn image image' := by
  induction lcn using f.steps_induction generalizing before with
  | done lcn hge =>
    rw [walkFrom, dif_neg (Nat.not_lt.mpr hge)]
    exact same_pure _
  | step lcn hlt ih =>
    rw [walkFrom, dif_pos hlt]
    refine same_bind (same_loadLcluster h lcn) fun l _ => ?_
    cases l with
    | head =>
      refine same_bind (same_pclusterBlocks h ..) fun blocks _ => ?_
      exact ih (lcn + 1) (by omega) _
    | inner back ahead count =>
      simp only
      split
      · exact same_fail _
      · exact ih (lcn + max ahead 1) (by omega) _

theorem same_extents : (f.extents sb).SameOn image image' := by
  refine same_bind (same_walkFrom h ..) fun map _ => ?_
  refine same_bind ?_ fun _ _ => same_report_bind (same_pure _)
  unfold compareCount
  split
  · split <;> rfl
  · rfl

end

/-! ## The last pcluster -/

/-- Where the last pcluster has to be decoded, its bytes are the same. -/
def SameLast (image image' : ByteArray) (sb : Superblock) (last : Pcluster) : Prop :=
  last.storage = .compressed → ¬ sb.hasZeroPadding →
    SameBytes image image' (sb.blockStart last.block.toNat) (last.blocks * sb.blockSize)

/-- **The size of the last pcluster is the same.** If it counts as full its
bytes are read, but it does not matter what they are. -/
theorem same_lastSize [Lz4.Compressor] {map : ExtentMap} (hsize : image.size = image'.size)
    (hlast : ∀ last, map.last? = some last → SameLast image image' sb last) :
    (f.lastSize sb map).SameOn image image' := by
  by_cases hdecoded : ∃ last, map.last? = some last ∧ last.storage = .compressed ∧
      ¬ sb.hasZeroPadding
  · obtain ⟨last, hsome, hstorage, hpadding⟩ := hdecoded
    refine onImage_lastSize_congr rfl rfl rfl fun last' hsome' => ?_
    cases hsome.symm.trans hsome'
    exact imageRange_congr hsize (hlast last hsome hstorage hpadding)
  · unfold lastSize
    cases hsome : map.last? with
    | none => exact same_fail _
    | some last =>
      simp only
      split
      · exact same_fail _
      · cases hstorage : last.storage with
        | plain => exact same_pure _
        | compressed =>
          have hpadding : sb.hasZeroPadding :=
            Decidable.not_not.mp fun hnone => hdecoded ⟨last, hsome, hstorage, hnone⟩
          refine same_bind (same_liftM _) fun codec _ => ?_
          simp only [hpadding, if_true]
          exact same_bytesDirect_bind hsize (same_pure _)

theorem same_occupiedSize [Lz4.Compressor] (h : f.SameIndex image image')
    (hlast : ∀ map last, (f.extents sb).onImage image = .ok map → map.last? = some last →
      SameLast image image' sb last) :
    (f.occupiedSize sb).SameOn image image' := by
  unfold occupiedSize
  split
  · exact same_pure _
  · refine same_bind (same_extents h) fun map hmap => ?_
    exact same_bind (same_lastSize h.size_eq fun last => hlast map last hmap) fun last _ =>
      same_pure _

/-! ## A file -/

/-- Two images of one size that have the map header of a file in common, and
its index. -/
structure SameMetadata (image image' : ByteArray) (sb : Superblock) (i : Inode) : Prop where
  size_eq : image.size = image'.size
  header : SameBytes image image' (MapHeader.positionAfter i.inlineDataPosition)
    MapHeader.recordSize
  index {f : CompressedFile} {lcn : Nat} : (resolve sb i).onImage image = .ok f →
    lcn < f.lclusterCount → SameBytes image image' (f.indexSpan lcn).1 (f.indexSpan lcn).2

/-- A file is resolved to the same. -/
theorem same_resolve (h : SameMetadata image image' sb i) :
    (resolve sb i).SameOn image image' := by
  refine same_bind (same_liftM _) fun format _ => ?_
  refine same_bind (same_bytes h.size_eq h.header) fun bytes _ => ?_
  refine same_bind (same_liftM _) fun header _ => ?_
  refine same_bind (same_liftM _) fun file _ => same_report_bind ?_
  exact same_bind (same_liftM _) fun _ _ => same_pure _

/-- The pcluster that the walk of a file ends in. -/
def EndsIn (image : ByteArray) (sb : Superblock) (i : Inode) (last : Pcluster) : Prop :=
  ∃ f map, (resolve sb i).onImage image = .ok f ∧ (f.extents sb).onImage image = .ok map ∧
    map.last? = some last

section
variable [Lz4.Compressor]

/-- Resolves an inode, and finds how much its data occupies. -/
def resolvedSize (sb : Superblock) (i : Inode) : Query Nat := do
  let f ← resolve sb i
  f.occupiedSize sb

/-- An inode occupies the same in two images, or that fails the same. If the
superblock is one that is accepted, so it does on all volumes. -/
structure SameSize (image image' : ByteArray) (sb : Superblock) (i : Inode) : Prop where
  onImage_eq : (resolvedSize sb i).onImage image = (resolvedSize sb i).onImage image'
  ask_eq {v w : Volume MemoryDevice} {k k' : Nat} : sb.validate = .ok () → v.InUse image k →
    w.InUse image' k' → (v.ask (resolvedSize sb i)).1 = (w.ask (resolvedSize sb i)).1

/-- Nothing long is read on the way. -/
theorem reads_resolvedSize (hvalid : sb.validate = .ok ()) :
    (resolvedSize sb i).Reads Short image := by
  have hallows : Statistics.Allows Short image sb := Mount.allows_of_validate hvalid
  exact reads_bind (reads_resolve hallows.short i) fun f hf =>
    reads_occupiedSize hallows.short fun map last => hallows.last i f map last hf

theorem SameSize.of_sameOn (h : (resolvedSize sb i).SameOn image image') :
    SameSize image image' sb i where
  onImage_eq := h
  ask_eq hvalid hv hw := by
    rw [hv.delivers.ask_fst (reads_resolvedSize hvalid),
      hw.delivers.ask_fst (reads_resolvedSize hvalid), h]

/-- **An occupied size depends on the index and on the last pcluster.** Two
images of one size have the map header and the index of a file in common,
and the bytes of its last pcluster, if that is compressed and there is no
zero padding. Then the file occupies the same in both. So no data at all
matters if the last pcluster is plain, or if there is zero padding. -/
theorem sameSize_of_sameMetadata (h : SameMetadata image image' sb i) :
    ((∀ last, EndsIn image sb i last → SameLast image image' sb last) →
      SameSize image image' sb i) ∧
    ((sb.hasZeroPadding ∨ ∀ last, EndsIn image sb i last → last.storage = .plain) →
      SameSize image image' sb i) := by
  have hsame : (∀ last, EndsIn image sb i last → SameLast image image' sb last) →
      SameSize image image' sb i := by
    intro hlast
    refine .of_sameOn (same_bind (same_resolve h) fun f hf => ?_)
    exact same_occupiedSize ⟨h.size_eq, h.index hf⟩ fun map last hmap hsome =>
      hlast last ⟨f, map, hf, hmap, hsome⟩
  refine ⟨hsame, fun hno => hsame fun last hends hstorage hpadding => ?_⟩
  rcases hno with hzero | hplain
  · exact absurd hzero hpadding
  · cases (hplain last hends).symm.trans hstorage

end

/-- The first block of an image with a file of two lclusters and two
pclusters, each of one block. The index is a pack of two heads. -/
def pairFront : List UInt8 :=
  List.replicate 40 0 ++ [0x00, 0x10, 0x00, 0x10, 0, 0, 0, 0] ++ List.replicate 464 0

/-- The image, with a byte of the first pcluster. -/
def pairImage (byte : UInt8) : ByteArray :=
  ⟨(pairFront ++ byte :: List.replicate 1023 0).toArray⟩

def pairInode : Inode := .bare .compressedCompact 1024

def pairFile (incompat : UInt32) : CompressedFile :=
  indexFile .compact (.bare 9 incompat) pairInode 0 0

section
attribute [local instance] Lz4.Compressor.greedy

/-- The map header and the index lie before that byte, and the last block
behind it. With zero padding the file occupies two blocks. -/
theorem sameSize_pairImage :
    SameSize (pairImage 1) (pairImage 2) (.bare 9 0) pairInode ∧
      SameSize (pairImage 1) (pairImage 2) (.bare 9 1) pairInode ∧
      (resolvedSize (.bare 9 1) pairInode).onImage (pairImage 2) = .ok 1024 := by
  have hlength : pairFront.length = 512 := by decide +kernel
  have hdiffer : DifferWithin 512 1 (pairImage 1) (pairImage 2) := by
    rw [← hlength]
    exact differWithin_cons ..
  have hresolve (incompat : UInt32) (hincompat : incompat = 0 ∨ incompat = 1) :
      (resolve (.bare 9 incompat) pairInode).onImage (pairImage 1) =
        .ok (pairFile incompat) := by
    rcases hincompat with rfl | rfl <;> decide +kernel
  have hmetadata (incompat : UInt32) (hincompat : incompat = 0 ∨ incompat = 1) :
      SameMetadata (pairImage 1) (pairImage 2) (.bare 9 incompat) pairInode := by
    refine ⟨hdiffer.size, hdiffer.sameBytes (.inl (by decide)), fun {f lcn} hf hlcn => ?_⟩
    cases (hresolve incompat hincompat).symm.trans hf
    have hspan : ∀ lcn < (pairFile incompat).lclusterCount,
        ((pairFile incompat).indexSpan lcn).1 + ((pairFile incompat).indexSpan lcn).2 ≤ 512 := by
      rcases hincompat with rfl | rfl <;> decide
    exact hdiffer.sameBytes (.inl (hspan lcn hlcn))
  have hmap : ((pairFile 0).extents (.bare 9 0)).onImage (pairImage 1) =
      .ok (.of 2 [⟨0, .compressed, 0, 1, 1⟩, ⟨1, .compressed, 0, 2, 1⟩]) := by
    decide +kernel
  have hpadded := (sameSize_of_sameMetadata (hmetadata 1 (.inr rfl))).2 (.inl (by decide))
  have hfull : (resolvedSize (.bare 9 1) pairInode).onImage (pairImage 1) = .ok 1024 := by
    decide +kernel
  refine ⟨(sameSize_of_sameMetadata (hmetadata 0 (.inl rfl))).1 ?_, hpadded,
    hpadded.onImage_eq ▸ hfull⟩
  rintro last ⟨f, map, hf, hmap', hlast⟩ - -
  cases (hresolve 0 (.inl rfl)).symm.trans hf
  cases hmap.symm.trans hmap'
  cases hlast
  exact hdiffer.sameBytes (.inr (by decide))

end

end CompressedFile

end Erofs
