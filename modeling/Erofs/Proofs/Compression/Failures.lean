import Erofs.Proofs.Compression.Walk
import Erofs.Proofs.Lz4.Turns
/-!
# Why reading a compressed file fails

A failure is passed on as it is, so a computation fails for no other
reasons than its parts (`FailsFor.bind`). Reading an index fails for one of
ten reasons, whatever its bytes are (`CompressedFile.failsFor_extents`), and
decoding a block for one of five (`Lz4.failsFor_decode`).
-/

namespace Erofs

variable {α β : Type} {P Q : Error → Prop} {image : ByteArray}

/-- A computation fails for no other reasons than these. -/
def FailsFor (P : Error → Prop) (e : Except Error α) : Prop := ∀ cause, e = .error cause → P cause

namespace FailsFor

theorem ok (a : α) : FailsFor P (.ok a) := by
  intro cause h
  cases h

theorem error {cause : Error} (h : P cause) : FailsFor P (.error cause : Except Error α) := by
  intro other hother
  cases hother
  exact h

theorem mono {e : Except Error α} (h : FailsFor P e) (hPQ : ∀ cause, P cause → Q cause) :
    FailsFor Q e := by
  intro cause hcause
  exact hPQ cause (h cause hcause)

/-- A sequence of two computations fails if the first does, or the
second. -/
theorem bind {e : Except Error α} {next : α → Except Error β} (h : FailsFor P e)
    (hnext : ∀ a, e = .ok a → FailsFor P (next a)) : FailsFor P (e >>= next) := by
  cases e with
  | error cause => exact .error (h cause rfl)
  | ok a => exact hnext a rfl

theorem map {e : Except Error α} (h : FailsFor P e) (f : α → β) : FailsFor P (e.map f) := by
  cases e with
  | error cause => exact .error (h cause rfl)
  | ok a => exact .ok (f a)

/-- So does a sequence of two queries. -/
theorem onImage_bind {q : Query α} {next : α → Query β} (h : FailsFor P (q.onImage image))
    (hnext : ∀ a, q.onImage image = .ok a → FailsFor P ((next a).onImage image)) :
    FailsFor P ((q >>= next).onImage image) := by
  rw [Query.onImage_bind]
  exact h.bind hnext

/-- A remark is no reason to fail. -/
theorem onImage_report_bind {remark : Remark} {next : Unit → Query β}
    (h : FailsFor P ((next ()).onImage image)) :
    FailsFor P ((Query.report remark >>= next).onImage image) := by
  rw [Query.onImage_report_bind]
  exact h

theorem onImage_fail {cause : Error} (h : P cause) :
    FailsFor P ((Query.fail cause : Query α).onImage image) := by
  rw [Query.onImage_fail]
  exact .error h

theorem onImage_liftM {e : Except Error α} (h : FailsFor P e) :
    FailsFor P ((liftM e : Query α).onImage image) := by
  rw [Query.onImage_liftM]
  exact h

/-- Reading some bytes fails if they are not there. -/
theorem imageRange {offset length : Nat} (hoverflow : P .rangeOverflow) (hend : P .rangePastEnd) :
    FailsFor P (imageRange image offset length) := by
  refine FailsFor.map ?_ _
  unfold checkRange
  split
  · exact .error hoverflow
  · split
    · exact .error hend
    · exact .ok ()

end FailsFor

/-! ## Indexes -/

/-- The reasons for which reading an index fails. -/
def Error.isOfIndex : Error → Bool
  | rangeOverflow | rangePastEnd | shortLclusterIndex | lclusterPastEndOfFile
  | reservedLclusterType | unsupportedPackGeometry | entryOutsidePack | bogusPackDelta _
  | missingBlockCount .. | noLeadingHead => true
  | _ => false

/-- Nothing else goes wrong with an index. -/
abbrev FailsOfIndex (e : Except Error α) : Prop := FailsFor (·.isOfIndex = true) e

theorem ClusterType.failsFor_ofCode (code : Nat) : FailsOfIndex (ofCode code) := by
  unfold ofCode
  split
  · exact .ok _
  · exact .ok _
  · exact .ok _
  · exact .error rfl

theorem FullIndexRecord.failsFor_decode (b : ByteArray) : FailsOfIndex (decode b) := by
  unfold decode
  split
  · exact .error rfl
  · exact .ok _

theorem FullIndexRecord.failsFor_lcluster (r : FullIndexRecord) : FailsOfIndex r.lcluster := by
  refine (ClusterType.failsFor_ofCode _).bind fun type _ => ?_
  cases type with
  | plain => exact .ok _
  | head => exact .ok _
  | nonHead => cases hmark : markedBlockCount? r.back <;> exact .ok _

namespace Pack

variable (p : Pack) (f : CompressedFile) (slot : Nat)

theorem failsFor_entry : FailsOfIndex (p.entry slot) := by
  unfold entry
  simp only
  split
  · exact .error rfl
  · exact .ok _

theorem failsFor_distanceAhead : FailsOfIndex (p.distanceAhead slot) := by
  fun_induction p.distanceAhead slot with
  | case1 slot ih =>
    refine (failsFor_entry p slot).bind fun e _ => ?_
    split
    · exact .ok _
    · split
      · next hnext => exact (ih hnext).bind fun _ _ => .ok _
      · split <;> exact .ok _

theorem failsFor_distanceBackFromLast : FailsOfIndex (p.distanceBackFromLast slot) := by
  refine (failsFor_entry p (slot - 1)).bind fun e _ => ?_
  split
  · exact .ok _
  · split <;> exact .ok _

theorem failsFor_pclustersBefore : FailsOfIndex (p.pclustersBefore slot) := by
  fun_induction p.pclustersBefore slot with
  | case1 => exact .ok _
  | case2 slot ih ihSkip =>
    refine (failsFor_entry p slot).bind fun e _ => ?_
    split
    · exact ih.bind fun _ _ => .ok _
    · split
      · exact .ok _
      · next hlow => exact (ihSkip e hlow).bind fun _ _ => .ok _

theorem failsFor_blocksBefore (nid : Nat) : FailsOfIndex (p.blocksBefore nid slot) := by
  fun_induction p.blocksBefore nid slot with
  | case1 => exact .ok _
  | case2 slot ih ihCount ihSkip =>
    refine (failsFor_entry p slot).bind fun e _ => ?_
    split
    · exact ih.bind fun _ _ => .ok _
    · split
      · exact ihCount.bind fun _ _ => .ok _
      · split
        · exact .error rfl
        · exact ihSkip e

theorem failsFor_blocksFromBase : FailsOfIndex (p.blocksFromBase f slot) := by
  unfold blocksFromBase
  split
  · exact failsFor_blocksBefore p slot _
  · exact (failsFor_pclustersBefore p slot).map _

theorem failsFor_lcluster : FailsOfIndex (p.lcluster f slot) := by
  refine (failsFor_entry p slot).bind fun e _ => ?_
  refine (ClusterType.failsFor_ofCode _).bind fun type _ => ?_
  cases type with
  | plain => exact (failsFor_blocksFromBase p f slot).bind fun _ _ => .ok _
  | head => exact (failsFor_blocksFromBase p f slot).bind fun _ _ => .ok _
  | nonHead =>
    refine (failsFor_distanceAhead p slot).bind fun ahead _ => ?_
    cases markedBlockCount? e.low with
    | some count => exact .ok _
    | none =>
      simp only
      split
      · exact (failsFor_distanceBackFromLast p slot).bind fun _ _ => .ok _
      · exact .ok _

end Pack

namespace CompressedFile

variable (f : CompressedFile) (sb : Superblock) (image : ByteArray)

theorem failsFor_loadFull (lcn : Nat) : FailsOfIndex ((f.loadFull lcn).onImage image) := by
  refine FailsFor.onImage_bind ?_ fun bytes _ => ?_
  · rw [Query.onImage_bytes]
    exact .imageRange rfl rfl
  · refine FailsFor.onImage_bind (.onImage_liftM (FullIndexRecord.failsFor_decode _)) ?_
    exact fun record _ => .onImage_liftM record.failsFor_lcluster

theorem failsFor_loadCompact (lcn : Nat) : FailsOfIndex ((f.loadCompact lcn).onImage image) := by
  unfold loadCompact
  simp only
  split
  · exact .onImage_fail rfl
  · refine FailsFor.onImage_bind ?_ fun bytes _ => .onImage_liftM (Pack.failsFor_lcluster _ f _)
    rw [Query.onImage_bytes]
    exact .imageRange rfl rfl

theorem failsFor_loadLcluster (lcn : Nat) :
    FailsOfIndex ((f.loadLcluster lcn).onImage image) := by
  unfold loadLcluster
  split
  · exact .onImage_fail rfl
  · -- what comes after the index is read is only a remark
    cases f.format with
    | full =>
      exact FailsFor.onImage_bind (failsFor_loadFull f image lcn) fun l _ =>
        .onImage_report_bind (FailsFor.ok l)
    | compact =>
      exact FailsFor.onImage_bind (failsFor_loadCompact f image lcn) fun l _ =>
        .onImage_report_bind (FailsFor.ok l)

theorem failsFor_pclusterBlocks (lcn : Nat) (storage : Storage) :
    FailsOfIndex ((f.pclusterBlocks sb lcn storage).onImage image) := by
  unfold pclusterBlocks
  split
  · exact .ok _
  · split
    · exact .ok _
    · refine FailsFor.onImage_bind (failsFor_loadLcluster f image _) fun l _ => ?_
      cases l with
      | head => exact .ok _
      | inner back ahead count =>
        simp only
        split
        · exact .ok _
        · exact .onImage_fail rfl

theorem failsFor_walkFrom (lcn : Nat) (before : Collected) :
    FailsOfIndex ((f.walkFrom sb lcn before).onImage image) := by
  induction lcn using f.steps_induction generalizing before with
  | done lcn hge =>
    rw [walkFrom_of_end hge]
    exact .ok _
  | step lcn hlt ih =>
    rw [walkFrom_of_lt hlt]
    refine (failsFor_loadLcluster f image lcn).bind fun l _ => ?_
    cases l with
    | head storage offset block =>
      refine (failsFor_pclusterBlocks f sb image lcn storage).bind fun blocks _ => ?_
      exact ih (lcn + 1) (by omega) _
    | inner back ahead count =>
      simp only
      split
      · exact .error rfl
      · exact ih (lcn + max ahead 1) (by omega) _

/-- **A walk fails for no other reasons** than those of an index. -/
theorem failsFor_extents : FailsOfIndex ((f.extents sb).onImage image) := by
  rw [extents_eq]
  exact failsFor_walkFrom f sb image 0 .empty

end CompressedFile

/-! ## Blocks -/

/-- The reasons for which decoding a block fails. -/
def Error.isOfBlock : Error → Bool
  | lz4LengthTruncated | lz4InputEnded | lz4LiteralsPastInput | lz4OffsetMissing
  | lz4OffsetOutOfRange => true
  | _ => false

/-- For all of them the block is to blame. -/
theorem Error.kind_of_isOfBlock {cause : Error} (h : cause.isOfBlock = true) :
    cause.kind = .corrupted := by
  cases cause with
  | lz4LengthTruncated | lz4InputEnded | lz4LiteralsPastInput | lz4OffsetMissing
  | lz4OffsetOutOfRange => rfl
  | _ => cases h

/-- Nothing else goes wrong with a block. -/
abbrev FailsOfBlock (e : Except Error α) : Prop := FailsFor (·.isOfBlock = true) e

namespace Lz4

theorem failsFor_extendLength (length : Nat) (src : List UInt8) :
    FailsOfBlock (extendLength length src) := by
  induction src generalizing length with
  | nil => exact .error rfl
  | cons b src ih =>
    rw [extendLength]
    split
    · exact ih _
    · exact .ok _

theorem failsFor_readLength (half : Nat) (src : List UInt8) :
    FailsOfBlock (readLength half src) := by
  unfold readLength
  split
  · exact failsFor_extendLength half src
  · exact .ok _

theorem failsFor_literalsOf (target : Nat) (out : ByteArray) (literals : Nat) (src : List UInt8) :
    FailsOfBlock (literalsOf target out literals src) := by
  unfold literalsOf
  simp only
  split
  · exact .error rfl
  · exact .ok _

theorem failsFor_matchOf (target half : Nat) (out : ByteArray) (src : List UInt8) :
    FailsOfBlock (matchOf target half out src) := by
  unfold matchOf
  split
  · simp only
    split
    · exact .error rfl
    · exact (failsFor_readLength _ _).bind fun _ _ => .ok _
  · exact .error rfl

theorem failsFor_decodeFrom (target : Nat) (out : ByteArray) (src : List UInt8) :
    FailsOfBlock (decodeFrom target out src) := by
  induction out, src using turns_induction target with
  | enough out src hge =>
    rw [decodeFrom_of_le hge]
    exact .ok _
  | ended out hlt =>
    rw [decodeFrom_nil hlt]
    exact .error rfl
  | turn out token src hlt ih =>
    rw [decodeFrom_cons _ _ _ _ hlt]
    refine (failsFor_readLength _ _).bind fun r hread => ?_
    refine (failsFor_literalsOf _ _ _ _).bind fun next hnext => ?_
    split
    · exact .ok _
    · exact (failsFor_matchOf _ _ _ _).bind fun s hmatch => ih hread hnext hmatch

/-- **Decoding fails for no other reasons** than those of a block. -/
theorem failsFor_decode (src : ByteArray) (target : Nat) : FailsOfBlock (decode src target) :=
  failsFor_decodeFrom _ _ _

end Lz4

end Erofs
