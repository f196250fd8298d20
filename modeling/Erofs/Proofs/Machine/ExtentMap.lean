import Erofs.Proofs.Compression.Allocation
import Erofs.Proofs.Machine.CompactIndex
/-!
# Extent maps in words

The walk along an index, computed in words, with the number of blocks of
the pclusters added up on the way. A pcluster has fewer than `2 ^ 16`
blocks, and starts in an lcluster of its own, of which there are at most
`2 ^ 32`, so the sum stays far below the limit of a word
(`walkFrom_matches`). The walk never goes farther than one distance past
the last lcluster.
-/

-- The zero of a sum is the numeral.
attribute [local instance (high)] Zero.ofOfNat0

namespace Erofs.Machine

/-- Reads what the index says of an lcluster. -/
def loadLcluster (f : CompressedFile) (lcn : Nat) : Program Lcluster := do
  let count ← lclusterCount f
  if count ≤ lcn then Query.fail .lclusterPastEndOfFile
  else
    let l ← match f.format with
      | .full => loadFull f lcn
      | .compact => loadCompact f lcn
    let size ← shiftLeft 32 1 f.lclusterBits
    Query.report (l.loaded lcn size)
    return l

/-- The number of blocks of a pcluster that starts in the lcluster
`lcn`. -/
def pclusterBlocks (sb : Superblock) (f : CompressedFile) (lcn : Nat) (storage : Storage) :
    Program Nat := do
  if !f.hasBig storage then
    let bits ← sub f.lclusterBits sb.bits
    shiftLeft 32 1 bits
  else
    let next ← add 64 lcn 1
    let count ← lclusterCount f
    if count ≤ next then return 1
    else
      match ← loadLcluster f next with
      | .head .. => return 1
      | .inner back _ count =>
        if back = 1 ∧ count ≠ 0 then return count
        else Query.fail (.missingBlockCount f.inode.nid lcn)

/-- Collects the pclusters from the lcluster `lcn` on, in at most some
turns, after those in `before`. -/
def walkFrom (sb : Superblock) (f : CompressedFile) (count : Nat) :
    (turns lcn : Nat) → Collected → Program ExtentMap
  | 0, lcn, before =>
    if lcn < count then liftM (none : Option ExtentMap)
    else return before.toMap count
  | turns + 1, lcn, before =>
    if lcn < count then do
      match ← loadLcluster f lcn with
      | .head storage offset block =>
        let blocks ← pclusterBlocks sb f lcn storage
        let _total ← add 64 before.blockCount blocks
        let next ← add 64 lcn 1
        walkFrom sb f count turns next (before.push ⟨lcn, storage, offset, block, blocks⟩)
      | .inner _ ahead _ =>
        if before.pclusters.isEmpty then Query.fail .noLeadingHead
        else
          let next ← add 64 lcn (max ahead 1)
          walkFrom sb f count turns next before
    else return before.toMap count

/-- Collects the pclusters of the file. -/
def extents (sb : Superblock) (f : CompressedFile) : Program ExtentMap := do
  let count ← lclusterCount f
  let map ← walkFrom sb f count count 0 .empty
  f.compareCount map
  Query.report (map.walked f.inode.nid)
  return map

/-! ## One step -/

variable {image : ByteArray} {sb : Superblock} {f : CompressedFile} {lcn : Nat}

section

variable (hvalid : sb.validate = .ok ()) (himage : image.size < 2 ^ 63)
  (hf : f.Placed image sb)
include hvalid himage hf

/-- **Reading what an index says does not fault**, whatever lcluster it is
asked for. -/
theorem loadLcluster_matches (lcn : Nat) :
    Program.Matches image (loadLcluster f lcn) (f.loadLcluster lcn) := by
  have hbits := lclusterBits_lt hvalid hf
  refine Program.matches_value (lclusterCount_eq (by omega)) ?_
  refine Program.matches_ite (fun _ => .fail _) fun hlcn => ?_
  have hlcn := Nat.lt_of_not_le hlcn
  have hend : ∀ l : Lcluster, Program.Matches image
      (do
        let size ← shiftLeft 32 1 f.lclusterBits
        Query.report (l.loaded lcn size)
        return l : Program Lcluster)
      (do Query.report (l.loaded lcn f.lclusterSize); return l) := by
    intro l
    refine Program.matches_value (shiftLeft_one (by omega)) ?_
    exact Program.matches_report (Program.matches_pure l)
  cases f.format with
  | full => exact Program.matches_bind (loadFull_matches himage hf hlcn) fun l _ => hend l
  | compact =>
    exact Program.matches_bind (loadCompact_matches himage hf (by omega) hlcn) fun l _ => hend l

theorem pclusterBlocks_matches (hlcn : lcn < f.lclusterCount) (storage : Storage) :
    Program.Matches image (pclusterBlocks sb f lcn storage)
      (f.pclusterBlocks sb lcn storage) := by
  have hbits := lclusterBits_lt hvalid hf
  have hcount := hf.count_le
  simp only [maxAddressableUnits] at hcount
  refine Program.matches_ite (fun _ => ?_) fun _ => ?_
  · refine Program.matches_value (sub_of_le hf.bits_le) ?_
    exact Program.matches_some (shiftLeft_one (by omega))
  · refine Program.matches_value (add_of_lt (by omega)) ?_
    refine Program.matches_value (lclusterCount_eq (by omega)) ?_
    refine Program.matches_ite (fun _ => Program.matches_pure 1) fun _ => ?_
    refine Program.matches_bind (loadLcluster_matches hvalid himage hf _) fun l _ => ?_
    cases l with
    | head storage offset block => exact Program.matches_pure 1
    | inner back ahead count =>
      exact Program.matches_ite (fun _ => Program.matches_pure count) fun _ => .fail _

/-! ## The walk -/

/-- **The walk does not fault**: the blocks that it adds up stay below
those that its lclusters could have. -/
theorem walkFrom_matches {turns : Nat} {before : Collected}
    (hturns : f.lclusterCount ≤ lcn + turns) (hle : before.blockCount ≤ lcn * 2 ^ 16) :
    Program.Matches image (walkFrom sb f f.lclusterCount turns lcn before)
      (f.walkFrom sb lcn before) := by
  have hcount := hf.count_le
  simp only [maxAddressableUnits] at hcount
  induction turns generalizing lcn before with
  | zero =>
    rw [walkFrom, if_neg (by omega), CompressedFile.walkFrom, dif_neg (by omega)]
    exact Program.matches_pure _
  | succ turns ih =>
    rw [walkFrom, CompressedFile.walkFrom]
    by_cases hlcn : lcn < f.lclusterCount
    · rw [if_pos hlcn, dif_pos hlcn]
      refine Program.matches_bind (loadLcluster_matches hvalid himage hf lcn) fun l hl => ?_
      cases l with
      | head storage offset block =>
        refine Program.matches_bind (pclusterBlocks_matches hvalid himage hf hlcn storage)
          fun blocks hblocks => ?_
        have hlt : blocks < 2 ^ 16 :=
          CompressedFile.blocks_lt_of_recorded hf.toResolved
            (p := ⟨lcn, storage, offset, block, blocks⟩) ⟨hlcn, hl, hblocks⟩
        refine Program.matches_value (add_of_lt (by omega)) ?_
        refine Program.matches_value (add_of_lt (by omega)) ?_
        refine ih (by omega) ?_
        rw [Nat.succ_mul]
        exact Nat.add_le_add hle (Nat.le_of_lt hlt)
      | inner back ahead count =>
        have hahead := (CompressedFile.small_of_loadLcluster hf.toResolved hl).1
        have hle' : before.blockCount ≤ (lcn + max ahead 1) * 2 ^ 16 :=
          Nat.le_trans hle (Nat.mul_le_mul_right _ (Nat.le_add_right ..))
        refine Program.matches_ite (fun _ => .fail _) fun _ => ?_
        refine Program.matches_value (@add_of_lt 64 lcn (max ahead 1) (by omega)) ?_
        exact ih (by omega) hle'
    · rw [if_neg hlcn, dif_neg hlcn]
      exact Program.matches_pure _

theorem extents_matches : Program.Matches image (extents sb f) (f.extents sb) := by
  have hbits := lclusterBits_lt hvalid hf
  refine Program.matches_value (lclusterCount_eq (by omega)) ?_
  have hwalk : Program.Matches image (walkFrom sb f f.lclusterCount f.lclusterCount 0 .empty)
      (f.walkFrom sb 0 .empty) :=
    walkFrom_matches hvalid himage hf (by omega) (Nat.zero_le _)
  refine Program.matches_bind hwalk fun map _ => ?_
  refine Program.matches_bind (Program.matches_query _) fun _ _ => ?_
  exact Program.matches_report (Program.matches_pure _)

end

end Erofs.Machine
