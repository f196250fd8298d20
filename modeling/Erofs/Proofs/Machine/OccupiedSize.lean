import Erofs.Proofs.Lz4.Runs
import Erofs.Proofs.Machine.ExtentMap
import Erofs.Proofs.Machine.Lz4
/-!
# Occupied sizes in words

The size of the last pcluster and the occupied size, computed in words. A
pcluster has fewer than `2 ^ 32` bytes, and what is decoded from it fewer
than `2 ^ 40`. The occupied size is close to the limit of a word if there
are `2 ^ 32` pclusters of the largest size, and stays below it
(`occupied_lt`): pclusters are only that large where an lcluster is one
block, and then the file itself has at most `2 ^ 48` bytes.
-/

-- The zero of a sum is the numeral.
attribute [local instance (high)] Zero.ofOfNat0

namespace Erofs.Machine

/-- The byte of the file at which a pcluster starts. -/
def start (f : CompressedFile) (p : Pcluster) : Option Nat := do
  let first ← shiftLeft 64 p.lcn f.lclusterBits
  add 64 first p.offset

section
variable [Lz4.Compressor]

/-- The size of the rest of a file after it was decoded and compressed
again. -/
def recompressedSize (f : CompressedFile) (last : Pcluster) (raw : ByteArray)
    (room remaining : Nat) (codec : String) : Program Nat :=
  if Lz4.maxDecodedLength room < remaining then Query.fail .implausibleRemainder
  else do
    let plain ← decodePartial raw remaining
    let found ← compressInto plain CompressedFile.maxPclusterSize
    let size := min found.produced room
    Query.report (f.recovered last remaining size codec)
    return size

/-- The number of bytes that a compressed last pcluster holds. -/
def compressedSize (sb : Superblock) (f : CompressedFile) (last : Pcluster) (remaining : Nat) :
    Program Nat := do
  let codec ← f.algorithm.codec
  let size ← blockSize sb
  let room ← mul 64 last.blocks size
  let position ← blockStart sb last.block.toNat
  let raw ← Query.bytesDirect position room
  if sb.hasZeroPadding then return room
  else recompressedSize f last raw room remaining codec

/-- The number of bytes that the last pcluster of a map holds. -/
def lastSize (sb : Superblock) (f : CompressedFile) (map : ExtentMap) : Program Nat :=
  match map.last? with
  | none => Query.fail .noPcluster
  | some last => do
    let first ← start f last
    if f.size < first then Query.fail .lastPclusterPastEnd
    else
      let remaining ← sub f.size first
      match last.storage with
      | .plain => return remaining
      | .compressed => compressedSize sb f last remaining

/-- The number of bytes that the data of a compressed file takes. -/
def occupiedSize (sb : Superblock) (f : CompressedFile) : Program Nat :=
  if f.size = 0 then return 0
  else do
    let map ← extents sb f
    let last ← lastSize sb f map
    let others ← sub map.blockCount (map.last?.elim 0 Pcluster.blocks)
    let size ← blockSize sb
    let before ← mul 64 others size
    add 64 before last

/-- The number of bytes that the data of any file takes. -/
def occupiedSizeOf (sb : Superblock) (i : Inode) : Program Nat :=
  if !i.isCompressed then return i.size.toNat
  else if i.size = 0 then return 0
  else do
    let file ← resolve sb i
    occupiedSize sb file

end

/-! ## The last pcluster -/

variable {image : ByteArray} {sb : Superblock} {i : Inode} {f : CompressedFile}
variable {last : Pcluster} {map : ExtentMap}

theorem start_eq (hbits : f.lclusterBits < 24) (hlast : last.Placed) :
    start f last = some (f.start last) := by
  have hlcn := hlast.lcn_lt
  have hoffset := hlast.offset_lt
  have hpow : 2 ^ f.lclusterBits ≤ 2 ^ 23 := Nat.pow_le_pow_right (by decide) (by omega)
  have hfirst : last.lcn * 2 ^ f.lclusterBits ≤ 2 ^ 32 * 2 ^ 23 :=
    Nat.mul_le_mul (Nat.le_of_lt hlcn) hpow
  rw [start, shiftLeft_of_lt (by omega) (by omega), some_bind, add_of_lt (by omega)]
  rfl

theorem recompressedSize_matches [Lz4.Compressor] (image : ByteArray) {raw : ByteArray} {room : Nat}
    (hraw : raw.size = room) (hroom : room < 2 ^ 32) (remaining : Nat) (codec : String) :
    Program.Matches image (recompressedSize f last raw room remaining codec)
      (f.recompressedSize last raw room remaining codec) := by
  refine Program.matches_ite (fun _ => .fail _) fun hle => ?_
  have hmost : Lz4.maxDecodedLength room ≤ room * 255 := Nat.min_le_left ..
  have hremaining : remaining < 2 ^ 40 := by omega
  refine Program.matches_bind (decodePartial_matches image (by omega) hremaining)
    fun plain hplain => ?_
  have hsize : plain.size ≤ remaining := by
    rw [Lz4.onImage_decodePartial] at hplain
    split at hplain
    · cases hplain
    · cases hd : Lz4.decode raw remaining with
      | error cause => simp [hd, Except.map] at hplain
      | ok d =>
        simp only [hd, Except.map, Except.ok.injEq] at hplain
        subst hplain
        exact Nat.le_of_eq (Lz4.size_of_decode hd)
  refine Program.matches_bind (compressInto_matches image (by omega) _) fun found _ => ?_
  exact Program.matches_report (Program.matches_pure _)

section

variable (hvalid : sb.validate = .ok ())
include hvalid

/-- A pcluster has fewer bytes than a word of 32 bits counts. -/
theorem room_le (hlast : last.Placed) : last.blocks * sb.blockSize ≤ 65535 * 65536 := by
  have hblocks := hlast.blocks_lt
  exact Nat.mul_le_mul (by omega) (blockSize_le_of_validate hvalid)

theorem compressedSize_matches [Lz4.Compressor] (hlast : last.Placed) (remaining : Nat) :
    Program.Matches image (compressedSize sb f last remaining)
      (f.compressedSize sb last remaining) := by
  have hroom := room_le hvalid hlast
  have hblock := last.block.toNat_lt
  refine Program.matches_bind (Program.matches_except _) fun codec _ => ?_
  refine Program.matches_value (blockSize_eq hvalid) ?_
  refine Program.matches_value (mul_of_lt (by omega)) ?_
  refine Program.matches_value (blockStart_eq hvalid (by omega)) ?_
  refine Program.matches_bind (Program.matches_query _) fun raw hraw => ?_
  refine Program.matches_ite (fun _ => Program.matches_pure _) fun _ => ?_
  rw [Query.onImage_bytesDirect] at hraw
  obtain ⟨-, hle, rfl⟩ := imageRange_eq_ok.mp hraw
  exact recompressedSize_matches image (size_slice hle) (by omega) remaining codec

/-- **Recovering the size of the last pcluster does not fault.** The map
need not be that of the file. -/
theorem lastSize_matches [Lz4.Compressor] (hbits : f.lclusterBits < 24)
    (hmap : ∀ p ∈ map.pclusters, p.Placed) :
    Program.Matches image (lastSize sb f map) (f.lastSize sb map) := by
  unfold lastSize CompressedFile.lastSize
  cases hlast : map.last? with
  | none => exact .fail _
  | some last =>
    have hplaced := hmap last (List.mem_of_getLast? hlast)
    refine Program.matches_value (start_eq hbits hplaced) ?_
    refine Program.matches_ite (fun _ => .fail _) fun hle => ?_
    refine Program.matches_value (sub_of_le (by omega)) ?_
    cases last.storage with
    | plain => exact Program.matches_pure _
    | compressed => exact compressedSize_matches hvalid hplaced _

/-! ## All pclusters -/

variable [Lz4.Compressor]

omit hvalid in
/-- The occupied size is that of the other pclusters, of which there are
fewer than `2 ^ 32`, and either of the last one or of the file. -/
theorem occupied_le {room size : Nat} (hf : f.Placed image sb)
    (hroom : ∀ p, f.Recorded sb image p → p.blocks * sb.blockSize ≤ room)
    (hmap : (f.extents sb).onImage image = .ok map)
    (hsize : (f.lastSize sb map).onImage image = .ok size) :
    (map.blockCount - map.last?.elim 0 Pcluster.blocks) * sb.blockSize + size ≤
      4294967295 * room + max room f.size := by
  obtain ⟨last, hlast, -, hsize⟩ := CompressedFile.lastSize_eq_ok hsize
  obtain ⟨-, hwalks⟩ := CompressedFile.walks_of_extents hmap
  obtain ⟨before, hbefore⟩ := List.getLast?_eq_some_iff.mp hlast
  have hrecorded : ∀ p ∈ map.pclusters, p.blocks * sb.blockSize ≤ room :=
    fun p hp => hroom p (hwalks.recorded hp)
  have hlength := hwalks.length_le
  have hcount := hf.count_le
  rw [hbefore] at hlength hrecorded
  rw [List.length_append, List.length_singleton] at hlength
  have hothers : map.blockCount - last.blocks = (before.map Pcluster.blocks).sum := by
    rw [map.blockCount_eq, hbefore]
    simp
  have hsum := sum_blocks_mul_le fun p hp => hrecorded p (List.mem_append_left _ hp)
  have hmost : before.length * room ≤ 4294967295 * room :=
    Nat.mul_le_mul_right _ (by simp only [maxAddressableUnits] at hcount; omega)
  have hend : size ≤ max room f.size := by
    cases hstorage : last.storage with
    | plain =>
      simp only [hstorage] at hsize
      omega
    | compressed =>
      simp only [hstorage] at hsize
      have hlastRoom := hrecorded last (by simp)
      omega
  rw [hlast, Option.elim_some, hothers]
  omega

/-- **The occupied size has 64 bits.** Pclusters are either of the size of
an lcluster, or lclusters are of the size of a block. -/
theorem occupied_lt {size : Nat} (hf : f.Placed image sb)
    (hmap : (f.extents sb).onImage image = .ok map)
    (hsize : (f.lastSize sb map).onImage image = .ok size) :
    (map.blockCount - map.last?.elim 0 Pcluster.blocks) * sb.blockSize + size < 2 ^ 64 := by
  have hbits := lclusterBits_lt hvalid hf
  have hblock := blockSize_le_of_validate hvalid
  have hcount := hf.count_le
  simp only [maxAddressableUnits] at hcount
  have hfile := le_unitsCovering_mul f.size f.lclusterBits
  by_cases hwide : f.lclusterBits = sb.bits
  · have hroom : ∀ p, f.Recorded sb image p → p.blocks * sb.blockSize ≤ 65535 * 65536 :=
      fun p hp => room_le hvalid (hf.placed_of_recorded hp)
    have hle := occupied_le hf hroom hmap hsize
    have hend : f.size ≤ 4294967296 * 65536 := by
      refine Nat.le_trans hfile (Nat.mul_le_mul hcount ?_)
      rwa [hwide]
    omega
  · have hlcluster : 2 ^ f.lclusterBits ≤ 8388608 :=
      Nat.pow_le_pow_right (by decide) (by omega : f.lclusterBits ≤ 23)
    have hroom : ∀ p, f.Recorded sb image p → p.blocks * sb.blockSize ≤ 8388608 := by
      intro p hp
      rw [hf.blocks_eq hwide hp, Superblock.blockSize, ← Nat.pow_add,
        Nat.sub_add_cancel hf.bits_le]
      exact hlcluster
    have hle := occupied_le hf hroom hmap hsize
    have hend : f.size ≤ 4294967296 * 8388608 :=
      Nat.le_trans hfile (Nat.mul_le_mul hcount hlcluster)
    omega

/-- **The occupied size of a compressed file is found without a
fault.** -/
theorem occupiedSize_matches (himage : image.size < 2 ^ 63) (hf : f.Placed image sb) :
    Program.Matches image (occupiedSize sb f) (f.occupiedSize sb) := by
  have hbits := lclusterBits_lt hvalid hf
  refine Program.matches_ite (fun _ => Program.matches_pure _) fun _ => ?_
  refine Program.matches_bind (extents_matches hvalid himage hf) fun map hmap => ?_
  have hplaced : ∀ p ∈ map.pclusters, p.Placed := fun p hp =>
    hf.placed_of_recorded ((CompressedFile.walks_of_extents hmap).2.recorded hp)
  refine Program.matches_bind (lastSize_matches hvalid hbits hplaced) fun size hsize => ?_
  have hlt := occupied_lt hvalid hf hmap hsize
  obtain ⟨last, hlast, -⟩ := CompressedFile.lastSize_eq_ok hsize
  have hle : map.last?.elim 0 Pcluster.blocks ≤ map.blockCount := by
    rw [hlast]
    exact ExtentMap.last_blocks_le hlast
  refine Program.matches_value (sub_of_le hle) ?_
  refine Program.matches_value (blockSize_eq hvalid) ?_
  refine Program.matches_value (mul_of_lt (by omega)) ?_
  exact Program.matches_some (add_of_lt hlt)

/-- **So is that of any file.** -/
theorem occupiedSizeOf_matches (himage : image.size < 2 ^ 63) (hi : i.Placed image) :
    Program.Matches image (occupiedSizeOf sb i) (i.occupiedSize sb) := by
  refine Program.matches_ite (fun _ => Program.matches_pure _) fun _ => ?_
  refine Program.matches_ite (fun _ => Program.matches_pure _) fun _ => ?_
  refine Program.matches_bind (resolve_matches hvalid himage hi) fun f hf => ?_
  exact occupiedSize_matches hvalid himage (CompressedFile.placed_of_resolve hf)

end

end Erofs.Machine
