import Erofs.Proofs.Machine.Inode
/-!
# Directories in words

Reading directories and resolving paths, computed in words, with the
entries and the blocks counted upwards. The first name of a block tells how
many records it has. That number is only accepted if the records end before
the end of the block, so every record that is asked for is there
(`entryAt_eq`).
-/

namespace Erofs.Machine

/-- Reads the record of the entry with an index. -/
def recordOf (b : ByteArray) (index : Nat) : Computation DirectoryRecord := do
  let offset ← mul 64 index DirectoryRecord.recordSize
  let rest ← sub b.size offset
  let tail ← sliceAt b offset rest
  if tail.size < DirectoryRecord.recordSize then throw .entryPastBlock
  else
    let nid ← field64 tail 0
    let nameOffset ← field16 tail 8
    let typeCode ← field8 tail 10
    let reserved ← field8 tail 11
    return { nid, nameOffset, typeCode, reserved }

/-- The number of entries of a block. -/
def entryCount (sb : Superblock) (nid block : Nat) (b : ByteArray) : Computation Nat := do
  let first ← recordOf b 0
  let start := first.nameOffset.toNat
  let size ← blockSize sb
  if start < DirectoryRecord.recordSize ∨ size ≤ start ∨ b.size < start then
    throw (.badFirstNameOffset nid block start)
  else return start / DirectoryRecord.recordSize

/-- The length of the name that starts at `start`. -/
def nameLength (count : Nat) (b : ByteArray) (index start : Nat) : Computation Nat := do
  let next ← add 64 index 1
  if next < count then
    let record ← recordOf b next
    let stop := record.nameOffset.toNat
    if stop < start then throw .namesOverlap else return stop - start
  else
    let rest ← sub b.size start
    let tail ← sliceAt b start rest
    return (tail.data.toList.takeWhile (· != 0)).length

/-- Reads an entry of a block with `count` entries. -/
def entryAt (nid count : Nat) (b : ByteArray) (index : Nat) : Computation DirectoryEntry := do
  let record ← recordOf b index
  let start := record.nameOffset.toNat
  let names ← mul 64 count DirectoryRecord.recordSize
  if start < names ∨ b.size < start then throw .nameOffsetOutOfRange
  else
    let length ← nameLength count b index start
    let stop ← add 64 start length
    if length = 0 ∨ DirectoryEntry.maxNameLength < length ∨ b.size < stop then
      throw (.badNameSpan nid index start length)
    else
      let name ← sliceAt b start length
      return ⟨record.nid.toNat, name, record.typeCode⟩

/-- Reads the last `left` entries of a block, from `index` on. -/
def entriesFrom (nid count : Nat) (b : ByteArray) : (left index : Nat) → Option Listing
  | 0, _ => return .empty
  | left + 1, index => do
    match ← (entryAt nid count b index).run with
    | .error cause => return ⟨[], some cause⟩
    | .ok e =>
      let next ← add 64 index 1
      let rest ← entriesFrom nid count b left next
      return .cons e rest

/-- Takes an inode as a directory. -/
def directoryOf (sb : Superblock) (i : Inode) : Computation Directory :=
  if !i.isDirectory then throw .notADirectoryInode
  else if i.isCompressed then throw .compressedDirectory
  else do
    let count ← blockCount sb i
    return ⟨i, count⟩

/-- Reads a block. -/
def loadBlock (sb : Superblock) (d : Directory) (block : Nat) : Program Listing := do
  let extent ← flatExtent sb d.inode block
  let bytes ← Query.bytes extent.offset extent.length
  let nid := d.inode.nid
  let count ← entryCount sb nid block bytes
  Query.report (d.blockLoaded block extent count)
  entriesFrom nid count bytes count 0

/-- The entries of the last `left` blocks, from `block` on. -/
def blocksFrom (sb : Superblock) (d : Directory) :
    (left block : Nat) → (before : Array DirectoryEntry) → Program (Array DirectoryEntry)
  | 0, _, before => return before
  | left + 1, block, before => do
    let next ← add 64 block 1
    let listing ← loadBlock sb d block
    match listing.fault? with
    | some cause => Query.fail cause
    | none => blocksFrom sb d left next (before ++ listing.entries)

/-- The entries of the directory of an inode. -/
def listDirectory (sb : Superblock) (i : Inode) : Program (List DirectoryEntry) := do
  let d ← directoryOf sb i
  let entries ← blocksFrom sb d d.blockCount 0 #[]
  Query.report (d.listed entries.size)
  return entries.toList

/-- The number that the first entry with a name has, in the last `left`
blocks, from `block` on. -/
def findFrom (sb : Superblock) (d : Directory) (name : ByteArray) :
    (left block : Nat) → Program Nat
  | 0, _ => Query.fail .noSuchName
  | left + 1, block => do
    let next ← add 64 block 1
    let listing ← loadBlock sb d block
    match listing.entries.find? (fun e => e.name == name), listing.fault? with
    | some e, _ => return e.nid
    | none, some cause => Query.fail cause
    | none, none => findFrom sb d name left next

/-- The number that the directory of an inode gives to a name. -/
def findName (sb : Superblock) (i : Inode) (name : ByteArray) : Program Nat := do
  let d ← directoryOf sb i
  findFrom sb d name d.blockCount 0

/-- The next entry, from what is pending, or else from the last `left`
blocks, from `block` on. -/
def advanceFrom (sb : Superblock) (d : Directory) :
    (left block : Nat) → (pending : Listing) → Program (Option DirectoryEntry × Cursor)
  | left, _, ⟨e :: rest, fault?⟩ => return (some e, ⟨d, ⟨rest, fault?⟩, left⟩)
  | _, _, ⟨[], some cause⟩ => Query.fail cause
  | 0, _, ⟨[], none⟩ => return (none, .finish d)
  | left + 1, block, ⟨[], none⟩ => do
    let next ← add 64 block 1
    let listing ← loadBlock sb d block
    advanceFrom sb d left next listing

/-- The next entry of a cursor, and the place after it. -/
def advance (sb : Superblock) (c : Cursor) : Program (Option DirectoryEntry × Cursor) := do
  let block ← sub c.directory.blockCount c.blocksLeft
  advanceFrom sb c.directory c.blocksLeft block c.pending

/-- One step of a path. -/
def step (sb : Superblock) (i : Inode) (component : String) : Program Inode := do
  if !i.isDirectory then Query.fail .notADirectory
  else
    let nid ← findName sb i component.toUTF8
    Query.report (Path.found component nid)
    readInode sb nid

/-- The inode that a path names. -/
def lookup (sb : Superblock) (path : String) : Program Inode := do
  if path.isEmpty then Query.fail .emptyPath
  else
    let root ← readInode sb sb.root
    (Path.components path).foldlM (step sb) root

/-! ## Blocks -/

variable {image b : ByteArray} {sb : Superblock} {i : Inode} {d : Directory}
variable {nid count index start : Nat}

/-- A record is read in the rest of the block as it is in the block. -/
theorem recordOf_eq (hindex : index * DirectoryRecord.recordSize ≤ b.size)
    (hsize : b.size < 2 ^ 64) : recordOf b index = exact (DirectoryRecord.ofIndex b index) := by
  have htail : (slice b (index * DirectoryRecord.recordSize)
      (b.size - index * DirectoryRecord.recordSize)).size =
        b.size - index * DirectoryRecord.recordSize := size_slice (by omega)
  unfold recordOf DirectoryRecord.ofIndex DirectoryRecord.decodeAt
  rw [value_bind (mul_of_lt (by omega)), value_bind (sub_of_le hindex),
    value_bind (sliceAt_of_le (by omega) (by omega))]
  by_cases hshort : b.size < index * DirectoryRecord.recordSize + DirectoryRecord.recordSize
  · rw [if_pos (by omega), if_pos hshort]
    rfl
  · rw [if_neg (by omega), if_neg hshort]
    simp only [DirectoryRecord.recordSize] at htail hshort ⊢
    rw [field64_of_le (by omega), field16_of_le (by omega), field8_of_le (by omega),
      field8_of_le (by omega)]
    simp only [liftM_some, exact_ok_bind, pure_eq_exact]
    rw [byteAt_slice (by omega), byteAt_slice (by omega), u64At, u64At, u16At, u16At,
      littleEndian_slice (by omega), littleEndian_slice (by omega)]
    rfl

/-- The records of a block end inside it, if there are as many as its
first name says. -/
theorem le_of_entryCount {block size : Nat}
    (h : Listing.entryCount size nid block b = .ok count) :
    count * DirectoryRecord.recordSize ≤ b.size := by
  obtain ⟨first, -, h⟩ := bind_eq_ok.mp h
  simp only at h
  split at h
  · cases h
  · cases h
    have hle := Nat.div_mul_le_self first.nameOffset.toNat DirectoryRecord.recordSize
    omega

theorem entryCount_eq (hvalid : sb.validate = .ok ()) (nid block : Nat) (hsize : b.size < 2 ^ 64) :
    entryCount sb nid block b = exact (Listing.entryCount sb.blockSize nid block b) := by
  unfold entryCount Listing.entryCount
  refine bind_eq_exact (recordOf_eq (by omega) hsize) fun first _ => ?_
  simp only
  rw [value_bind (blockSize_eq hvalid)]
  split <;> rfl

section

variable (hcount : count * DirectoryRecord.recordSize ≤ b.size) (hsize : b.size < 2 ^ 63)
include hcount hsize

theorem nameLength_eq (hindex : index < count) (hstart : start ≤ b.size) :
    nameLength count b index start = exact (Listing.nameLength count b index start) := by
  have hfew : count ≤ count * DirectoryRecord.recordSize :=
    Nat.le_mul_of_pos_right _ (by decide)
  unfold nameLength Listing.nameLength
  rw [value_bind (add_of_lt (by omega))]
  split
  · next hnext =>
    have hle : (index + 1) * DirectoryRecord.recordSize ≤ count * DirectoryRecord.recordSize :=
      Nat.mul_le_mul_right _ (Nat.le_of_lt hnext)
    refine bind_eq_exact (recordOf_eq (by omega) (by omega)) fun record _ => ?_
    simp only
    split <;> rfl
  · rw [value_bind (sub_of_le hstart), value_bind (sliceAt_of_le (by omega) (by omega)), slice,
      Nat.add_sub_cancel' hstart]
    rfl

omit hcount in
/-- No name is longer than a block or than an offset can tell. -/
theorem add_lt_of_nameLength {length : Nat} (hstart : start ≤ b.size)
    (h : Listing.nameLength count b index start = .ok length) : start + length < 2 ^ 64 := by
  unfold Listing.nameLength at h
  split at h
  · obtain ⟨next, -, h⟩ := bind_eq_ok.mp h
    have hstop := next.nameOffset.toNat_lt
    simp only at h
    split at h
    · cases h
    · cases h
      omega
  · cases h
    have htake := (List.takeWhile_sublist
      (l := (b.extract start b.size).data.toList) (· != 0)).length_le
    have htail : (b.extract start b.size).data.toList.length = b.size - start := by
      rw [Array.length_toList]
      exact (ByteArray.size_extract ..).trans (by rw [Nat.min_self])
    omega

/-- **Reading an entry does not fault**: its record is there. -/
theorem entryAt_eq (hindex : index < count) :
    entryAt nid count b index = exact (Listing.entryAt nid count b index) := by
  have hle : index * DirectoryRecord.recordSize ≤ count * DirectoryRecord.recordSize :=
    Nat.mul_le_mul_right _ (Nat.le_of_lt hindex)
  unfold entryAt Listing.entryAt
  refine bind_eq_exact (recordOf_eq (by omega) (by omega)) fun record _ => ?_
  have hoffset := record.nameOffset.toNat_lt
  simp only
  rw [value_bind (mul_of_lt (by omega))]
  split
  · rfl
  · refine bind_eq_exact (nameLength_eq hcount hsize hindex (by omega)) fun length hlength => ?_
    have hstop := add_lt_of_nameLength hsize (by omega) hlength
    rw [value_bind (add_of_lt hstop)]
    split
    · rfl
    · rw [value_bind (sliceAt_of_le (by omega) hstop)]
      rfl

theorem entriesFrom_eq {left : Nat} (hindex : index + left = count) :
    entriesFrom nid count b left index = some (Listing.lastEntries nid count b left) := by
  have hfew : count ≤ count * DirectoryRecord.recordSize :=
    Nat.le_mul_of_pos_right _ (by decide)
  induction left generalizing index with
  | zero => rfl
  | succ left ih =>
    rw [entriesFrom, Listing.lastEntries, entryAt_eq hcount hsize (by omega),
      show count - (left + 1) = index by omega]
    cases Listing.entryAt nid count b index with
    | error cause => rfl
    | ok e =>
      simp only [exact, ExceptT.run_mk, some_bind]
      rw [add_of_lt (by omega), some_bind, ih (by omega)]
      rfl

end

section

variable (hvalid : sb.validate = .ok ()) (himage : image.size < 2 ^ 63)
include hvalid himage

/-- **Reading a block does not fault.** -/
theorem loadBlock_matches (hd : d.inode.Placed image) (block : Nat) :
    Program.Matches image (loadBlock sb d block) (d.loadBlock sb block) := by
  refine Program.matches_bind (Program.matches_of_exact (flatExtent_eq hvalid himage hd block))
    fun extent _ => ?_
  refine Program.matches_bind (Program.matches_query _) fun bytes hbytes => ?_
  obtain ⟨hle, hsize⟩ := le_of_onImage_bytes hbytes
  refine Program.matches_bind (Program.matches_of_exact (entryCount_eq hvalid _ _ (by omega)))
    fun count hcount => ?_
  rw [Query.onImage_liftM] at hcount
  refine Program.matches_report ?_
  exact Program.matches_some
    (entriesFrom_eq (le_of_entryCount hcount) (by omega) (Nat.zero_add count))

/-! ## Whole directories -/

omit himage in
theorem directoryOf_eq (i : Inode) : directoryOf sb i = exact (Directory.ofInode sb i) := by
  unfold directoryOf Directory.ofInode
  split
  · rfl
  · split
    · rfl
    · rw [blockCount_eq hvalid]
      cases i.blockCount sb <;> rfl

omit hvalid himage in
/-- The number of a block has a successor. -/
theorem next_eq {block : Nat} (hd : d.Placed image sb) (hblock : block < d.blockCount) :
    add 64 block 1 = some (block + 1) := by
  have hfew := (Inode.le_of_blockCount hd.count).2
  simp only [maxAddressableUnits] at hfew
  exact add_of_lt (by omega)

theorem blocksFrom_matches (hd : d.Placed image sb) {left block : Nat}
    (hblock : block + left = d.blockCount) (before : Array DirectoryEntry) :
    Program.Matches image (blocksFrom sb d left block before) (d.lastEntries sb left before) := by
  induction left generalizing block before with
  | zero => exact Program.matches_pure before
  | succ left ih =>
    rw [blocksFrom, Directory.lastEntries, show d.blockCount - (left + 1) = block by omega]
    refine Program.matches_value (next_eq hd (by omega)) ?_
    refine Program.matches_bind (loadBlock_matches hvalid himage hd.inode block)
      fun listing _ => ?_
    cases listing.fault? with
    | some cause => exact .fail cause
    | none => exact ih (by omega) _

/-- **Listing a directory does not fault.** -/
theorem listDirectory_matches (hi : i.Placed image) :
    Program.Matches image (listDirectory sb i) (Directory.list sb i) := by
  refine Program.matches_bind (Program.matches_of_exact (directoryOf_eq hvalid i)) fun d hd => ?_
  rw [Query.onImage_liftM] at hd
  have hplaced := Directory.placed_of_ofInode hi hd
  refine Program.matches_bind (blocksFrom_matches hvalid himage hplaced (Nat.zero_add _) #[])
    fun entries _ => ?_
  exact Program.matches_report (Program.matches_pure _)

theorem findFrom_matches (hd : d.Placed image sb) (name : ByteArray) {left block : Nat}
    (hblock : block + left = d.blockCount) :
    Program.Matches image (findFrom sb d name left block) (d.findInLast sb name left) := by
  induction left generalizing block with
  | zero => exact .fail _
  | succ left ih =>
    rw [findFrom, Directory.findInLast, show d.blockCount - (left + 1) = block by omega]
    refine Program.matches_value (next_eq hd (by omega)) ?_
    refine Program.matches_bind (loadBlock_matches hvalid himage hd.inode block)
      fun listing _ => ?_
    cases listing.entries.find? (fun e => e.name == name) with
    | some e => exact Program.matches_pure e.nid
    | none =>
      cases listing.fault? with
      | some cause => exact .fail cause
      | none => exact ih (by omega)

theorem findName_matches (hi : i.Placed image) (name : ByteArray) :
    Program.Matches image (findName sb i name) (Directory.find sb i name) := by
  refine Program.matches_bind (Program.matches_of_exact (directoryOf_eq hvalid i)) fun d hd => ?_
  rw [Query.onImage_liftM] at hd
  exact findFrom_matches hvalid himage (Directory.placed_of_ofInode hi hd) name (Nat.zero_add _)

theorem advanceFrom_matches (hd : d.Placed image sb) {left block : Nat}
    (hblock : block + left = d.blockCount) (pending : Listing) :
    Program.Matches image (advanceFrom sb d left block pending)
      (Cursor.advanceFrom sb d pending left) := by
  induction left generalizing block pending with
  | zero =>
    rcases pending with ⟨_ | ⟨e, rest⟩, _ | cause⟩
    all_goals rw [advanceFrom, Cursor.advanceFrom]
    · exact Program.matches_pure _
    · exact .fail cause
    · exact Program.matches_pure _
    · exact Program.matches_pure _
  | succ left ih =>
    rcases pending with ⟨_ | ⟨e, rest⟩, _ | cause⟩
    all_goals rw [advanceFrom, Cursor.advanceFrom]
    · rw [show d.blockCount - (left + 1) = block by omega]
      refine Program.matches_value (next_eq hd (by omega)) ?_
      exact Program.matches_bind (loadBlock_matches hvalid himage hd.inode block)
        fun listing _ => ih (by omega) listing
    · exact .fail cause
    · exact Program.matches_pure _
    · exact Program.matches_pure _

/-- **Moving a cursor on does not fault**, wherever it is. -/
theorem advance_matches {c : Cursor} (hc : c.Placed image sb) :
    Program.Matches image (advance sb c) (c.advance sb) :=
  Program.matches_value (sub_of_le hc.le)
    (advanceFrom_matches hvalid himage hc.directory (Nat.sub_add_cancel hc.le) c.pending)

/-! ## Paths -/

theorem step_matches (hi : i.Placed image) (component : String) :
    Program.Matches image (step sb i component) (Path.step sb i component) := by
  refine Program.matches_ite (fun _ => .fail _) fun _ => ?_
  refine Program.matches_bind (findName_matches hvalid himage hi _) fun nid _ => ?_
  exact Program.matches_report (readInode_matches hvalid himage nid)

theorem steps_matches (hi : i.Of image sb) (parts : List String) :
    Program.Matches image (parts.foldlM (step sb) i : Program Inode)
      (parts.foldlM (Path.step sb) i) := by
  induction parts generalizing i with
  | nil => exact Program.matches_pure i
  | cons part rest ih =>
    rw [List.foldlM_cons, List.foldlM_cons]
    exact Program.matches_bind (step_matches hvalid himage hi.placed part)
      fun next hnext => ih (Inode.of_step hnext)

/-- **Resolving a path does not fault**, whatever the path. -/
theorem lookup_matches (path : String) :
    Program.Matches image (lookup sb path) (Path.find sb path) := by
  refine Program.matches_ite (fun _ => .fail _) fun _ => ?_
  exact Program.matches_bind (readInode_matches hvalid himage _)
    fun root hroot => steps_matches hvalid himage ⟨_, hroot⟩ _

end

end Erofs.Machine
