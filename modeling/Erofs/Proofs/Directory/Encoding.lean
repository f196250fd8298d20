import Erofs.Directory.Listing
import Erofs.Proofs.Bytes
/-!
# Written directories

How a directory is written: each block has a record of twelve bytes for
each of its entries, and behind them the names without anything between
them. Zeros fill up a block to its size. The lengths of names are not
written, so what is written has to keep some rules to be read again
(`DirectoryBlock.Writable`): no name is empty, and the last one of a block
has no zero in it.
-/

namespace Erofs

variable {b : ByteArray} {offset width n : Nat} {bytes front back : List UInt8}

/-! ## Bytes at a place -/

/-- The bytes of a number, the least significant first. -/
def bytesOf : (width n : Nat) → List UInt8
  | 0, _ => []
  | width + 1, n => n.toUInt8 :: bytesOf width (n / 256)

@[simp] theorem length_bytesOf (width n : Nat) : (bytesOf width n).length = width := by
  induction width generalizing n with
  | zero => rfl
  | succ width ih => rw [bytesOf, List.length_cons, ih]

/-- Some bytes stand at a place of others. -/
def HoldsAt (b : ByteArray) (offset : Nat) (bytes : List UInt8) : Prop :=
  bytes <+: b.data.toList.drop offset

instance : Decidable (HoldsAt b offset bytes) :=
  inferInstanceAs (Decidable (bytes <+: b.data.toList.drop offset))

namespace HoldsAt

theorem left (h : HoldsAt b offset (front ++ back)) : HoldsAt b offset front :=
  (List.prefix_append front back).trans h

theorem right (h : HoldsAt b offset (front ++ back)) :
    HoldsAt b (offset + front.length) back := by
  obtain ⟨rest, hrest⟩ := h
  refine ⟨rest, ?_⟩
  rw [← List.drop_drop, ← hrest, List.append_assoc, List.drop_left]

/-- Bytes that stand somewhere end inside. -/
theorem le (h : HoldsAt b offset bytes) (hne : bytes ≠ []) : offset + bytes.length ≤ b.size := by
  have hpos := List.length_pos_iff.mpr hne
  have hle := h.length_le
  rw [List.length_drop, Array.length_toList] at hle
  change bytes.length ≤ b.size - offset at hle
  omega

/-- Some of them stand behind the others. -/
theorem drop_take {m : Nat} (h : HoldsAt b offset bytes) (hn : n ≤ bytes.length) :
    HoldsAt b (offset + n) ((bytes.drop n).take m) := by
  rw [← List.take_append_drop n bytes] at h
  have hrest := h.right
  rw [List.length_take, Nat.min_eq_left hn] at hrest
  exact (List.take_prefix ..).trans hrest

/-- Cutting them out gives them. -/
theorem slice_eq (h : HoldsAt b offset bytes) :
    slice b offset bytes.length = ⟨bytes.toArray⟩ := by
  refine ByteArray.ext (Array.toList_inj.mp ?_)
  rw [slice, ByteArray.data_extract, Array.toList_extract, List.extract_eq_take_drop,
    Nat.add_sub_cancel_left]
  exact (List.prefix_iff_eq_take.mp h).symm

/-- The first of them is the byte there. -/
theorem byteAt_eq {x : UInt8} (h : HoldsAt b offset (x :: bytes)) : byteAt b offset = x := by
  obtain ⟨rest, hrest⟩ := h
  have hget : b.data.toList[offset]? = some x := by
    rw [← Nat.add_zero offset, ← List.getElem?_drop, ← hrest]
    rfl
  rw [byteAt_eq_getD, List.getD_eq_getElem?_getD, hget]
  rfl

/-- Where the bytes of a number stand, that number is read. -/
theorem littleEndian_eq (h : HoldsAt b offset (bytesOf width n)) :
    littleEndian b offset width = n % 256 ^ width := by
  induction width generalizing offset n with
  | zero => rw [littleEndian, Nat.pow_zero, Nat.mod_one]
  | succ width ih =>
    have hrest : HoldsAt b (offset + 1) (bytesOf width (n / 256)) := by
      rw [bytesOf, ← List.singleton_append] at h
      exact h.right
    rw [littleEndian, byteAt_eq h, ih hrest, Nat.pow_succ', Nat.mod_mul]
    rfl

end HoldsAt

/-! ## Entries and blocks -/

/-- The record of an entry whose name starts at a place of the block. -/
def DirectoryEntry.record (e : DirectoryEntry) (start : Nat) : List UInt8 :=
  bytesOf 8 e.nid ++ bytesOf 2 start ++ [e.typeCode, 0]

/-- An entry that a record has room for, with a name of a length that is
allowed. -/
structure DirectoryEntry.Writable (e : DirectoryEntry) : Prop where
  nid_lt : e.nid < 2 ^ 64
  name_pos : 0 < e.name.size
  name_le : e.name.size ≤ DirectoryEntry.maxNameLength

instance (e : DirectoryEntry) : Decidable e.Writable :=
  decidable_of_iff
    (e.nid < 2 ^ 64 ∧ 0 < e.name.size ∧ e.name.size ≤ DirectoryEntry.maxNameLength)
    ⟨fun ⟨hnid, hpos, hle⟩ => ⟨hnid, hpos, hle⟩, fun h => ⟨h.nid_lt, h.name_pos, h.name_le⟩⟩

theorem DirectoryEntry.length_record (e : DirectoryEntry) (start : Nat) :
    (e.record start).length = DirectoryRecord.recordSize := by
  simp [record, DirectoryRecord.recordSize]

namespace DirectoryBlock

/-- The names of entries, one behind the other. -/
def names (entries : List DirectoryEntry) : List UInt8 :=
  entries.flatMap fun e => e.name.data.toList

/-- The records of entries whose names start at a place of the block. -/
def records : (start : Nat) → List DirectoryEntry → List UInt8
  | _, [] => []
  | start, e :: rest => e.record start ++ records (start + e.name.size) rest

/-- Where the names of a block start. -/
def namesStart (entries : List DirectoryEntry) : Nat :=
  entries.length * DirectoryRecord.recordSize

/-- A block without what fills it up. -/
def encode (entries : List DirectoryEntry) : List UInt8 :=
  records (namesStart entries) entries ++ names entries

/-- Entries that can be written into a block. -/
structure Writable (blockSize : Nat) (entries : List DirectoryEntry) : Prop where
  ne_nil : entries ≠ []
  entry {e : DirectoryEntry} : e ∈ entries → e.Writable
  length_le : (encode entries).length ≤ blockSize
  /-- The last name ends at the first zero. -/
  last {e : DirectoryEntry} : entries.getLast? = some e → 0 ∉ e.name.data.toList

instance (blockSize : Nat) (entries : List DirectoryEntry) :
    Decidable (Writable blockSize entries) :=
  decidable_of_iff
    (entries ≠ [] ∧ (∀ e ∈ entries, e.Writable) ∧ (encode entries).length ≤ blockSize ∧
      ∀ e ∈ entries.getLast?, 0 ∉ e.name.data.toList)
    ⟨fun ⟨hne, hentry, hle, hlast⟩ => ⟨hne, hentry _, hle, hlast _⟩,
      fun h => ⟨h.ne_nil, fun _ => h.entry, h.length_le, fun _ => h.last⟩⟩

variable {entries before after : List DirectoryEntry} {e : DirectoryEntry}

theorem names_append : names (before ++ after) = names before ++ names after :=
  List.flatMap_append

theorem names_cons : names (e :: after) = e.name.data.toList ++ names after :=
  List.flatMap_cons

theorem length_records (start : Nat) (entries : List DirectoryEntry) :
    (records start entries).length = namesStart entries := by
  induction entries generalizing start with
  | nil => rfl
  | cons e rest ih =>
    rw [records, List.length_append, DirectoryEntry.length_record, ih, namesStart, namesStart,
      List.length_cons, Nat.succ_mul, Nat.add_comm]

/-- The records of later entries know of the names before theirs. -/
theorem records_append (start : Nat) :
    records start (before ++ after) =
      records start before ++ records (start + (names before).length) after := by
  induction before generalizing start with
  | nil => rfl
  | cons e rest ih =>
    have hstart : start + e.name.size + (names rest).length =
        start + (names (e :: rest)).length := by
      rw [names_cons, List.length_append, Nat.add_assoc]
      rfl
    rw [List.cons_append, records, ih, hstart, records, List.append_assoc]

theorem length_encode (entries : List DirectoryEntry) :
    (encode entries).length = namesStart entries + (names entries).length := by
  rw [encode, List.length_append, length_records]

theorem Writable.length_pos {blockSize : Nat} (h : Writable blockSize entries) :
    0 < (encode entries).length := by
  rw [length_encode]
  exact Nat.add_pos_left (Nat.mul_pos (List.length_pos_iff.mpr h.ne_nil) (by decide)) _

end DirectoryBlock

/-! ## Directories -/

namespace Directory

/-- A directory of some blocks, of which all but the last are filled up to
the size of a block, and the last to some length. -/
def encode (blockSize lastLength : Nat) : List (List DirectoryEntry) → List UInt8
  | [] => []
  | [last] => (DirectoryBlock.encode last).rightpad lastLength 0
  | entries :: rest =>
    (DirectoryBlock.encode entries).rightpad blockSize 0 ++ encode blockSize lastLength rest

/-- Blocks that can be written into a directory whose last block has some
length. -/
structure Writable (blockSize lastLength : Nat) (blocks : List (List DirectoryEntry)) : Prop where
  ne_nil : blocks ≠ []
  block {entries : List DirectoryEntry} : entries ∈ blocks →
    DirectoryBlock.Writable blockSize entries
  le_lastLength {last : List DirectoryEntry} : blocks.getLast? = some last →
    (DirectoryBlock.encode last).length ≤ lastLength
  lastLength_le : lastLength ≤ blockSize

instance (blockSize lastLength : Nat) (blocks : List (List DirectoryEntry)) :
    Decidable (Writable blockSize lastLength blocks) :=
  decidable_of_iff
    (blocks ≠ [] ∧ (∀ entries ∈ blocks, DirectoryBlock.Writable blockSize entries) ∧
      (∀ last ∈ blocks.getLast?, (DirectoryBlock.encode last).length ≤ lastLength) ∧
      lastLength ≤ blockSize)
    ⟨fun ⟨hne, hblock, hlast, hle⟩ => ⟨hne, hblock _, hlast _, hle⟩,
      fun h => ⟨h.ne_nil, fun _ => h.block, fun _ => h.le_lastLength, h.lastLength_le⟩⟩

variable {blockSize lastLength : Nat} {blocks front rest : List (List DirectoryEntry)}
variable {entries : List DirectoryEntry}

/-- The length to which a block is filled up, by the blocks behind it. -/
def filledLength (blockSize lastLength : Nat) (rest : List (List DirectoryEntry)) : Nat :=
  if rest = [] then lastLength else blockSize

theorem encode_cons (blockSize lastLength : Nat) (entries : List DirectoryEntry)
    (rest : List (List DirectoryEntry)) :
    encode blockSize lastLength (entries :: rest) =
      (DirectoryBlock.encode entries).rightpad (filledLength blockSize lastLength rest) 0 ++
        encode blockSize lastLength rest := by
  cases rest with
  | nil => rw [encode, encode, List.append_nil]; rfl
  | cons next rest => rfl

namespace Writable

variable (h : Writable blockSize lastLength blocks)
include h

/-- A block is filled up to a length that it does not pass. -/
theorem le_filledLength (hsplit : blocks = front ++ entries :: rest) :
    (DirectoryBlock.encode entries).length ≤ filledLength blockSize lastLength rest := by
  subst hsplit
  unfold filledLength
  split
  · next hrest => exact h.le_lastLength (by simp [hrest])
  · exact (h.block (List.mem_append_right front (List.mem_cons_self ..))).length_le

omit h in
theorem length_rightpad_eq {l : List UInt8} {n : Nat} (hle : l.length ≤ n) :
    (l.rightpad n 0).length = n := by
  rw [List.length_rightpad, Nat.max_eq_left hle]

/-- Whole blocks stand before a block. -/
theorem drop_encode (hsplit : blocks = front ++ entries :: rest) :
    (encode blockSize lastLength blocks).drop (front.length * blockSize) =
      encode blockSize lastLength (entries :: rest) := by
  -- of the blocks in front only the length matters, so `blocks` need not stay fixed
  suffices hfront : ∀ front : List (List DirectoryEntry),
      (∀ held ∈ front, (DirectoryBlock.encode held).length ≤ blockSize) →
      (encode blockSize lastLength (front ++ entries :: rest)).drop (front.length * blockSize) =
        encode blockSize lastLength (entries :: rest) by
    rw [hsplit]
    refine hfront front fun held hheld => (h.block ?_).length_le
    exact hsplit ▸ List.mem_append_left _ hheld
  intro front hle
  induction front with
  | nil => rw [List.length_nil, Nat.zero_mul]; rfl
  | cons held front ih =>
    have hfull : filledLength blockSize lastLength (front ++ entries :: rest) = blockSize :=
      if_neg (by simp)
    have hlength := length_rightpad_eq (hle held (List.mem_cons_self ..))
    rw [List.cons_append, encode_cons, hfull, List.length_cons, Nat.succ_mul, Nat.add_comm,
      ← List.drop_drop, List.drop_left' hlength]
    exact ih fun held' hheld => hle held' (List.mem_cons_of_mem _ hheld)

theorem filledLength_le (rest : List (List DirectoryEntry)) :
    filledLength blockSize lastLength rest ≤ blockSize := by
  unfold filledLength
  split
  · exact h.lastLength_le
  · exact Nat.le_refl _

/-- **A block of a written directory** is the block that was written, filled
up. -/
theorem take_drop_encode (hsplit : blocks = front ++ entries :: rest) :
    ((encode blockSize lastLength blocks).drop (front.length * blockSize)).take blockSize =
      (DirectoryBlock.encode entries).rightpad (filledLength blockSize lastLength rest) 0 := by
  have hlength := length_rightpad_eq (h.le_filledLength hsplit)
  rw [h.drop_encode hsplit, encode_cons]
  cases rest with
  | nil =>
    rw [encode, List.append_nil]
    exact List.take_of_length_le (Nat.le_trans (Nat.le_of_eq hlength) (h.filledLength_le _))
  | cons next rest =>
    exact List.take_left' hlength

theorem lastLength_pos : 0 < lastLength := by
  have hlast := List.getLast?_eq_some_getLast h.ne_nil
  have hpos := (h.block (List.mem_of_getLast? hlast)).length_pos
  exact Nat.lt_of_lt_of_le hpos (h.le_lastLength hlast)

/-- The size of a written directory. -/
theorem length_encode :
    (encode blockSize lastLength blocks).length = (blocks.length - 1) * blockSize + lastLength := by
  have hsplit := (List.dropLast_concat_getLast h.ne_nil).symm
  have hdrop := congrArg List.length (h.drop_encode hsplit)
  have hlast : (encode blockSize lastLength [blocks.getLast h.ne_nil]).length = lastLength :=
    length_rightpad_eq (h.le_filledLength hsplit)
  have hpos := h.lastLength_pos
  rw [List.length_drop, hlast, List.length_dropLast] at hdrop
  omega

end Writable

end Directory

end Erofs
