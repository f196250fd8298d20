import Erofs.Proofs.Directory.Cursors
/-!
# Where the names of a directory lie

The name of an entry is compared with nothing but the start of the next one.
It follows that the names of a block lie one after another, between its
records and its end, whatever bytes it has (`DirectoryBlock.NamesLie`). So the
entries of a block take no more than its bytes, with their records, and those
that a cursor yields no more than the size of the directory
(`Cursor.yields_within`).
-/

-- The zero of a sum is the numeral.
attribute [local instance (high)] Zero.ofOfNat0

namespace Erofs

variable {image : ByteArray} {sb : Superblock} {i : Inode} {d : Directory} {b : ByteArray}
variable {nid count index left number : Nat} {e : DirectoryEntry} {entries : List DirectoryEntry}

/-- The bytes that an entry takes in its block: its record and its name. -/
def DirectoryEntry.footprint (e : DirectoryEntry) : Nat :=
  DirectoryRecord.recordSize + e.name.size

theorem DirectoryEntry.sum_footprint (entries : List DirectoryEntry) :
    (entries.map footprint).sum = entries.length * DirectoryRecord.recordSize +
      (entries.map fun e => e.name.size).sum := by
  induction entries with
  | nil => rfl
  | cons e rest ih =>
    simp only [List.map_cons, List.sum_cons, List.length_cons, ih, footprint, Nat.succ_mul]
    omega

/-- If no name is empty, entries take a byte more than their records. -/
theorem DirectoryEntry.length_mul_le_sum_footprint (h : ∀ e ∈ entries, 1 ≤ e.name.size) :
    entries.length * (DirectoryRecord.recordSize + 1) ≤ (entries.map footprint).sum := by
  induction entries with
  | nil => exact Nat.zero_le _
  | cons e rest ih =>
    have hsize := h e List.mem_cons_self
    have hrest := ih fun e he => h e (List.mem_cons_of_mem _ he)
    rw [List.length_cons, List.map_cons, List.sum_cons, Nat.succ_mul, footprint]
    omega

/-! ## Blocks -/

namespace DirectoryBlock

/-- Where the name of an entry starts, by its record. -/
def nameOffset (b : ByteArray) (index : Nat) : Nat :=
  (u16At b (index * DirectoryRecord.recordSize + 8)).toNat

/-- The number of records, by where the first name starts. -/
def recordCount (b : ByteArray) : Nat := nameOffset b 0 / DirectoryRecord.recordSize

/-- Where the records end. -/
def recordsEnd (b : ByteArray) : Nat := recordCount b * DirectoryRecord.recordSize

/-- The name of an entry is a range of the block that starts where its record
says, not before the end of the records. -/
structure NameLies (b : ByteArray) (index : Nat) (e : DirectoryEntry) : Prop where
  eq_slice : e.name = slice b (nameOffset b index) e.name.size
  one_le_size : 1 ≤ e.name.size
  size_le : e.name.size ≤ DirectoryEntry.maxNameLength
  le_start : recordsEnd b ≤ nameOffset b index
  stop_le : nameOffset b index + e.name.size ≤ b.size

/-- **The first entries of a block have their names one after another**, in
their order, between the records and the end of the block. -/
structure NamesLie (b : ByteArray) (entries : List DirectoryEntry) : Prop where
  length_le : entries.length ≤ recordCount b
  lies : ∀ index e, entries[index]? = some e → NameLies b index e
  ordered : ∀ index next e, entries[index]? = some e → index < next → next < entries.length →
    nameOffset b index + e.name.size ≤ nameOffset b next

theorem nameOffset_of_ofIndex {record : DirectoryRecord}
    (h : DirectoryRecord.ofIndex b index = .ok record) :
    record.nameOffset.toNat = nameOffset b index := by
  rw [DirectoryRecord.ofIndex, DirectoryRecord.decodeAt] at h
  split at h
  · cases h
  · rw [Except.ok.injEq] at h
    rw [← h, nameOffset]

/-- The number of entries is that of the records. -/
theorem count_eq {blockSize block : Nat}
    (h : Listing.entryCount blockSize nid block b = .ok count) : count = recordCount b := by
  obtain ⟨first, hfirst, h⟩ := bind_eq_ok.mp h
  simp only [nameOffset_of_ofIndex hfirst] at h
  split at h
  · cases h
  · rw [Except.ok.injEq] at h
    exact h.symm

/-- A name that is not the last one ends where the next one starts. -/
theorem add_eq_of_nameLength {start length : Nat} (hnext : index + 1 < count)
    (h : Listing.nameLength count b index start = .ok length) :
    start + length = nameOffset b (index + 1) := by
  rw [Listing.nameLength, if_pos hnext] at h
  obtain ⟨next, hstop, h⟩ := bind_eq_ok.mp h
  simp only [nameOffset_of_ofIndex hstop] at h
  split at h
  · cases h
  · rw [Except.ok.injEq] at h
    omega

/-- **An entry that is read** lies where its record says, up to the next
one. -/
theorem nameLies_of_entryAt (h : Listing.entryAt nid (recordCount b) b index = .ok e) :
    NameLies b index e ∧ (index + 1 < recordCount b →
      nameOffset b index + e.name.size = nameOffset b (index + 1)) := by
  obtain ⟨record, hrecord, h⟩ := bind_eq_ok.mp h
  simp only [nameOffset_of_ofIndex hrecord] at h
  split at h
  · cases h
  · next hstart =>
    obtain ⟨length, hlength, h⟩ := bind_eq_ok.mp h
    split at h
    · cases h
    · next hspan =>
      rw [Except.ok.injEq] at h
      have hname : e.name = slice b (nameOffset b index) length := by rw [← h]
      have hsize : e.name.size = length := by
        rw [hname]
        exact size_slice (by omega)
      rw [← hsize] at hname hlength hspan
      refine ⟨⟨hname, by omega, by omega, Nat.le_of_not_lt fun hlt => hstart (.inl hlt), by omega⟩,
        fun hnext => add_eq_of_nameLength hnext hlength⟩

/-- The entries of a listing are read one by one. -/
theorem entryAt_of_lastEntries (hle : left ≤ count)
    (h : (Listing.lastEntries nid count b left).entries[index]? = some e) :
    Listing.entryAt nid count b (count - left + index) = .ok e := by
  induction left generalizing index with
  | zero => cases h
  | succ left ih =>
    rw [Listing.lastEntries] at h
    split at h
    · cases h
    · next first hfirst =>
      cases index with
      | zero =>
        rw [Listing.cons, List.getElem?_cons_zero, Option.some.injEq] at h
        rw [← h]
        exact hfirst
      | succ index =>
        rw [Listing.cons, List.getElem?_cons_succ] at h
        rw [(by omega : count - (left + 1) + (index + 1) = count - left + index)]
        exact ih (by omega) h

/-- So each entry of a block lies where its record says. -/
theorem nameLies_of_ofBlock
    (h : (Listing.ofBlock nid (recordCount b) b).entries[index]? = some e) :
    NameLies b index e ∧ (index + 1 < recordCount b →
      nameOffset b index + e.name.size = nameOffset b (index + 1)) := by
  have hentry := entryAt_of_lastEntries (Nat.le_refl _) h
  rw [Nat.sub_self, Nat.zero_add] at hentry
  exact nameLies_of_entryAt hentry

/-- **The names of a block that is read lie one after another.** -/
theorem namesLie_ofBlock (nid : Nat) (b : ByteArray) :
    NamesLie b (Listing.ofBlock nid (recordCount b) b).entries := by
  have hlength := Listing.length_lastEntries_le nid (recordCount b) b (recordCount b)
  refine ⟨hlength, fun index e he => (nameLies_of_ofBlock he).1, ?_⟩
  intro index next e he hlt hnext
  -- each name ends where the next one starts, so the starts increase
  induction hlt with
  | refl => exact Nat.le_of_eq ((nameLies_of_ofBlock he).2 (Nat.lt_of_lt_of_le hnext hlength))
  | @step next _ ih =>
    have hget := List.getElem?_eq_getElem (Nat.lt_of_succ_lt hnext)
    have hstop := (nameLies_of_ofBlock hget).2 (Nat.lt_of_lt_of_le hnext hlength)
    have hle := ih (Nat.lt_of_succ_lt hnext)
    show _ ≤ nameOffset b (next + 1)
    omega

namespace NamesLie

/-- The names before an entry lie between the records and its own name. -/
theorem recordsEnd_add_sum_le {n : Nat} (h : NamesLie b entries) (hn : n < entries.length) :
    recordsEnd b + ((entries.take n).map fun e => e.name.size).sum ≤ nameOffset b n := by
  induction n with
  | zero => exact (h.lies 0 _ (List.getElem?_eq_getElem hn)).le_start
  | succ n ih =>
    have hget := List.getElem?_eq_getElem (Nat.lt_of_succ_lt hn)
    have hstop := h.ordered n (n + 1) _ hget (Nat.lt_succ_self n) hn
    have hle := ih (Nat.lt_of_succ_lt hn)
    rw [List.take_add_one, hget, List.map_append, List.sum_append]
    simp only [Option.toList_some, List.map_cons, List.map_nil, List.sum_cons, List.sum_nil]
    omega

/-- **The entries take no more than the block**, with their records. -/
theorem sum_footprint_le (h : NamesLie b entries) :
    (entries.map DirectoryEntry.footprint).sum ≤ b.size := by
  rcases List.eq_nil_or_concat entries with rfl | ⟨front, last, rfl⟩
  · exact Nat.zero_le _
  · have hlast : (front.concat last)[front.length]? = some last := by simp
    have hle := h.recordsEnd_add_sum_le (n := front.length) (by simp)
    have hstop := (h.lies _ _ hlast).stop_le
    have hrecords : (front.concat last).length * DirectoryRecord.recordSize ≤ recordsEnd b :=
      Nat.mul_le_mul_right _ h.length_le
    rw [DirectoryEntry.sum_footprint]
    simp only [List.concat_eq_append, List.take_left', List.map_append, List.map_cons, List.map_nil,
      List.sum_append, List.sum_cons, List.sum_nil] at hle hrecords ⊢
    omega

end NamesLie

end DirectoryBlock

/-! ## Directories -/

namespace Directory

/-- The bytes of a block of a directory. -/
def ReadsBlock (image : ByteArray) (sb : Superblock) (d : Directory) (number : Nat)
    (b : ByteArray) : Prop :=
  ∃ extent, d.inode.flatExtent sb number = .ok extent ∧
    (Query.bytes extent.offset extent.length).onImage image = .ok b

/-- A block of a directory has as many bytes as the size of the directory
leaves for it. -/
theorem ReadsBlock.size_eq (h : d.ReadsBlock image sb number b) :
    b.size = d.inode.blockLength sb number := by
  obtain ⟨extent, hextent, hbytes⟩ := h
  rw [Query.onImage_bytes] at hbytes
  obtain ⟨-, hle, rfl⟩ := imageRange_eq_ok.mp hbytes
  rw [size_slice hle, Inode.length_flatExtent hextent]

/-- **What a block of a directory holds** lies in its bytes. -/
theorem namesLie_block (hne : (d.block image sb number).entries ≠ []) :
    ∃ b, d.ReadsBlock image sb number b ∧
      DirectoryBlock.NamesLie b (d.block image sb number).entries := by
  cases hload : (d.loadBlock sb number).onImage image with
  | error cause =>
    rw [block_of_error hload] at hne
    exact absurd rfl hne
  | ok listing =>
    rw [block_of_ok hload]
    obtain ⟨extent, hextent, hload⟩ := Query.onImage_bind_eq_ok.mp hload
    obtain ⟨b, hbytes, hload⟩ := Query.onImage_bind_eq_ok.mp hload
    obtain ⟨count, hcount, hload⟩ := Query.onImage_bind_eq_ok.mp hload
    rw [Query.onImage_report_bind, Query.onImage_pure, Except.ok.injEq] at hload
    rw [Query.onImage_liftM] at hextent hcount
    obtain rfl := DirectoryBlock.count_eq hcount
    rw [← hload]
    exact ⟨b, ⟨extent, hextent, hbytes⟩, DirectoryBlock.namesLie_ofBlock _ b⟩

theorem sum_footprint_block_le (image : ByteArray) (sb : Superblock) (d : Directory)
    (number : Nat) : ((d.block image sb number).entries.map DirectoryEntry.footprint).sum ≤
      d.inode.blockLength sb number := by
  by_cases hempty : (d.block image sb number).entries = []
  · rw [hempty]
    exact Nat.zero_le _
  · obtain ⟨b, hb, hlie⟩ := namesLie_block hempty
    rw [← hb.size_eq]
    exact hlie.sum_footprint_le

/-- What some blocks hold, faults apart. -/
def entriesOf (image : ByteArray) (sb : Superblock) (d : Directory) (numbers : List Nat) :
    List DirectoryEntry :=
  numbers.flatMap fun number => (d.block image sb number).entries

/-- None of them has an empty name. -/
theorem one_le_size_of_mem {numbers : List Nat} (he : e ∈ d.entriesOf image sb numbers) :
    1 ≤ e.name.size := by
  obtain ⟨number, -, he⟩ := List.mem_flatMap.mp he
  obtain ⟨b, -, hlie⟩ := namesLie_block (List.ne_nil_of_mem he)
  obtain ⟨index, hindex⟩ := List.getElem?_of_mem he
  exact (hlie.lies index e hindex).one_le_size

/-- **All blocks together take no more than the size** of the directory. -/
theorem sum_footprint_entriesOf_le (image : ByteArray) (sb : Superblock) (d : Directory)
    (n : Nat) : ((d.entriesOf image sb (List.range n)).map DirectoryEntry.footprint).sum ≤
      min d.inode.size.toNat (n * sb.blockSize) := by
  induction n with
  | zero => exact Nat.zero_le _
  | succ n ih =>
    have hblock := sum_footprint_block_le image sb d n
    unfold entriesOf Inode.blockLength at *
    rw [List.range_succ, List.flatMap_append, List.map_append, List.sum_append,
      List.flatMap_singleton, Nat.succ_mul]
    omega

/-- What a directory holds is a first part of that: up to the first
fault. -/
theorem contentsFrom_front (image : ByteArray) (sb : Superblock) (d : Directory)
    (hle : left ≤ d.blockCount) : (d.contentsFrom image sb left).entries <+:
      d.entriesOf image sb (List.range' (d.blockCount - left) left) := by
  induction left with
  | zero => exact List.nil_prefix
  | succ left ih =>
    have hrest := ih (Nat.le_of_succ_le hle)
    rw [List.range'_succ, (by omega : d.blockCount - (left + 1) + 1 = d.blockCount - left),
      entriesOf, List.flatMap_cons, contentsFrom]
    cases hfault : (d.block image sb (d.blockCount - (left + 1))).fault? with
    | some cause =>
      rw [Listing.followedBy_of_fault hfault]
      exact List.prefix_append ..
    | none =>
      rw [Listing.followedBy_of_sound hfault]
      exact (List.prefix_append_right_inj _).mpr hrest

end Directory

/-! ## Cursors -/

namespace Cursor

/-- The entries that a cursor yields in its next steps. A step that fails, or
comes to the end, yields none. -/
def yields (image : ByteArray) (sb : Superblock) : (steps : Nat) → Cursor → List DirectoryEntry
  | 0, _ => []
  | steps + 1, c =>
    match (c.next sb).answer image with
    | (.ok (some e), next) => e :: yields image sb steps next
    | (_, next) => yields image sb steps next

/-- They are the first ones of what it has ahead. -/
theorem yields_eq (image : ByteArray) (sb : Superblock) (steps : Nat) (c : Cursor) :
    c.yields image sb steps = (c.ahead image sb).entries.take steps := by
  induction steps generalizing c with
  | zero => rfl
  | succ steps ih =>
    obtain ⟨next, hstep, -, hahead⟩ := exists_next image sb c
    rw [yields, hstep]
    generalize c.ahead image sb = held at hahead ⊢
    rcases held with ⟨_ | ⟨e, rest⟩, fault?⟩
    · cases fault? <;> simp [Listing.answer, ih, hahead, Listing.after, Listing.empty]
    · simp [Listing.answer, ih, hahead]

/-- **No directory block yields names that overlap or leave it.** The entries
that a cursor yields from the start on, in any number of steps, are those of
the blocks in their order. In the bytes of a block their names lie one after
another behind the records. So the entries take no more than the size of the
directory, and their number is bounded by it. -/
theorem yields_within (h : Directory.ofInode sb i = .ok d) (steps : Nat) :
    (start d).yields image sb steps <+: d.entriesOf image sb (List.range d.blockCount) ∧
      (∀ number, (d.block image sb number).entries ≠ [] →
        ∃ b, d.ReadsBlock image sb number b ∧
          DirectoryBlock.NamesLie b (d.block image sb number).entries) ∧
      (((start d).yields image sb steps).map DirectoryEntry.footprint).sum ≤ i.size.toNat ∧
      ((start d).yields image sb steps).length ≤
        i.size.toNat / (DirectoryRecord.recordSize + 1) := by
  have hfront : (start d).yields image sb steps <+:
      d.entriesOf image sb (List.range d.blockCount) := by
    have hcontents := Directory.contentsFrom_front image sb d (Nat.le_refl _)
    rw [Nat.sub_self, ← List.range_eq_range'] at hcontents
    rw [yields_eq, ahead_start]
    exact (List.take_prefix _ _).trans hcontents
  have hsum : (((start d).yields image sb steps).map DirectoryEntry.footprint).sum ≤
      i.size.toNat := by
    have hall := Directory.sum_footprint_entriesOf_le image sb d d.blockCount
    obtain ⟨rest, hrest⟩ := hfront
    rw [← hrest, List.map_append, List.sum_append, (Directory.of_ofInode h).1] at hall
    omega
  refine ⟨hfront, fun number hne => Directory.namesLie_block hne, hsum, ?_⟩
  rw [Nat.le_div_iff_mul_le (Nat.succ_pos _)]
  refine Nat.le_trans (DirectoryEntry.length_mul_le_sum_footprint ?_) hsum
  intro e he
  exact Directory.one_le_size_of_mem (hfront.subset he)

/-- A damaged block of a directory: four records, two bytes that are not
used, and the names. The last name is said to start before the one in front
of it. -/
def crossedBlock : ByteArray :=
  ⟨#[1, 0, 0, 0, 0, 0, 0, 0, 50, 0, 1, 0, 2, 0, 0, 0, 0, 0, 0, 0, 53, 0, 1, 0,
    3, 0, 0, 0, 0, 0, 0, 0, 54, 0, 1, 0, 4, 0, 0, 0, 0, 0, 0, 0, 52, 0, 1, 0,
    0, 0, 0x61, 0x62, 0x63, 0x64, 0x65, 0x66]⟩

/-- The inode of a directory with nothing else. -/
def crossedInode : Inode :=
  { Inode.bare .flatPlain 56 with
    mode := 0o040755, type := .directory, payload := .firstBlock 0 }

/-- The entries before the fault. -/
def crossedEntries : List DirectoryEntry :=
  [⟨1, ⟨#[0x61, 0x62, 0x63]⟩, 1⟩, ⟨2, ⟨#[0x64]⟩, 1⟩]

theorem yields_within_crossed :
    Directory.ofInode (.bare 9 0) crossedInode = .ok ⟨crossedInode, 1⟩ ∧
      (start ⟨crossedInode, 1⟩).yields crossedBlock (.bare 9 0) 4 = crossedEntries ∧
      (∃ b, Directory.ReadsBlock crossedBlock (.bare 9 0) ⟨crossedInode, 1⟩ 0 b ∧
        DirectoryBlock.NamesLie b crossedEntries) ∧
      (crossedEntries.map DirectoryEntry.footprint).sum ≤ 56 ∧ crossedEntries.length ≤ 56 / 13 := by
  have hd : Directory.ofInode (.bare 9 0) crossedInode = .ok ⟨crossedInode, 1⟩ := rfl
  have hcontents : (Directory.contents crossedBlock (.bare 9 0) ⟨crossedInode, 1⟩).entries =
      crossedEntries := by decide +kernel
  have hblock : (Directory.block crossedBlock (.bare 9 0) ⟨crossedInode, 1⟩ 0).entries =
      crossedEntries := by decide +kernel
  have hyields : (start ⟨crossedInode, 1⟩).yields crossedBlock (.bare 9 0) 4 =
      crossedEntries := by
    rw [yields_eq, ahead_start, hcontents]
    rfl
  obtain ⟨-, hlie, hsum, hlength⟩ := @yields_within crossedBlock _ _ _ hd 4
  rw [hyields] at hsum hlength
  have hzero := hlie 0
  rw [hblock] at hzero
  exact ⟨hd, hyields, hzero (List.cons_ne_nil _ _), hsum, hlength⟩

end Cursor

end Erofs
