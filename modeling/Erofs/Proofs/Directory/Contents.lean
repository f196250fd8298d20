import Erofs.Proofs.Mount.Agreement
/-!
# What a directory holds

A directory holds the entries of its blocks in order, up to the first
fault. This is one listing for the whole directory (`Directory.contents`),
and it depends on the image alone. Listing the directory gives all of the
entries if nothing is wrong, and the fault otherwise (`onImage_list`).
-/

namespace Erofs

variable {image : ByteArray} {sb : Superblock}

namespace Listing

/-- A listing and the one after it; nothing comes after a fault. -/
def followedBy (l next : Listing) : Listing :=
  match l.fault? with
  | some _ => l
  | none => ⟨l.entries ++ next.entries, next.fault?⟩

/-- All entries, or the fault that comes after them. -/
def result (l : Listing) : Except Error (List DirectoryEntry) :=
  match l.fault? with
  | some cause => .error cause
  | none => .ok l.entries

/-- No more entries are read than asked for. -/
theorem length_lastEntries_le (nid count : Nat) (b : ByteArray) (left : Nat) :
    (lastEntries nid count b left).entries.length ≤ left := by
  induction left with
  | zero => exact Nat.le_refl 0
  | succ left ih =>
    rw [lastEntries]
    split
    · exact Nat.zero_le _
    · exact Nat.succ_le_succ ih

variable {l next : Listing}

theorem followedBy_of_fault {cause : Error} (h : l.fault? = some cause) :
    l.followedBy next = l := by
  simp only [followedBy, h]

theorem followedBy_of_sound (h : l.fault? = none) :
    l.followedBy next = ⟨l.entries ++ next.entries, next.fault?⟩ := by
  simp only [followedBy, h]

@[simp] theorem empty_followedBy (l : Listing) : empty.followedBy l = l := rfl

@[simp] theorem followedBy_empty (l : Listing) : l.followedBy empty = l := by
  cases h : l.fault? with
  | some cause => exact followedBy_of_fault h
  | none =>
    rw [followedBy_of_sound h]
    cases l
    simp_all [empty]

/-- There is a result if there is no fault. -/
theorem result_eq_ok {entries : List DirectoryEntry} :
    l.result = .ok entries ↔ l = ⟨entries, none⟩ := by
  rcases l with ⟨held, _ | cause⟩ <;> simp [result]

end Listing

namespace Directory

variable (image sb) (d : Directory)

/-- What a block holds; one that cannot be read holds nothing but the
fault. -/
def block (number : Nat) : Listing :=
  match (d.loadBlock sb number).onImage image with
  | .error cause => ⟨[], some cause⟩
  | .ok listing => listing

/-- What the last `left` blocks hold. -/
def contentsFrom : (left : Nat) → Listing
  | 0 => .empty
  | left + 1 => (d.block image sb (d.blockCount - (left + 1))).followedBy (contentsFrom left)

/-- What a directory holds. -/
def contents : Listing := d.contentsFrom image sb d.blockCount

end Directory

/-- What an inode holds as a directory; one that is none holds nothing but
the fault. -/
def Inode.contents (image : ByteArray) (sb : Superblock) (i : Inode) : Listing :=
  match Directory.ofInode sb i with
  | .error cause => ⟨[], some cause⟩
  | .ok d => d.contents image sb

namespace Directory

variable {d : Directory} {i : Inode}

/-- A block that is loaded is what the directory holds there. -/
theorem block_of_ok {number : Nat} {listing : Listing}
    (h : (d.loadBlock sb number).onImage image = .ok listing) :
    d.block image sb number = listing := by
  rw [block, h]

/-- One that is not loaded holds the cause. -/
theorem block_of_error {number : Nat} {cause : Error}
    (h : (d.loadBlock sb number).onImage image = .error cause) :
    d.block image sb number = ⟨[], some cause⟩ := by
  rw [block, h]

/-- A directory is taken with its inode, and has a number of blocks that can
be addressed. -/
theorem of_ofInode (h : ofInode sb i = .ok d) :
    d.inode = i ∧ d.blockCount ≤ maxAddressableUnits := by
  unfold ofInode Inode.blockCount at h
  grind [Except.map]

theorem contents_of_ofInode (h : ofInode sb i = .ok d) :
    i.contents image sb = d.contents image sb := by
  rw [Inode.contents, h]

theorem onImage_lastEntries (left : Nat) (before : Array DirectoryEntry) :
    (d.lastEntries sb left before).onImage image =
      (d.contentsFrom image sb left).result.map
        fun (held : List DirectoryEntry) => before ++ held := by
  induction left generalizing before with
  | zero => simp [lastEntries, contentsFrom, Listing.result, Listing.empty, Except.map]
  | succ left ih =>
    rw [lastEntries, Query.onImage_bind, contentsFrom]
    cases hload : (d.loadBlock sb (d.blockCount - (left + 1))).onImage image with
    | error cause => rw [block_of_error hload]; rfl
    | ok listing =>
      rw [block_of_ok hload]
      simp only [Except.bind]
      cases hfault : listing.fault? with
      | some cause =>
        rw [Listing.followedBy_of_fault hfault, Listing.result, hfault]
        exact Query.onImage_fail cause
      | none =>
        rw [Listing.followedBy_of_sound hfault, ih]
        simp only [Listing.result]
        cases (d.contentsFrom image sb left).fault? with
        | some cause => rfl
        | none => exact congrArg Except.ok (Array.ext' (by simp))

/-- **Listing a directory** gives all that it holds, or the fault. -/
theorem onImage_list (i : Inode) :
    (list sb i).onImage image = (i.contents image sb).result := by
  rw [list, Query.onImage_bind, Query.onImage_liftM, Inode.contents]
  cases ofInode sb i with
  | error cause => rfl
  | ok d =>
    simp only [Except.bind]
    rw [Query.onImage_bind, onImage_lastEntries, contents]
    cases hresult : (d.contentsFrom image sb d.blockCount).result with
    | error cause => rfl
    | ok entries =>
      simp only [Except.map, Except.bind]
      rw [Query.onImage_report_bind, Query.onImage_pure]
      simp

end Directory

/-- So a mount lists what its image holds. -/
theorem Mount.Serves.listDirectory_fst {δ : Type} [BlockDevice δ] {m : Mount δ} {blockSize : Nat}
    (h : m.Serves image blockSize) (i : Inode) :
    (m.listDirectory i).1 = (i.contents image m.superblock).result := by
  have hallows : Statistics.Allows Short image m.superblock := allows_of_validate h.valid
  rw [← Directory.onImage_list]
  exact h.delivers.ask_fst (Directory.reads_list hallows.short hallows.bits_lt i)

end Erofs
