import Erofs.Directory.Cursor
import Erofs.Proofs.Query
import Erofs.Statistics.Survey
/-!
# Directories entry by entry

Listing a directory, looking a name up and surveying a tree go through the
blocks of a directory, and a cursor goes through its entries. Both read the
same blocks in the same order and stop at the same fault. So what is left to
do at a cursor is to step it, to take in the entry that it comes to, and to
do what is left at the next cursor: this holds of listing
(`Cursor.listRest_eq`), of looking a name up (`Cursor.findRest_eq`) and of
a survey (`Tour.addRest_eq`).
-/

namespace Erofs

namespace Cursor

variable (sb : Superblock)

/-! ## Steps -/

section

variable (d : Directory) (left : Nat)

theorem advance_entry (e : DirectoryEntry) (rest : List DirectoryEntry) (fault? : Option Error) :
    advance sb ⟨d, ⟨e :: rest, fault?⟩, left⟩ = pure (some e, ⟨d, ⟨rest, fault?⟩, left⟩) := by
  rw [advance, advanceFrom]

theorem advance_fault (cause : Error) :
    advance sb ⟨d, ⟨[], some cause⟩, left⟩ = Query.fail cause := by
  rw [advance, advanceFrom]

theorem advance_end : advance sb ⟨d, ⟨[], none⟩, 0⟩ = pure (none, finish d) := by
  rw [advance, advanceFrom]

theorem advance_load :
    advance sb ⟨d, ⟨[], none⟩, left + 1⟩ =
      d.loadBlock sb (d.blockCount - (left + 1)) >>= fun listing =>
        advance sb ⟨d, listing, left⟩ := by
  rw [advance, advanceFrom]
  rfl

/-- A block that cannot be loaded ends the directory. -/
theorem next_load :
    next sb ⟨d, ⟨[], none⟩, left + 1⟩ = (do
      match ← (d.loadBlock sb (d.blockCount - (left + 1))).attempt with
      | .ok listing => next sb ⟨d, listing, left⟩
      | .error cause => return (.error cause, finish d)) := by
  rw [next, advance_load, Query.attempt_bind, Session.bind_assoc]
  refine congrArg (_ >>= ·) (funext fun result => ?_)
  cases result <;> rfl

end

/-- **Induction on the steps of a cursor**: it is at an entry, at a fault or
at the end, or it comes to what the next block holds. -/
@[elab_as_elim]
theorem step_induction {motive : Cursor → Prop}
    (entry : ∀ d e rest fault? left, motive ⟨d, ⟨e :: rest, fault?⟩, left⟩)
    (fault : ∀ d cause left, motive ⟨d, ⟨[], some cause⟩, left⟩)
    (ended : ∀ d, motive ⟨d, ⟨[], none⟩, 0⟩)
    (load : ∀ d left, (∀ listing, motive ⟨d, listing, left⟩) →
      motive ⟨d, ⟨[], none⟩, left + 1⟩) (c : Cursor) : motive c := by
  obtain ⟨d, pending, left⟩ := c
  induction left generalizing pending with
  | zero =>
    obtain ⟨_ | ⟨e, rest⟩, _ | cause⟩ := pending
    · exact ended d
    · exact fault d cause 0
    · exact entry ..
    · exact entry ..
  | succ left ih =>
    obtain ⟨_ | ⟨e, rest⟩, _ | cause⟩ := pending
    · exact load d left ih
    · exact fault d cause (left + 1)
    · exact entry ..
    · exact entry ..

/-! ## Listing -/

/-- The entries that a cursor still comes to, after those in `before`. -/
def listRest (c : Cursor) (before : Array DirectoryEntry) : Query (Array DirectoryEntry) :=
  match c.pending.fault? with
  | some cause => Query.fail cause
  | none => c.directory.lastEntries sb c.blocksLeft (before ++ c.pending.entries)

/-- **Listing is stepping**: every entry is put behind those before it, up to
the end. -/
theorem listRest_eq (c : Cursor) (before : Array DirectoryEntry) :
    c.listRest sb before = do
      match ← c.advance sb with
      | (some e, next) => next.listRest sb (before.push e)
      | (none, _) => return before := by
  induction c using step_induction with
  | entry d e rest fault? left =>
    rw [advance_entry]
    show _ = listRest sb ⟨d, ⟨rest, fault?⟩, left⟩ (before.push e)
    cases fault? with
    | some cause => rfl
    | none => simp [listRest]
  | fault d cause left =>
    rw [advance_fault]
    rfl
  | ended d =>
    rw [advance_end]
    simp [listRest, Directory.lastEntries]
    rfl
  | load d left ih =>
    rw [advance_load, Query.bind_assoc]
    show d.lastEntries sb (left + 1) (before ++ ([] : List DirectoryEntry)) = _
    rw [Array.appendList_nil, Directory.lastEntries]
    refine congrArg (_ >>= ·) (funext fun listing => ?_)
    exact ih listing

/-- At the start of a directory, all of it is left. -/
theorem listRest_start (d : Directory) (before : Array DirectoryEntry) :
    (start d).listRest sb before = d.lastEntries sb d.blockCount before := by
  simp [listRest, start, Listing.empty]

/-! ## Looking a name up -/

/-- The number that the first entry with a name has, of those that a cursor
still comes to. -/
def findRest (name : ByteArray) (c : Cursor) : Query Nat :=
  match c.pending.entries.find? (fun e => e.name == name), c.pending.fault? with
  | some e, _ => return e.nid
  | none, some cause => Query.fail cause
  | none, none => c.directory.findInLast sb name c.blocksLeft

/-- **Looking a name up is stepping**, until an entry has it. -/
theorem findRest_eq (name : ByteArray) (c : Cursor) :
    c.findRest sb name = (do
      match ← c.advance sb with
      | (some e, next) => if e.name == name then return e.nid else next.findRest sb name
      | (none, _) => Query.fail .noSuchName) := by
  induction c using step_induction with
  | entry d e rest fault? left =>
    rw [advance_entry]
    show _ = if e.name == name then pure e.nid else findRest sb name ⟨d, ⟨rest, fault?⟩, left⟩
    rw [findRest, List.find?_cons]
    cases e.name == name <;> rfl
  | fault d cause left =>
    rw [advance_fault]
    rfl
  | ended d =>
    rw [advance_end]
    rfl
  | load d left ih =>
    rw [advance_load, Query.bind_assoc]
    show d.findInLast sb name (left + 1) = _
    rw [Directory.findInLast]
    refine congrArg (_ >>= ·) (funext fun listing => ?_)
    exact ih listing

theorem findRest_start (name : ByteArray) (d : Directory) :
    (start d).findRest sb name = d.findInLast sb name d.blockCount :=
  rfl

end Cursor

/-! ## Surveys -/

namespace Tour

variable [Lz4.Compressor] (sb : Superblock) (descend : Descent) (parent : Nat)

/-- Adds the entries that a cursor still comes to. -/
def addRest (c : Cursor) (t : Tour) : Session Tour := do
  let nid := c.directory.inode.nid
  let t ← addEntries sb descend nid parent c.pending.entries t
  match c.pending.fault? with
  | some cause =>
    Session.reportFailure cause
    t.recordError nid cause
  | none => addBlocks sb descend c.directory parent c.blocksLeft t

/-- **A survey is stepping**: every entry is added, and a failure is recorded
and ends the directory. -/
theorem addRest_eq (c : Cursor) (t : Tour) :
    addRest sb descend parent c t = (do
      match ← c.next sb with
      | (.ok (some e), next) =>
        let t ←
          if e.nid = c.directory.inode.nid ∨ e.nid = parent then pure t
          else addEntry sb descend e t
        addRest sb descend parent next t
      | (.ok none, _) => return t
      | (.error cause, _) => t.recordError c.directory.inode.nid cause) := by
  induction c using Cursor.step_induction with
  | entry d e rest fault? left =>
    rw [Cursor.next, Cursor.advance_entry, addRest, addEntries]
    by_cases hloop : e.nid = d.inode.nid ∨ e.nid = parent
    · simp only [if_pos hloop]
      exact (if_pos hloop).symm
    · simp only [if_neg hloop]
      rw [Session.bind_assoc]
      exact (if_neg hloop).symm
  | fault d cause left =>
    rw [Cursor.next, Cursor.advance_fault, Query.attempt]
    show (Session.reportFailure cause >>= fun _ => t.recordError d.inode.nid cause) = _
    rw [Session.reportFailure]
    cases cause.remark? <;> rfl
  | ended d =>
    rw [Cursor.next, Cursor.advance_end]
    rfl
  | load d left ih =>
    rw [Cursor.next_load, Session.bind_assoc]
    show addBlocks sb descend d parent (left + 1) t = _
    rw [addBlocks]
    refine congrArg (_ >>= ·) (funext fun result => ?_)
    cases result with
    | error cause => rfl
    | ok listing => exact ih listing

theorem addRest_start (d : Directory) (t : Tour) :
    addRest sb descend parent (.start d) t = addBlocks sb descend d parent d.blockCount t :=
  rfl

end Tour

end Erofs
