import Erofs.Proofs.Directory.Cursors
/-!
# Looking names up

A directory gives a name the number of the first entry that has it. Only
what comes before that entry matters: a fault further on goes unnoticed,
and one that comes first is the answer (`Listing.numberOf`). This is what
is found when a cursor goes on until it comes to the name
(`Cursor.seeks_iff`).
-/

namespace Erofs

variable {image : ByteArray} {sb : Superblock} {d : Directory} {i : Inode} {name : ByteArray}

/-- Names are equal if all of their bytes are. -/
instance lawfulBEqByteArray : LawfulBEq ByteArray where
  rfl {a} := by
    cases a
    exact beq_self_eq_true (α := Array UInt8) _
  eq_of_beq {a b} h := by
    cases a
    cases b
    exact congrArg ByteArray.mk (eq_of_beq (α := Array UInt8) h)

/-- The number that a listing gives to a name. -/
def Listing.numberOf (l : Listing) (name : ByteArray) : Except Error Nat :=
  match l.entries.find? (fun e => e.name == name), l.fault? with
  | some e, _ => .ok e.nid
  | none, some cause => .error cause
  | none, none => .error .noSuchName

namespace Listing

/-- A listing answers before the one after it. -/
theorem numberOf_followedBy (l next : Listing) (name : ByteArray) :
    (l.followedBy next).numberOf name =
      match l.entries.find? (fun e => e.name == name), l.fault? with
      | some e, _ => .ok e.nid
      | none, some cause => .error cause
      | none, none => next.numberOf name := by
  cases hfault : l.fault? with
  | some cause =>
    rw [followedBy_of_fault hfault, numberOf, hfault]
    cases l.entries.find? (fun e => e.name == name) <;> rfl
  | none =>
    rw [followedBy_of_sound hfault, numberOf, List.find?_append]
    cases l.entries.find? (fun e => e.name == name) <;> rfl

/-- The first answer to going through a listing decides, unless it is an
entry with another name. -/
theorem numberOf_eq (l : Listing) (name : ByteArray) :
    l.numberOf name =
      match l.answer 0 with
      | .error cause => .error cause
      | .ok none => .error .noSuchName
      | .ok (some e) => if e.name = name then .ok e.nid else (l.after 1).numberOf name := by
  rcases l with ⟨_ | ⟨e, rest⟩, fault?⟩
  · cases fault? <;> rfl
  · rw [after_one_cons]
    by_cases h : e.name = name
    · simp [numberOf, answer, h]
    · have hne : (e.name == name) = false := beq_eq_false_iff_ne.mpr h
      simp [numberOf, answer, h, hne]

end Listing

namespace Directory

theorem onImage_findInLast (left : Nat) :
    (d.findInLast sb name left).onImage image = (d.contentsFrom image sb left).numberOf name := by
  induction left with
  | zero => exact Query.onImage_fail _
  | succ left ih =>
    rw [findInLast, Query.onImage_bind, contentsFrom, Listing.numberOf_followedBy]
    cases hload : (d.loadBlock sb (d.blockCount - (left + 1))).onImage image with
    | error cause =>
      rw [block_of_error hload]
      rfl
    | ok listing =>
      rw [block_of_ok hload]
      simp only [Except.bind]
      cases listing.entries.find? (fun e => e.name == name) with
      | some e => rfl
      | none =>
        cases listing.fault? with
        | some cause => exact Query.onImage_fail cause
        | none => exact ih

/-- **Looking a name up** is finding it in what the directory holds. -/
theorem onImage_find (i : Inode) (name : ByteArray) :
    (find sb i name).onImage image = (i.contents image sb).numberOf name := by
  rw [find, Query.onImage_bind, Query.onImage_liftM, Inode.contents]
  cases ofInode sb i with
  | error cause => rfl
  | ok d => exact onImage_findInLast d.blockCount

end Directory

namespace Cursor

/-- What comes of going on with a cursor until it is at an entry with a
name. -/
inductive Seeks (image : ByteArray) (sb : Superblock) (name : ByteArray) :
    Cursor → Except Error Nat → Prop
  | here {c next : Cursor} {e : DirectoryEntry} :
    (c.next sb).answer image = (.ok (some e), next) → e.name = name →
      Seeks image sb name c (.ok e.nid)
  | further {c next : Cursor} {e : DirectoryEntry} {result : Except Error Nat} :
    (c.next sb).answer image = (.ok (some e), next) → e.name ≠ name →
      Seeks image sb name next result → Seeks image sb name c result
  | ended {c next : Cursor} :
    (c.next sb).answer image = (.ok none, next) → Seeks image sb name c (.error .noSuchName)
  | failed {c next : Cursor} {cause : Error} :
    (c.next sb).answer image = (.error cause, next) → Seeks image sb name c (.error cause)

/-- What a step says of what is ahead. -/
theorem ahead_of_next {c next : Cursor} {answer : Except Error (Option DirectoryEntry)}
    (h : (c.next sb).answer image = (answer, next)) :
    (c.ahead image sb).answer 0 = answer ∧ next.ahead image sb = (c.ahead image sb).after 1 := by
  obtain ⟨next', hstep, -, hahead⟩ := exists_next image sb c
  cases hstep.symm.trans h
  exact ⟨rfl, hahead⟩

/-- **A cursor comes to what a lookup finds**, and to nothing else. -/
theorem seeks_iff {c : Cursor} {result : Except Error Nat} :
    Seeks image sb name c result ↔ result = (c.ahead image sb).numberOf name := by
  constructor
  · intro h
    induction h with
    | here hnext hname =>
      rw [Listing.numberOf_eq, (ahead_of_next hnext).1]
      exact (if_pos hname).symm
    | further hnext hname _ ih =>
      obtain ⟨hanswer, hahead⟩ := ahead_of_next hnext
      rw [Listing.numberOf_eq, hanswer, ih, hahead]
      exact (if_neg hname).symm
    | ended hnext => rw [Listing.numberOf_eq, (ahead_of_next hnext).1]
    | failed hnext => rw [Listing.numberOf_eq, (ahead_of_next hnext).1]
  · rintro rfl
    -- a step leaves fewer entries ahead
    induction hentries : (c.ahead image sb).entries generalizing c with
    | nil =>
      obtain ⟨next, hstep, -⟩ := exists_next image sb c
      cases hfault : (c.ahead image sb).fault? with
      | none =>
        have hanswer : (c.ahead image sb).answer 0 = .ok none := by
          simp [Listing.answer, hentries, hfault]
        rw [Listing.numberOf_eq, hanswer]
        exact .ended (hanswer ▸ hstep)
      | some cause =>
        have hanswer : (c.ahead image sb).answer 0 = .error cause := by
          simp [Listing.answer, hentries, hfault]
        rw [Listing.numberOf_eq, hanswer]
        exact .failed (hanswer ▸ hstep)
    | cons e rest ih =>
      obtain ⟨next, hstep, -, hahead⟩ := exists_next image sb c
      have hanswer : (c.ahead image sb).answer 0 = .ok (some e) := by
        simp [Listing.answer, hentries]
      have hrest : (next.ahead image sb).entries = rest := by
        rw [hahead]
        simp [Listing.after, hentries]
      rw [hanswer] at hstep
      rw [Listing.numberOf_eq, hanswer]
      by_cases hname : e.name = name
      · simp only [if_pos hname]
        exact .here hstep hname
      · simp only [if_neg hname, ← hahead]
        exact .further hstep hname (ih hrest)

end Cursor

end Erofs
