import Erofs.Proofs.Directory.Decoding
/-!
# Cursors in use

Any number of cursors go through directories of one mount, each at its own
pace, while other things are asked of the mount as well. What a cursor has
still ahead of it is a rest of what its directory holds (`Cursor.ahead`),
and a step answers the first thing of that rest (`exists_next`). So from
wherever it was set to the start, a cursor answers the entries of its
directory in order, then the fault once if there is one, and nothing from
then on (`cursors_follow_contents`).
-/

namespace Erofs

variable {image : ByteArray} {sb : Superblock} {blockSize : Nat}

/-! ## The answers to a listing -/

namespace Listing

/-- The answer with a number to going through a listing: the entries come
in order, then the fault once, if there is one, and then nothing. -/
def answer (l : Listing) (n : Nat) : Except Error (Option DirectoryEntry) :=
  match l.entries[n]?, l.fault? with
  | some e, _ => .ok (some e)
  | none, none => .ok none
  | none, some cause => if n = l.entries.length then .error cause else .ok none

/-- What is left of a listing after some answers. -/
def after (l : Listing) (n : Nat) : Listing :=
  if n ≤ l.entries.length then ⟨l.entries.drop n, l.fault?⟩ else empty

variable (l : Listing)

@[simp] theorem after_zero : l.after 0 = l := by
  simp [after]

/-- The next answer is the first to what is left. -/
theorem answer_after (n : Nat) : (l.after n).answer 0 = l.answer n := by
  rcases Nat.lt_trichotomy n l.entries.length with hlt | heq | hgt
  · simp [after, answer, Nat.le_of_lt hlt, List.getElem?_eq_getElem hlt]
  · cases hfault : l.fault? <;> simp [after, answer, heq, hfault]
  · have hnone : l.entries[n]? = none := List.getElem?_eq_none (Nat.le_of_lt hgt)
    have hne : n ≠ l.entries.length := Nat.ne_of_gt hgt
    cases hfault : l.fault? <;>
      simp [after, answer, empty, Nat.not_le.mpr hgt, hnone, hne, hfault]

/-- One more answer leaves less. -/
theorem after_succ (n : Nat) : (l.after n).after 1 = l.after (n + 1) := by
  rcases Nat.lt_trichotomy n l.entries.length with hlt | heq | hgt
  · have hpos : 1 ≤ l.entries.length - n := by omega
    simp [after, Nat.le_of_lt hlt, Nat.succ_le_of_lt hlt, hpos]
  · have hlast : ¬ n + 1 ≤ l.entries.length := by omega
    simp [after, empty, Nat.le_of_eq heq, hlast, Nat.sub_eq_zero_of_le (Nat.le_of_eq heq.symm)]
  · have hlast : ¬ n + 1 ≤ l.entries.length := by omega
    simp [after, empty, Nat.not_le.mpr hgt, hlast]

@[simp] theorem after_one_cons (e : DirectoryEntry) (rest : List DirectoryEntry)
    (fault? : Option Error) : (⟨e :: rest, fault?⟩ : Listing).after 1 = ⟨rest, fault?⟩ := by
  simp [after]

end Listing

/-! ## Steps of a cursor -/

namespace Cursor

/-- What a cursor has ahead of it. -/
def ahead (image : ByteArray) (sb : Superblock) (c : Cursor) : Listing :=
  c.pending.followedBy (c.directory.contentsFrom image sb c.blocksLeft)

variable {d : Directory}

theorem ahead_start : (start d).ahead image sb = d.contents image sb :=
  Listing.empty_followedBy _

theorem ahead_finish : (finish d).ahead image sb = .empty :=
  Listing.empty_followedBy _

/-- A step from what is pending and the blocks behind it. -/
theorem exists_advanceFrom (pending : Listing) (left : Nat) :
    ∃ next, (advanceFrom sb d pending left).onImage image =
        ((pending.followedBy (d.contentsFrom image sb left)).answer 0).map (·, next) ∧
      next.directory = d ∧
      next.ahead image sb = (pending.followedBy (d.contentsFrom image sb left)).after 1 := by
  induction left generalizing pending with
  | zero =>
    rw [Directory.contentsFrom, Listing.followedBy_empty]
    rcases pending with ⟨_ | ⟨e, rest⟩, _ | cause⟩ <;> rw [advanceFrom]
    · exact ⟨finish d, rfl, rfl, ahead_finish⟩
    · exact ⟨finish d, Query.onImage_fail cause, rfl, ahead_finish⟩
    · exact ⟨⟨d, ⟨rest, none⟩, 0⟩, rfl, rfl, by simp [ahead, Directory.contentsFrom]⟩
    · exact ⟨⟨d, ⟨rest, some cause⟩, 0⟩, rfl, rfl, by simp [ahead, Directory.contentsFrom]⟩
  | succ left ih =>
    rcases pending with ⟨_ | ⟨e, rest⟩, _ | cause⟩ <;> rw [advanceFrom]
    · -- nothing is pending, so the next block decides
      change ∃ next : Cursor, _ = ((d.contentsFrom image sb (left + 1)).answer 0).map (·, next) ∧
        next.directory = d ∧ next.ahead image sb = (d.contentsFrom image sb (left + 1)).after 1
      rw [Query.onImage_bind, Directory.contentsFrom]
      cases hload : (d.loadBlock sb (d.blockCount - (left + 1))).onImage image with
      | error cause =>
        rw [Directory.block_of_error hload]
        exact ⟨finish d, rfl, rfl, ahead_finish⟩
      | ok listing =>
        rw [Directory.block_of_ok hload]
        exact ih listing
    · exact ⟨finish d, Query.onImage_fail cause, rfl, ahead_finish⟩
    · exact ⟨⟨d, ⟨rest, none⟩, left + 1⟩, rfl, rfl, (Listing.after_one_cons ..).symm⟩
    · exact ⟨⟨d, ⟨rest, some cause⟩, left + 1⟩, rfl, rfl, (Listing.after_one_cons ..).symm⟩

/-- **A step of a cursor** answers the first thing ahead of it, and leaves
the rest ahead. -/
theorem exists_next (image : ByteArray) (sb : Superblock) (c : Cursor) :
    ∃ next, (c.next sb).answer image = ((c.ahead image sb).answer 0, next) ∧
      next.directory = c.directory ∧ next.ahead image sb = (c.ahead image sb).after 1 := by
  have hadvance : ∃ next, (c.advance sb).onImage image =
      ((c.ahead image sb).answer 0).map (·, next) ∧ next.directory = c.directory ∧
        next.ahead image sb = (c.ahead image sb).after 1 :=
    exists_advanceFrom c.pending c.blocksLeft
  obtain ⟨next, hstep, hdirectory, hahead⟩ := hadvance
  rw [Cursor.next, Session.answer_bind, Session.answer_attempt, hstep]
  generalize c.ahead image sb = held at hahead
  rcases held with ⟨_ | ⟨e, rest⟩, fault?⟩
  · cases fault? with
    | none => exact ⟨next, rfl, hdirectory, hahead⟩
    | some cause =>
      -- a step that fails leaves nothing ahead, wherever in a block it was
      exact ⟨finish c.directory, rfl, rfl, ahead_finish⟩
  · exact ⟨next, rfl, hdirectory, hahead⟩

end Cursor

/-! ## Cursors of one mount -/

/-- A cursor in use. -/
structure OpenCursor where
  /-- The inode of its directory. -/
  inode : Inode
  cursor : Cursor
  /-- Its answers since it was made, or set back to the start last. -/
  answers : List (Except Error (Option DirectoryEntry))

/-- A mount, and the cursors in use on it, by number. -/
structure CursorTable (δ : Type) where
  mount : Mount δ
  cursors : Nat → Option OpenCursor

namespace CursorTable

/-- What can be called on a mount with cursors. -/
inductive Call : Type 1 where
  /-- A cursor at the start of the directory of an inode is put into use
  under a number, instead of any that had it. -/
  | make (number : Nat) (i : Inode)
  /-- A cursor goes on by one step. -/
  | next (number : Nat)
  /-- A cursor is set back to the start. -/
  | rewind (number : Nat)
  /-- Anything else is asked of the mount. -/
  | perform {β : Type} (s : Session β)
  /-- The device is prepared for use. -/
  | attach
  /-- The cache is emptied, and the use of the device is ended. -/
  | close

variable {δ : Type} [BlockDevice δ]

omit [BlockDevice δ] in
/-- Puts a cursor under a number. -/
def put (t : CursorTable δ) (number : Nat) (o : OpenCursor) : CursorTable δ :=
  { t with cursors := fun n => if n = number then some o else t.cursors n }

omit [BlockDevice δ] in
/-- A mount without cursors. -/
def ofMount (m : Mount δ) : CursorTable δ := ⟨m, fun _ => none⟩

/-- What a call makes of a mount with cursors. -/
def call (t : CursorTable δ) : Call → CursorTable δ
  | .make number i =>
    match t.mount.cursor i with
    | .error _ => t
    | .ok c => t.put number ⟨i, c, []⟩
  | .next number =>
    match t.cursors number with
    | none => t
    | some o =>
      let ((answer, c), mount) := t.mount.next o.cursor
      { t with mount }.put number ⟨o.inode, c, o.answers ++ [answer]⟩
  | .rewind number =>
    match t.cursors number with
    | none => t
    | some o => t.put number ⟨o.inode, o.cursor.rewind, []⟩
  | .perform s => { t with mount := (t.mount.perform s).2 }
  | .attach => { t with mount.volume := t.mount.volume.attach.2 }
  | .close => { t with mount.volume := t.mount.volume.close.2 }

/-- What calls make of a mount with cursors, one after another. -/
def run (t : CursorTable δ) (calls : List Call) : CursorTable δ := calls.foldl call t

end CursorTable

/-- A cursor has answered a first part of what its directory holds, and
has the rest ahead. -/
structure OpenCursor.Follows (image : ByteArray) (sb : Superblock) (o : OpenCursor) : Prop where
  directory : Directory.ofInode sb o.inode = .ok o.cursor.directory
  answers : o.answers = (List.range o.answers.length).map (o.inode.contents image sb).answer
  ahead : o.cursor.ahead image sb = (o.inode.contents image sb).after o.answers.length

/-- A cursor at the start has everything ahead. -/
theorem OpenCursor.follows_start {i : Inode} {d : Directory} (h : Directory.ofInode sb i = .ok d) :
    OpenCursor.Follows image sb ⟨i, .start d, []⟩ where
  directory := h
  answers := rfl
  ahead := by
    rw [Cursor.ahead_start, ← Directory.contents_of_ofInode h]
    exact (Listing.after_zero _).symm

namespace CursorTable

variable {δ : Type} [BlockDevice δ]

/-- A mount that serves an image, with cursors that follow what their
directories hold. -/
structure Sound (image : ByteArray) (sb : Superblock) (blockSize : Nat) (t : CursorTable δ) :
    Prop where
  serves : t.mount.Serves image blockSize
  superblock : t.mount.superblock = sb
  follows {number : Nat} {o : OpenCursor} : t.cursors number = some o → o.Follows image sb

namespace Sound

variable {t : CursorTable δ} (h : t.Sound image sb blockSize)
include h

/-- The mount may be used for anything. -/
theorem of_becomes {m : Mount δ} (hm : t.mount.Becomes m) :
    Sound image sb blockSize { t with mount := m } where
  serves := h.serves.of_becomes hm
  superblock := hm.keeps.2.1.trans h.superblock
  follows := h.follows

theorem put {number : Nat} {o : OpenCursor} (ho : o.Follows image sb) :
    (t.put number o).Sound image sb blockSize where
  serves := h.serves
  superblock := h.superblock
  follows {n o'} hn := by
    simp only [CursorTable.put] at hn
    split at hn
    · cases hn
      exact ho
    · exact h.follows hn

/-- A step answers the next thing in the directory. -/
theorem next {number : Nat} {o : OpenCursor} (ho : t.cursors number = some o) :
    (t.call (.next number)).Sound image sb blockSize := by
  have hfollows := h.follows ho
  obtain ⟨c, hanswer, hdirectory, hahead⟩ := Cursor.exists_next image sb o.cursor
  have hnext : (t.mount.next o.cursor).1 =
      ((o.inode.contents image sb).answer o.answers.length, c) := by
    rw [h.serves.next_fst, h.superblock, hanswer, hfollows.ahead, Listing.answer_after]
  simp only [call, ho, hnext]
  refine (h.of_becomes (.perform _ .refl)).put
    { directory := hfollows.directory.trans (congrArg _ hdirectory.symm)
      answers := ?_
      ahead := ?_ }
  · rw [List.length_append, List.length_singleton, List.range_succ, List.map_append,
      ← hfollows.answers]
    rfl
  · rw [hahead, hfollows.ahead, Listing.after_succ, List.length_append, List.length_singleton]

/-- **No call confuses a cursor.** -/
theorem call (c : Call) : (t.call c).Sound image sb blockSize := by
  cases c with
  | make number i =>
    simp only [CursorTable.call, Mount.cursor, h.superblock]
    cases hd : Directory.ofInode sb i with
    | error cause => exact h
    | ok d => exact h.put (OpenCursor.follows_start hd)
  | next number =>
    cases ho : t.cursors number with
    | none => simpa only [CursorTable.call, ho] using h
    | some o => exact h.next ho
  | rewind number =>
    cases ho : t.cursors number with
    | none => simpa only [CursorTable.call, ho] using h
    | some o =>
      simp only [CursorTable.call, ho]
      exact h.put (OpenCursor.follows_start (h.follows ho).directory)
  | perform s => exact h.of_becomes (.perform s .refl)
  | attach => exact h.of_becomes (.attach .refl)
  | close => exact h.of_becomes (.close .refl)

/-- Nor does any number of calls. -/
theorem run (calls : List Call) : (t.run calls).Sound image sb blockSize := by
  induction calls generalizing t with
  | nil => exact h
  | cons c rest ih => exact ih (h.call c)

end Sound

theorem sound_ofMount {m : Mount δ} (h : m.Serves image blockSize) :
    (ofMount m).Sound image m.superblock blockSize where
  serves := h
  superblock := rfl
  follows hn := by cases hn

/-- **A cursor is a view of its directory that can be set back.** On a mount
of an image, cursors are made, moved on and set back in any order, and
anything else is done in between. The answers of each cursor since it was
made or set back last are the first ones of a sequence that the image and
the directory determine: the entries, then the fault once if there is one,
then nothing. Listing the directory gives these entries or that fault. -/
theorem cursors_follow_contents {m : Mount δ} (h : m.Serves image blockSize)
    (calls : List Call) {number : Nat} {o : OpenCursor}
    (ho : ((ofMount m).run calls).cursors number = some o) :
    o.answers = (List.range o.answers.length).map
        (o.inode.contents image m.superblock).answer ∧
      (((ofMount m).run calls).mount.listDirectory o.inode).1 =
        (o.inode.contents image m.superblock).result := by
  have hsound := (sound_ofMount h).run calls
  refine ⟨(hsound.follows ho).answers, ?_⟩
  rw [hsound.serves.listDirectory_fst, hsound.superblock]

/-- A cursor over the root of the small tree is set back within a block, and
two entries later it has answered these. -/
theorem cursors_follow_treeRoot :
    ∃ (m : Mount MemoryDevice) (o : OpenCursor), m.Serves treeImage 512 ∧
      ((ofMount m).run [.make 0 treeRoot, .next 0, .rewind 0, .next 0, .next 0]).cursors 0 =
        some o ∧
      o.answers = (treeBlocks.flatten.take 2).map fun e => .ok (some e) := by
  obtain ⟨m, hsuperblock, -, hm⟩ := exists_serves_treeImage 8
  have hcursor : m.cursor treeRoot = .ok (.start ⟨treeRoot, 2⟩) := by
    rw [Mount.cursor, hsuperblock]
    rfl
  obtain ⟨o, ho, hinode, hlength⟩ : ∃ o : OpenCursor,
      ((ofMount m).run [.make 0 treeRoot, .next 0, .rewind 0, .next 0, .next 0]).cursors 0 =
        some o ∧ o.inode = treeRoot ∧ o.answers.length = 2 := by
    simp [run, call, ofMount, hcursor, put]
  have hcontents : o.inode.contents treeImage m.superblock = ⟨treeBlocks.flatten, none⟩ := by
    rw [hinode, hsuperblock, contents_treeRoot]
  have hanswers := (cursors_follow_contents hm _ ho).1
  rw [hlength, hcontents] at hanswers
  exact ⟨m, o, hm, ho, hanswers⟩

end CursorTable

end Erofs
