import Erofs.Proofs.Directory.Contents
/-!
# What a survey finds

A survey comes to files one after another and meets failures on the way.
What it finds depends on the image alone: `Place.findings` lists the
findings at a directory and below it, as deep as is allowed, and these are
all that a survey adds to the statistics (`answer_collect`). What is to hold
of all of them is shown for each kind, at any directory that may be reached
(`Place.findings_induction`).
-/

namespace Erofs

/-- What may be found at some place of a tree. -/
inductive Found where
  /-- A directory that is opened. -/
  | opened (i : Inode)
  /-- A directory that lies too deep to be opened. -/
  | refused (i : Inode)
  /-- A regular file, and how many bytes its data takes. -/
  | regular (i : Inode) (occupied : Except Error Nat)
  /-- A file of another type. -/
  | special (i : Inode)
  /-- An inode that cannot be read, or a directory that cannot be read any
  further. -/
  | failure (nid : Nat) (cause : Error)
  deriving DecidableEq

/-- Something found in a tree: an entry of a directory lies one level deeper
than the directory. -/
structure Finding where
  depth : Nat
  path : String
  found : Found
  deriving DecidableEq

/-- Adds a finding. -/
def Statistics.record (s : Statistics) (f : Finding) : Statistics :=
  match f.found with
  | .opened i => (s.count i.type).reach f.depth
  | .refused i => (s.count i.type).addError ⟨i.nid, f.path, .tooDeep⟩
  | .regular i (.ok occupied) =>
    (s.count i.type).addRegular i.size.toNat occupied i.isCompressed
  | .regular i (.error cause) => (s.count i.type).addError ⟨i.nid, f.path, cause⟩
  | .special i => s.count i.type
  | .failure nid cause => s.addError ⟨nid, f.path, cause⟩

/-- A directory that a survey has come to. -/
structure Place where
  depth : Nat
  /-- The number of the directory above; the root counts as its own. -/
  parent : Nat
  inode : Inode
  path : String

variable {image : ByteArray} {sb : Superblock}

namespace Place

/-- The root of a tree. -/
def root (i : Inode) : Place := ⟨0, i.nid, i, ""⟩

variable (p : Place)

/-- The path of an entry. -/
def pathTo (e : DirectoryEntry) : String := p.path ++ "/" ++ e.nameText

/-- A subdirectory. -/
def child (e : DirectoryEntry) (i : Inode) : Place := ⟨p.depth + 1, p.inode.nid, i, p.pathTo e⟩

/-- The entries that are followed: those that lead neither to the directory
itself nor to the one above. -/
def followed (entries : List DirectoryEntry) : List DirectoryEntry :=
  entries.filter fun e => ¬ (e.nid = p.inode.nid ∨ e.nid = p.parent)

variable [Lz4.Compressor] (image sb) (below : Place → List Finding)

/-- What is found at an entry, if `below` gives what is found at a
subdirectory. -/
def findAt (e : DirectoryEntry) : List Finding :=
  match (Inode.read sb e.nid).onImage image with
  | .error cause => [⟨p.depth + 1, p.pathTo e, .failure e.nid cause⟩]
  | .ok i =>
    if i.isRegular then
      [⟨p.depth + 1, p.pathTo e, .regular i ((i.occupiedSize sb).onImage image)⟩]
    else if i.isDirectory then below (p.child e i)
    else [⟨p.depth + 1, p.pathTo e, .special i⟩]

/-- What is found at the entries of a listing, and its fault. -/
def findIn (l : Listing) : List Finding :=
  (p.followed l.entries).flatMap (p.findAt image sb below) ++
    l.fault?.toList.map fun cause => ⟨p.depth, p.path, .failure p.inode.nid cause⟩

/-- What is found at a directory and below it; `levels` says how many levels
of directories are opened. -/
def findings : (levels : Nat) → Place → List Finding
  | 0, p => [⟨p.depth, p.path, .refused p.inode⟩]
  | levels + 1, p =>
    ⟨p.depth, p.path, .opened p.inode⟩ ::
      p.findIn image sb (findings levels) (p.inode.contents image sb)

end Place

/-- What a survey finds in a tree, by its root. Of a root that is no
directory only the type matters. -/
def Inode.findings [Lz4.Compressor] (image : ByteArray) (sb : Superblock) (maxDepth : Nat)
    (root : Inode) : List Finding :=
  if root.isDirectory then (Place.root root).findings image sb (maxDepth + 1)
  else [⟨0, "", .special root⟩]

theorem Inode.not_isRegular_of_isDirectory {i : Inode} (h : i.isDirectory) : ¬ i.isRegular := by
  rw [isDirectory, beq_iff_eq] at h
  rw [isRegular, h]
  decide

namespace Place

variable {p : Place} {below : Place → List Finding} {l next : Listing}
variable {e : DirectoryEntry} {rest : List DirectoryEntry}

theorem followed_cons_of_loop (h : e.nid = p.inode.nid ∨ e.nid = p.parent) :
    p.followed (e :: rest) = p.followed rest :=
  List.filter_cons_of_neg (mt of_decide_eq_true (not_not_intro h))

theorem followed_cons (h : ¬ (e.nid = p.inode.nid ∨ e.nid = p.parent)) :
    p.followed (e :: rest) = e :: p.followed rest :=
  List.filter_cons_of_pos (decide_eq_true h)

variable [Lz4.Compressor]

theorem findIn_of_fault {cause : Error} (h : l.fault? = some cause) :
    p.findIn image sb below l = (p.followed l.entries).flatMap (p.findAt image sb below) ++
      [⟨p.depth, p.path, .failure p.inode.nid cause⟩] := by
  rw [findIn, h]
  rfl

theorem findIn_of_sound (h : l.fault? = none) :
    p.findIn image sb below l = (p.followed l.entries).flatMap (p.findAt image sb below) := by
  rw [findIn, h]
  exact List.append_nil _

/-- What is found in one listing and then in another. -/
theorem findIn_followedBy_of_sound (h : l.fault? = none) :
    p.findIn image sb below (l.followedBy next) =
      (p.followed l.entries).flatMap (p.findAt image sb below) ++
        p.findIn image sb below next := by
  rw [findIn, Listing.followedBy_of_sound h, followed, List.filter_append, List.flatMap_append,
    List.append_assoc]
  rfl

/-- **What holds of every finding.** A property of directories that is passed
on to subdirectories is at hand wherever something is found. -/
theorem findings_induction {P : Place → Prop} {motive : Finding → Prop}
    (opened : ∀ p, P p → motive ⟨p.depth, p.path, .opened p.inode⟩)
    (refused : ∀ p, P p → motive ⟨p.depth, p.path, .refused p.inode⟩)
    (stopped : ∀ p cause, P p → motive ⟨p.depth, p.path, .failure p.inode.nid cause⟩)
    (unread : ∀ p e cause, P p → e ∈ (p.inode.contents image sb).entries →
      (Inode.read sb e.nid).onImage image = .error cause →
        motive ⟨p.depth + 1, p.pathTo e, .failure e.nid cause⟩)
    (regular : ∀ p e i, P p → e ∈ (p.inode.contents image sb).entries →
      (Inode.read sb e.nid).onImage image = .ok i → i.isRegular →
        motive ⟨p.depth + 1, p.pathTo e, .regular i ((i.occupiedSize sb).onImage image)⟩)
    (special : ∀ p e i, P p → e ∈ (p.inode.contents image sb).entries →
      (Inode.read sb e.nid).onImage image = .ok i → ¬ i.isRegular → ¬ i.isDirectory →
        motive ⟨p.depth + 1, p.pathTo e, .special i⟩)
    (child : ∀ p e i, P p → e ∈ (p.inode.contents image sb).entries →
      (Inode.read sb e.nid).onImage image = .ok i → i.isDirectory → P (p.child e i))
    (levels : Nat) {p : Place} (hp : P p) : ∀ f ∈ p.findings image sb levels, motive f := by
  induction levels generalizing p with
  | zero =>
    intro f hf
    obtain rfl := List.mem_singleton.mp hf
    exact refused p hp
  | succ levels ih =>
    intro f hf
    rcases List.mem_cons.mp hf with rfl | hf
    · exact opened p hp
    rcases List.mem_append.mp hf with hf | hf
    · obtain ⟨e, he, hf⟩ := List.mem_flatMap.mp hf
      have hentry := (List.mem_filter.mp he).1
      unfold findAt at hf
      cases hread : (Inode.read sb e.nid).onImage image with
      | error cause =>
        rw [hread] at hf
        obtain rfl := List.mem_singleton.mp hf
        exact unread p e cause hp hentry hread
      | ok i =>
        rw [hread] at hf
        simp only at hf
        split at hf
        · next hregular =>
          obtain rfl := List.mem_singleton.mp hf
          exact regular p e i hp hentry hread hregular
        · next hregular =>
          split at hf
          · next hdirectory => exact ih (child p e i hp hentry hread hdirectory) f hf
          · next hdirectory =>
            obtain rfl := List.mem_singleton.mp hf
            exact special p e i hp hentry hread hregular hdirectory
    · obtain ⟨cause, -, rfl⟩ := List.mem_map.mp hf
      exact stopped p cause hp

end Place

/-- Cutting the path back takes the name from its end. -/
theorem Tour.leave_of_enter (path name : String) (s : Statistics) :
    (⟨path ++ "/" ++ name, s⟩ : Tour).leave path.length = ⟨path, s⟩ := by
  have hpath : (path ++ "/" ++ name).toList.take path.length = path.toList := by
    simp only [String.toList_append, List.append_assoc]
    exact List.take_left' String.length_toList
  rw [leave, hpath, String.ofList_toList]

namespace Statistics

open Session Place Tour

variable {p : Place} {below : Place → List Finding} {descend : Descent} {s : Statistics}

/-- A failure leaves a line in the journal, and no more. -/
theorem answer_reportFailure_bind {α : Type} (cause : Error) (rest : Unit → Session α) :
    (reportFailure cause >>= rest).answer image = (rest ()).answer image := by
  rw [answer_bind]

variable [Lz4.Compressor]

theorem answer_addFile (i : Inode) (path : String) (depth : Nat) :
    ((⟨path, s.count i.type⟩ : Tour).addFile sb i).answer image =
      ⟨path, s.record ⟨depth, path, .regular i ((i.occupiedSize sb).onImage image)⟩⟩ := by
  rw [addFile, answer_bind, answer_attempt]
  cases (i.occupiedSize sb).onImage image <;> rfl

section

variable (hdescend : ∀ e i s, (descend i ⟨p.pathTo e, s.count i.type⟩).answer image =
  ⟨p.pathTo e, (below (p.child e i)).foldl record s⟩)
include hdescend

theorem answer_addInode (e : DirectoryEntry) :
    (addInode sb descend e.nid ⟨p.pathTo e, s⟩).answer image =
      ⟨p.pathTo e, (p.findAt image sb below e).foldl record s⟩ := by
  rw [addInode, answer_bind, answer_attempt, findAt]
  cases (Inode.read sb e.nid).onImage image with
  | error cause => rfl
  | ok i =>
    simp only
    split
    · exact answer_addFile i _ _
    · split
      · exact hdescend e i s
      · rfl

/-- At an entry, what is found there is added, and the path is that of the
directory again. -/
theorem answer_addEntry (e : DirectoryEntry) :
    (addEntry sb descend e ⟨p.path, s⟩).answer image =
      ⟨p.path, (p.findAt image sb below e).foldl record s⟩ := by
  have hinode : (addInode sb descend e.nid (enter ⟨p.path, s⟩ e.nameText)).answer image =
      ⟨p.pathTo e, (p.findAt image sb below e).foldl record s⟩ := answer_addInode hdescend e
  rw [addEntry, answer_bind, hinode]
  exact leave_of_enter ..

theorem answer_addEntries (entries : List DirectoryEntry) :
    (addEntries sb descend p.inode.nid p.parent entries ⟨p.path, s⟩).answer image =
      ⟨p.path, ((p.followed entries).flatMap (p.findAt image sb below)).foldl record s⟩ := by
  induction entries generalizing s with
  | nil => rfl
  | cons e rest ih =>
    rw [addEntries]
    by_cases hloop : e.nid = p.inode.nid ∨ e.nid = p.parent
    · rw [if_pos hloop, followed_cons_of_loop hloop]
      exact ih
    · rw [if_neg hloop, followed_cons hloop, List.flatMap_cons, List.foldl_append, answer_bind,
        answer_addEntry hdescend e]
      exact ih

/-- In the blocks of a directory, what is found in them is added. -/
theorem answer_addBlocks {d : Directory} (hd : d.inode = p.inode) (left : Nat) :
    (addBlocks sb descend d p.parent left ⟨p.path, s⟩).answer image =
      ⟨p.path, (p.findIn image sb below (d.contentsFrom image sb left)).foldl record s⟩ := by
  induction left generalizing s with
  | zero => rfl
  | succ left ih =>
    rw [addBlocks, hd, answer_bind, answer_attempt, Directory.contentsFrom]
    cases hload : (d.loadBlock sb (d.blockCount - (left + 1))).onImage image with
    | error cause =>
      rw [Directory.block_of_error hload]
      rfl
    | ok listing =>
      rw [Directory.block_of_ok hload]
      simp only
      rw [answer_bind, answer_addEntries hdescend]
      cases hfault : listing.fault? with
      | some cause =>
        -- the blocks behind a fault are not looked at
        rw [Listing.followedBy_of_fault hfault, findIn_of_fault hfault, List.foldl_append]
        exact answer_reportFailure_bind ..
      | none =>
        rw [findIn_followedBy_of_sound hfault, List.foldl_append]
        exact ih

end

/-- At a directory, all that is found there and below is added. -/
theorem answer_addTree (levels : Nat) (p : Place) (s : Statistics) :
    (addTree sb levels p.depth p.parent p.inode ⟨p.path, s.count p.inode.type⟩).answer image =
      ⟨p.path, (p.findings image sb levels).foldl record s⟩ := by
  induction levels generalizing p s with
  | zero => rfl
  | succ levels ih =>
    rw [addTree, findings, List.foldl_cons]
    cases hd : Directory.ofInode sb p.inode with
    | error cause =>
      rw [Inode.contents, hd]
      exact answer_reportFailure_bind ..
    | ok d =>
      have hinode : d.inode = p.inode := (Directory.of_ofInode hd).1
      rw [Directory.contents_of_ofInode hd]
      exact answer_addBlocks (fun e i s => ih (p.child e i) s) hinode d.blockCount

/-- **A survey** adds what it finds, if it can read the root; else it hands
back the statistics as they were. -/
theorem answer_collect (maxDepth : Nat) (s : Statistics) :
    (s.collect sb maxDepth).answer image =
      match (Inode.read sb sb.root).onImage image with
      | .error cause => (.error cause, s)
      | .ok root => (.ok (), (root.findings image sb maxDepth).foldl record s) := by
  rw [collect, answer_bind, answer_attempt]
  cases (Inode.read sb sb.root).onImage image with
  | error cause => rfl
  | ok root =>
    simp only
    rw [Inode.findings]
    by_cases hdirectory : root.isDirectory
    · have htree :
          (addTree sb (maxDepth + 1) 0 root.nid root ⟨"", s.count root.type⟩).answer image =
            ⟨"", ((Place.root root).findings image sb (maxDepth + 1)).foldl record s⟩ :=
        answer_addTree (maxDepth + 1) (Place.root root) s
      rw [if_pos hdirectory, if_pos hdirectory, answer_bind, htree]
      rfl
    · rw [if_neg hdirectory, if_neg hdirectory]
      rfl

theorem answer_survey (maxDepth : Nat) (s : Statistics) :
    (s.survey sb maxDepth).answer image =
      ((Inode.read sb sb.root).onImage image).map fun root =>
        (root.findings image sb maxDepth).foldl record s := by
  rw [survey, answer_bind, answer_collect]
  cases (Inode.read sb sb.root).onImage image <;> rfl

end Statistics

/-- So the statistics of a survey are those before, with what there is below
the root. -/
theorem Mount.Serves.survey_eq_ok [Lz4.Compressor] {δ : Type} [BlockDevice δ] {m : Mount δ}
    {blockSize : Nat} (hm : m.Serves image blockSize) {s s' : Statistics} :
    (m.survey s).1 = .ok s' ↔ ∃ root, m.readRoot.1 = .ok root ∧
      (root.findings image m.superblock m.options.maxDepth).foldl Statistics.record s = s' := by
  rw [hm.survey_fst, Statistics.answer_survey, hm.readRoot_fst]
  cases (Inode.read m.superblock m.superblock.root).onImage image <;> simp [Except.map]

end Erofs
