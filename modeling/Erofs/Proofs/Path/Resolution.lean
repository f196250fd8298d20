import Erofs.Proofs.Directory.Lookup
import Erofs.Proofs.Path.Components
/-!
# Where paths lead

A path leads from the root through one directory after another, one for
each of its names (`Path.onImage_find`). Every step is a lookup in
what the directory holds, so it is decided by the first entry of the name,
and a step that fails is the last one (`Inode.descend`). A path that goes
on behind a slash leads on from where its front part leads
(`Inode.descend_append`).
-/

namespace Erofs

variable {image : ByteArray} {sb : Superblock}

/-- Where a chain of names leads from an inode. -/
def Inode.descend (image : ByteArray) (sb : Superblock) : Inode → List String → Except Error Inode
  | i, [] => .ok i
  | i, name :: rest =>
    if i.isDirectory then
      ((i.contents image sb).numberOf name.toUTF8).bind fun nid =>
        ((Inode.read sb nid).onImage image).bind fun next => next.descend image sb rest
    else .error .notADirectory

namespace Inode

variable {i : Inode} {name : String} {rest : List String}

theorem descend_of_not_directory (h : ¬ i.isDirectory) :
    i.descend image sb (name :: rest) = .error .notADirectory := if_neg h

theorem descend_cons (h : i.isDirectory) :
    i.descend image sb (name :: rest) =
      ((i.contents image sb).numberOf name.toUTF8).bind fun nid =>
        ((Inode.read sb nid).onImage image).bind fun next => next.descend image sb rest :=
  if_pos h

/-- A chain of names in two parts. -/
theorem descend_append (i : Inode) (front rest : List String) :
    i.descend image sb (front ++ rest) =
      (i.descend image sb front).bind fun next => next.descend image sb rest := by
  induction front generalizing i with
  | nil => rfl
  | cons name front ih =>
    rw [List.cons_append]
    by_cases h : i.isDirectory
    · rw [descend_cons h, descend_cons h]
      cases (i.contents image sb).numberOf name.toUTF8 with
      | error cause => rfl
      | ok nid =>
        simp only [Except.bind]
        cases (Inode.read sb nid).onImage image with
        | error cause => rfl
        | ok next => exact ih next
    · rw [descend_of_not_directory h, descend_of_not_directory h]
      rfl

end Inode

namespace Path

/-- Some steps of a path, one after another. -/
theorem onImage_foldlM_step (names : List String) (i : Inode) :
    (names.foldlM (step sb) i).onImage image = i.descend image sb names := by
  induction names generalizing i with
  | nil => rfl
  | cons name rest ih =>
    rw [List.foldlM_cons, Query.onImage_bind, step]
    by_cases h : i.isDirectory
    · rw [Inode.descend_cons h, if_neg (by simpa using h), Query.onImage_bind,
        Directory.onImage_find]
      cases (i.contents image sb).numberOf name.toUTF8 with
      | error cause => rfl
      | ok nid =>
        simp only [Except.bind]
        rw [Query.onImage_report_bind]
        exact congrArg _ (funext ih)
    · rw [Inode.descend_of_not_directory h, if_pos (by simpa using h), Query.onImage_fail]
      rfl

/-- **Where a path leads** is where its names lead from the root. -/
theorem onImage_find {path : String} (h : path ≠ "") :
    (find sb path).onImage image =
      ((Inode.read sb sb.root).onImage image).bind fun root =>
        root.descend image sb (names path) := by
  have hne : ¬ path.isEmpty := by
    simpa using h
  rw [find, if_neg hne, Query.onImage_bind, components_eq_names]
  exact congrArg _ (funext fun root => onImage_foldlM_step (names path) root)

end Path

/-- A listing that is whole gives out the first entry of a name. -/
theorem Listing.numberOf_of_result {l : Listing} {entries : List DirectoryEntry}
    (h : l.result = .ok entries) (name : ByteArray) :
    l.numberOf name =
      match entries.find? (fun e => e.name == name) with
      | some e => .ok e.nid
      | none => .error .noSuchName := by
  rw [Listing.result_eq_ok.mp h, numberOf]
  cases entries.find? (fun e => e.name == name) <;> rfl

namespace Mount

variable {δ : Type} [BlockDevice δ] {m : Mount δ} {blockSize : Nat}

/-- A mount resolves a path as its image does. -/
theorem Serves.lookup_fst (hm : m.Serves image blockSize) {path : String} (h : path ≠ "") :
    (m.lookup path).1 =
      m.readRoot.1.bind fun root => root.descend image m.superblock (Path.names path) := by
  have hallows : Statistics.Allows Short image m.superblock := allows_of_validate hm.valid
  rw [hm.readRoot_fst, ← Path.onImage_find h]
  exact hm.delivers.ask_fst (Path.reads_find hallows.short hallows.bits_lt path)

/-- **Paths are resolved name by name.** A path leads from the root through
its names, so paths with the same names lead to the same, and a path that
goes on behind a slash leads on from where its front part leads. Nothing is
asked for below a file, and a name that is missing is not found. Each step
gives out what a cursor comes to that goes on until it is at the name, or
the failure to make such a cursor. Where the directory can be listed, that
is the first entry of the name in the list. -/
theorem lookup_spec (hm : m.Serves image blockSize) :
    Error.notADirectory.kind = .invalidInput ∧ Error.noSuchName.kind = .notFound ∧
    (∀ path, path ≠ "" → (m.lookup path).1 =
      m.readRoot.1.bind fun root => root.descend image m.superblock (Path.names path)) ∧
    (∀ path path', path ≠ "" → path' ≠ "" → Path.names path = Path.names path' →
      (m.lookup path).1 = (m.lookup path').1) ∧
    (∀ path rest, path ≠ "" → (m.lookup (path ++ "/" ++ rest)).1 =
      (m.lookup path).1.bind fun i => i.descend image m.superblock (Path.names rest)) ∧
    (∀ i name, match m.cursor i with
      | .error cause => (i.contents image m.superblock).numberOf name = .error cause
      | .ok c => ∀ result, c.Seeks image m.superblock name result ↔
          result = (i.contents image m.superblock).numberOf name) ∧
    ∀ i entries name, (m.listDirectory i).1 = .ok entries →
      (i.contents image m.superblock).numberOf name =
        match entries.find? (fun e => e.name == name) with
        | some e => .ok e.nid
        | none => .error .noSuchName := by
  refine ⟨rfl, rfl, fun path => hm.lookup_fst, ?same, ?append, ?cursor, ?list⟩
  case same =>
    intro path path' hpath hpath' hnames
    rw [hm.lookup_fst hpath, hm.lookup_fst hpath', hnames]
  case append =>
    intro path rest hpath
    have hne : path ++ "/" ++ rest ≠ "" := by
      simp
    rw [hm.lookup_fst hne, hm.lookup_fst hpath, Path.names_append_slash]
    cases m.readRoot.1 with
    | error cause => rfl
    | ok root => exact root.descend_append (Path.names path) (Path.names rest)
  case cursor =>
    intro i name
    rw [Mount.cursor, Inode.contents]
    cases Directory.ofInode m.superblock i with
    | error cause => rfl
    | ok d =>
      intro result
      rw [Cursor.seeks_iff, Cursor.ahead_start]
  case list =>
    intro i entries name hlist
    rw [hm.listDirectory_fst] at hlist
    exact Listing.numberOf_of_result hlist name

/-- A file of the small tree is found under two spellings, and nothing is
found below it. -/
theorem lookup_treeImage :
    ∃ m : Mount MemoryDevice, m.Serves treeImage 512 ∧ (m.lookup "//f/.").1 = .ok treeFile ∧
      (m.lookup "f").1 = .ok treeFile ∧ (m.lookup "f/g").1 = .error .notADirectory := by
  obtain ⟨m, hsuperblock, -, hm⟩ := exists_serves_treeImage 8
  obtain ⟨-, -, hnames, hsame, happend, -⟩ := lookup_spec hm
  have hroot : m.readRoot.1 = .ok treeRoot := hm.readRoot_tree hsuperblock
  have hdescend : treeRoot.descend treeImage (.bare 9 0) ["f"] = .ok treeFile := by
    have hnumber : (⟨treeBlocks.flatten, none⟩ : Listing).numberOf "f".toUTF8 = .ok 4 := by
      decide
    have hread : (Inode.read (.bare 9 0) 4).onImage treeImage = .ok treeFile :=
      onImage_read_treeImage (i := treeFile) (by simp)
    rw [Inode.descend_cons (by decide), contents_treeRoot, hnumber]
    simp only [Except.bind, hread, Inode.descend]
  have hfile : (m.lookup "f").1 = .ok treeFile := by
    have hname : Path.names "f" = ["f"] := by decide
    rw [hnames "f" (by decide), hroot, hname, hsuperblock, Except.bind, hdescend]
  refine ⟨m, hm, ?_, hfile, ?_⟩
  · rw [hsame "//f/." "f" (by decide) (by decide) (by decide), hfile]
  · have hname : Path.names "g" = ["g"] := by decide
    have hpath : "f/g" = "f" ++ "/" ++ "g" := by decide
    rw [hpath, happend "f" "g" (by decide), hfile, hname, Except.bind,
      Inode.descend_of_not_directory (by decide)]

end Mount

end Erofs
