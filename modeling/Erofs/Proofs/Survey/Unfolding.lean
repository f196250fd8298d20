import Erofs.Lz4.Plan
import Erofs.Proofs.Directory.Decoding
import Erofs.Proofs.Survey.Totals
/-!
# Healthy trees

If nothing is wrong with a tree, it unfolds into a forest: the files of each
directory in order, where a subdirectory brings what lies below it
(`Unfolds`). A file with several links is there once for each. The
statistics of the tree are figures of the forest (`Summarises`): a survey
finds every file of it once, and nothing else (`Unfolds.shows`).
-/

-- The zero of a sum is the numeral.
attribute [local instance (high)] Zero.ofOfNat0

namespace Erofs

variable {image : ByteArray} {sb : Superblock}

/-- The files of a directory, in order. -/
inductive Forest where
  | nil
  /-- A file that is neither a regular one nor a directory. -/
  | special (i : Inode) (rest : Forest)
  | regular (file : RegularFile) (rest : Forest)
  | directory (i : Inode) (below rest : Forest)

namespace Forest

/-- The inodes of all files. -/
def inodes : Forest → List Inode
  | nil => []
  | special i rest => i :: rest.inodes
  | regular file rest => file.inode :: rest.inodes
  | directory i below rest => i :: (below.inodes ++ rest.inodes)

/-- All regular files. -/
def regulars : Forest → List RegularFile
  | nil => []
  | special _ rest => rest.regulars
  | regular file rest => file :: rest.regulars
  | directory _ below rest => below.regulars ++ rest.regulars

/-- How deep directories nest. -/
def height : Forest → Nat
  | nil => 0
  | special _ rest | regular _ rest => rest.height
  | directory _ below rest => max (below.height + 1) rest.height

end Forest

/-- The entries of the directory `nid` below `parent` unfold into a forest:
every inode can be read, every directory listed and every regular file
measured. An entry that leads back to its directory or to the one above is
passed over. -/
inductive Unfolds [Lz4.Compressor] (image : ByteArray) (sb : Superblock) :
    (nid parent : Nat) → List DirectoryEntry → Forest → Prop
  | nil {nid parent : Nat} : Unfolds image sb nid parent [] .nil
  | loop {nid parent : Nat} {e : DirectoryEntry} {rest : List DirectoryEntry} {files : Forest} :
      e.nid = nid ∨ e.nid = parent → Unfolds image sb nid parent rest files →
      Unfolds image sb nid parent (e :: rest) files
  | special {nid parent : Nat} {e : DirectoryEntry} {rest : List DirectoryEntry} {files : Forest}
      {i : Inode} : ¬ (e.nid = nid ∨ e.nid = parent) →
      (Inode.read sb e.nid).onImage image = .ok i → ¬ i.isRegular → ¬ i.isDirectory →
      Unfolds image sb nid parent rest files →
      Unfolds image sb nid parent (e :: rest) (.special i files)
  | regular {nid parent : Nat} {e : DirectoryEntry} {rest : List DirectoryEntry} {files : Forest}
      {i : Inode} {occupied : Nat} : ¬ (e.nid = nid ∨ e.nid = parent) →
      (Inode.read sb e.nid).onImage image = .ok i → i.isRegular →
      (i.occupiedSize sb).onImage image = .ok occupied →
      Unfolds image sb nid parent rest files →
      Unfolds image sb nid parent (e :: rest) (.regular ⟨i, occupied⟩ files)
  | directory {nid parent : Nat} {e : DirectoryEntry} {rest entries : List DirectoryEntry}
      {below files : Forest} {i : Inode} : ¬ (e.nid = nid ∨ e.nid = parent) →
      (Inode.read sb e.nid).onImage image = .ok i → i.isDirectory →
      (Directory.list sb i).onImage image = .ok entries →
      Unfolds image sb i.nid nid entries below → Unfolds image sb nid parent rest files →
      Unfolds image sb nid parent (e :: rest) (.directory i below files)

/-- Entries unfold into one forest at most. -/
theorem Unfolds.unique [Lz4.Compressor] {nid parent : Nat} {entries : List DirectoryEntry}
    {files files' : Forest} (h : Unfolds image sb nid parent entries files)
    (h' : Unfolds image sb nid parent entries files') : files = files' := by
  induction h generalizing files' with
  | nil =>
    cases h'
    rfl
  | loop hloop _ ih =>
    cases h' with
    | loop _ hrest => exact ih hrest
    | special hfollowed => exact absurd hloop hfollowed
    | regular hfollowed => exact absurd hloop hfollowed
    | directory hfollowed => exact absurd hloop hfollowed
  -- an entry that is followed leads to one inode, and its type decides the rest
  | special hfollowed hread hregular hdirectory _ ih => cases h' <;> grind
  | regular hfollowed hread hregular hoccupied _ ih =>
    cases h' <;> grind [Inode.not_isRegular_of_isDirectory]
  | directory hfollowed hread hdirectory hlist _ _ ihbelow ih =>
    cases h' <;> grind [Inode.not_isRegular_of_isDirectory]

/-- Findings that show a forest and nothing else, in a directory of some
depth. -/
structure Shows (depth : Nat) (files : Forest) (fs : List Finding) : Prop where
  types : fs.filterMap Finding.type? = files.inodes.map Inode.type
  regulars : fs.filterMap Finding.regular? = files.regulars
  errors : fs.filterMap Finding.error? = []
  maxDepth {n : Nat} : depth ≤ n →
    (fs.filterMap Finding.openedDepth?).foldl max n = max n (depth + files.height)

namespace Shows

variable {depth d : Nat} {path : String} {i : Inode} {file : RegularFile} {files below : Forest}
variable {fs found : List Finding}

theorem nil (depth : Nat) : Shows depth .nil [] where
  types := rfl
  regulars := rfl
  errors := rfl
  maxDepth h := (Nat.max_eq_left h).symm

/-- A file of no size in front of others. -/
theorem special (h : Shows depth files fs) :
    Shows depth (.special i files) (⟨d, path, .special i⟩ :: fs) where
  types := congrArg (i.type :: ·) h.types
  regulars := h.regulars
  errors := h.errors
  maxDepth := h.maxDepth

/-- A regular file in front of others. -/
theorem regular (h : Shows depth files fs) :
    Shows depth (.regular file files)
      (⟨d, path, .regular file.inode (.ok file.occupied)⟩ :: fs) where
  types := congrArg (file.inode.type :: ·) h.types
  regulars := congrArg (file :: ·) h.regulars
  errors := h.errors
  maxDepth := h.maxDepth

/-- A directory, with what is found below it, in front of others. -/
theorem directory (hbelow : Shows (depth + 1) below found) (h : Shows depth files fs) :
    Shows depth (.directory i below files)
      (⟨depth + 1, path, .opened i⟩ :: found ++ fs) where
  types := by
    rw [List.filterMap_append, h.types, Forest.inodes, List.map_cons, List.map_append,
      ← hbelow.types]
    rfl
  regulars := by
    rw [List.filterMap_append, h.regulars, Forest.regulars, ← hbelow.regulars]
    rfl
  errors := by
    rw [List.filterMap_append, h.errors, List.append_nil]
    exact hbelow.errors
  maxDepth {n} hn := by
    -- from the depth of the subdirectory on, `hbelow` says what is reached below it
    have hopened : (⟨depth + 1, path, .opened i⟩ :: found).filterMap Finding.openedDepth? =
        (depth + 1) :: found.filterMap Finding.openedDepth? := rfl
    rw [List.filterMap_append, hopened, List.cons_append, List.foldl_cons, List.foldl_append,
      hbelow.maxDepth (Nat.le_max_right ..), h.maxDepth (by omega), Forest.height]
    omega

end Shows

/-- In a directory that can be listed, there are no findings but at its
entries. -/
theorem Place.findings_of_list [Lz4.Compressor] {p : Place} {levels : Nat}
    {entries : List DirectoryEntry} (h : (Directory.list sb p.inode).onImage image = .ok entries) :
    p.findings image sb (levels + 1) = ⟨p.depth, p.path, .opened p.inode⟩ ::
      (p.followed entries).flatMap (p.findAt image sb (Place.findings image sb levels)) := by
  rw [Directory.onImage_list, Listing.result_eq_ok] at h
  rw [findings, h, findIn_of_sound rfl]

/-- **A survey finds every file of a healthy forest once**, if it may go as
deep as the directories nest. -/
theorem Unfolds.shows [Lz4.Compressor] {nid parent levels : Nat}
    {entries : List DirectoryEntry} {files : Forest} (h : Unfolds image sb nid parent entries files)
    {p : Place} (hnid : p.inode.nid = nid) (hparent : p.parent = parent)
    (hlevels : files.height ≤ levels) :
    Shows p.depth files
      ((p.followed entries).flatMap (p.findAt image sb (Place.findings image sb levels))) := by
  induction h generalizing p levels with
  | nil => exact .nil _
  | loop hloop _ ih =>
    rw [Place.followed_cons_of_loop (by rwa [hnid, hparent])]
    exact ih hnid hparent hlevels
  | special hloop hread hregular hdirectory _ ih =>
    rw [Place.followed_cons (by rwa [hnid, hparent]), List.flatMap_cons, Place.findAt, hread]
    simp only
    rw [if_neg hregular, if_neg hdirectory]
    exact .special (ih hnid hparent hlevels)
  | regular hloop hread hregular hoccupied _ ih =>
    rw [Place.followed_cons (by rwa [hnid, hparent]), List.flatMap_cons, Place.findAt, hread]
    simp only
    rw [if_pos hregular, hoccupied]
    exact .regular (ih hnid hparent hlevels)
  | @directory _ _ e _ _ below files i hloop hread hdirectory hlist _ _ ihbelow ih =>
    rw [Place.followed_cons (by rwa [hnid, hparent]), List.flatMap_cons, Place.findAt, hread]
    simp only
    rw [if_neg (Inode.not_isRegular_of_isDirectory hdirectory), if_pos hdirectory]
    -- one of the levels is for the subdirectory itself
    simp only [Forest.height] at hlevels
    obtain ⟨levels, rfl⟩ : ∃ n, levels = n + 1 := ⟨levels - 1, by omega⟩
    rw [Place.findings_of_list (p := p.child e i) hlist]
    have hbelow := ihbelow (p := p.child e i) rfl hnid (show below.height ≤ levels by omega)
    have hrest := ih hnid hparent (show files.height ≤ levels + 1 by omega)
    exact .directory hbelow hrest

namespace Statistics

/-- Statistics that sum up a tree: its root, a directory, and the files below
that. -/
structure Summarises (s : Statistics) (root : Inode) (files : Forest) : Prop where
  totalFiles : s.totalFiles = (root :: files.inodes).length
  filesOf (t : FileType) : s.filesOf t = (root :: files.inodes).countP (·.type = t)
  logicalSize : s.logicalSize = min (files.regulars.map RegularFile.size).sum (addressLimit - 1)
  occupiedSize :
    s.occupiedSize = min (files.regulars.map RegularFile.occupied).sum (addressLimit - 1)
  compressedFiles : s.compressedFiles = files.regulars.countP (·.inode.isCompressed)
  logicalHistogram (b : Fin 16) :
    s.logicalHistogram[b] = files.regulars.countP (fun file => sizeBucket file.size = b)
  occupiedHistogram (b : Fin 16) :
    s.occupiedHistogram[b] = files.regulars.countP (fun file => sizeBucket file.occupied = b)
  maxDepth : s.maxDepth = files.height
  errors : s.errors = #[]

/-- Findings that show a forest make statistics that sum it up. -/
theorem summarises_of_shows (root : Inode) {files : Forest} {fs : List Finding}
    (h : Shows 0 files fs) :
    Summarises ((⟨0, "", .opened root⟩ :: fs).foldl record empty) root files := by
  have htypes : (⟨0, "", .opened root⟩ :: fs : List Finding).filterMap Finding.type? =
      (root :: files.inodes).map Inode.type := congrArg (root.type :: ·) h.types
  have hregulars : (⟨0, "", .opened root⟩ :: fs : List Finding).filterMap Finding.regular? =
      files.regulars := h.regulars
  constructor
  case totalFiles =>
    rw [totalFiles_foldl, htypes, List.length_map]
    exact Nat.zero_add _
  case filesOf =>
    intro t
    have hzero : empty.filesOf t = 0 := by cases t <;> rfl
    rw [filesOf_foldl, htypes, hzero, Nat.zero_add, List.count, List.countP_map]
    rfl
  case logicalSize =>
    rw [logicalSize_foldl (by decide), hregulars]
    exact congrArg (min · _) (Nat.zero_add _)
  case occupiedSize =>
    rw [occupiedSize_foldl (by decide), hregulars]
    exact congrArg (min · _) (Nat.zero_add _)
  case compressedFiles =>
    rw [compressedFiles_foldl, hregulars]
    exact Nat.zero_add _
  case logicalHistogram =>
    intro b
    rw [logicalHistogram_foldl, hregulars]
    exact (congrArg (· + _) (Vector.getElem_replicate ..)).trans (Nat.zero_add _)
  case occupiedHistogram =>
    intro b
    rw [occupiedHistogram_foldl, hregulars]
    exact (congrArg (· + _) (Vector.getElem_replicate ..)).trans (Nat.zero_add _)
  case maxDepth =>
    rw [maxDepth_foldl]
    exact (h.maxDepth (Nat.le_refl 0)).trans (by omega)
  case errors =>
    refine Array.toList_inj.mp ?_
    rw [errors_foldl]
    exact h.errors

end Statistics

variable {δ : Type} [BlockDevice δ] {m : Mount δ} {blockSize : Nat} {root : Inode}

/-- **The statistics of a healthy tree** are figures of the tree. A survey of
a mounted image starts from nothing. If the root is a directory that can be
listed and its entries unfold into files, with directories that nest no
deeper than is allowed, then the survey succeeds and sums up these files; if
they are fewer than `2 ^ 64` with the root, no counter is exceeded. Of a
root that is no directory the survey counts the type alone. -/
theorem Mount.survey_of_unfolds [Lz4.Compressor] (hm : m.Serves image blockSize)
    (hroot : (Inode.read m.superblock m.superblock.root).onImage image = .ok root) :
    (¬ root.isDirectory → (m.survey .empty).1 = .ok (Statistics.empty.count root.type)) ∧
      ∀ entries files, root.isDirectory →
        (Directory.list m.superblock root).onImage image = .ok entries →
        Unfolds image m.superblock root.nid root.nid entries files →
        files.height ≤ m.options.maxDepth → (root :: files.inodes).length < addressLimit →
        ∃ s, (m.survey .empty).1 = .ok s ∧ s.Summarises root files ∧
          s.totalFiles < addressLimit := by
  have hsurvey : (m.survey .empty).1 = .ok
      ((root.findings image m.superblock m.options.maxDepth).foldl Statistics.record .empty) := by
    rw [hm.survey_fst, Statistics.answer_survey, hroot]
    rfl
  rw [hsurvey, Inode.findings]
  constructor
  · intro hdirectory
    rw [if_neg hdirectory]
    rfl
  · intro entries files hdirectory hlist hunfolds hheight hfew
    have hshows := hunfolds.shows (p := Place.root root) rfl rfl hheight
    have hsummarises := Statistics.summarises_of_shows root hshows
    rw [if_pos hdirectory, Place.findings_of_list (p := Place.root root) hlist]
    exact ⟨_, rfl, hsummarises, hsummarises.totalFiles ▸ hfew⟩

/-- The files below the root of the small tree. -/
def treeFiles : Forest :=
  .directory treeBranch
    (.regular ⟨treePacked, 700⟩ (.regular ⟨treeFile, 100⟩ (.special treePipe .nil)))
    (.regular ⟨treeFile, 100⟩ .nil)

section
attribute [local instance] Lz4.Compressor.greedy

theorem unfolds_treeRoot :
    Unfolds treeImage (.bare 9 0) treeRoot.nid treeRoot.nid treeBlocks.flatten treeFiles := by
  have hlist : (Directory.list (.bare 9 0) treeBranch).onImage treeImage =
      .ok treeBranchEntries := by
    rw [Directory.onImage_list, contents_treeBranch]
    rfl
  have hbelow : Unfolds treeImage (.bare 9 0) treeBranch.nid treeRoot.nid treeBranchEntries
      (.regular ⟨treePacked, 700⟩ (.regular ⟨treeFile, 100⟩ (.special treePipe .nil))) :=
    .loop (by decide) <| .loop (by decide) <|
    .regular (by decide) (onImage_read_treeImage (i := treePacked) (by simp)) rfl
      (by decide +kernel) <|
    .regular (by decide) (onImage_read_treeImage (i := treeFile) (by simp)) rfl rfl <|
    .special (by decide) (onImage_read_treeImage (i := treePipe) (by simp)) (by decide)
      (by decide) .nil
  exact .loop (by decide) <| .loop (by decide) <|
    .directory (by decide) (onImage_read_treeImage (i := treeBranch) (by simp)) rfl hlist hbelow <|
    .regular (by decide) (onImage_read_treeImage (i := treeFile) (by simp)) rfl rfl .nil

theorem survey_treeRoot :
    ∃ (m : Mount MemoryDevice) (s : Statistics), m.Serves treeImage 512 ∧
      (Inode.read m.superblock m.superblock.root).onImage treeImage = .ok treeRoot ∧
      (m.survey .empty).1 = .ok s ∧ s.Summarises treeRoot treeFiles ∧
      s.filesOf .regularFile = 3 ∧ s.logicalSize = 900 ∧ s.maxDepth = 1 := by
  obtain ⟨m, hsuperblock, hdepth, hm⟩ := exists_serves_treeImage 1
  have hroot : (Inode.read m.superblock m.superblock.root).onImage treeImage = .ok treeRoot := by
    rw [hsuperblock]
    exact onImage_read_treeImage (i := treeRoot) (by simp)
  have hlist : (Directory.list m.superblock treeRoot).onImage treeImage =
      .ok treeBlocks.flatten := by
    rw [hsuperblock, Directory.onImage_list, contents_treeRoot]
    rfl
  obtain ⟨s, hs, hsummarises, -⟩ := (Mount.survey_of_unfolds hm hroot).2 _ treeFiles rfl hlist
    (hsuperblock ▸ unfolds_treeRoot) (by rw [hdepth]; decide) (by decide)
  exact ⟨m, s, hm, hroot, hs, hsummarises, hsummarises.filesOf .regularFile,
    hsummarises.logicalSize, hsummarises.maxDepth⟩

end

end Erofs
