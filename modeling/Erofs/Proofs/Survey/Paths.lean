import Erofs.Lz4.Plan
import Erofs.Proofs.Directory.NameSpans
import Erofs.Proofs.Path.Resolution
import Erofs.Proofs.Survey.Limits
import Erofs.Proofs.Text.Lossy
/-!
# Where the failures of a survey lie

A survey keeps every failure with a path. The path is made of the names on
a chain of entries that leads from the root to the number of the failure
(`Chain`), whatever was come to before. If these names can be told apart in
their directories and are text that a path can have (`Link.Plain`), the
path leads along the same chain (`Chain.bind_descend`). So a file whose
inode can be read is found under the path of its failure, and one whose
inode cannot be read fails in the same way (`survey_errors_resolve`).
-/

namespace Erofs

variable {image : ByteArray} {sb : Superblock}

/-! ## Chains of entries -/

/-- An entry of a directory. -/
structure Link where
  directory : Inode
  entry : DirectoryEntry

/-- The name of the entry can be a name of a path, and is the only one of
its kind in the directory. -/
structure Link.Plain (image : ByteArray) (sb : Superblock) (l : Link) : Prop where
  valid : l.entry.name.IsValidUTF8
  no_slash : '/'.toUInt8 ∉ l.entry.name.data.toList
  ne_dot : l.entry.name ≠ ".".toUTF8
  only : (l.directory.contents image sb).entries.filter (fun e => e.name == l.entry.name) =
    [l.entry]

/-- A chain of entries leads from the root to a number, one directory after
another. -/
inductive Chain (image : ByteArray) (sb : Superblock) : List Link → Nat → Prop
  /-- The root itself. -/
  | root : Chain image sb [] sb.root
  /-- One entry more. -/
  | further {links : List Link} {nid : Nat} {i : Inode} {e : DirectoryEntry} :
    Chain image sb links nid → (Inode.read sb nid).onImage image = .ok i → i.isDirectory →
      e ∈ (i.contents image sb).entries → Chain image sb (links ++ [⟨i, e⟩]) e.nid

/-- The names on a chain. -/
def Link.names (links : List Link) : List String := links.map (·.entry.nameText)

/-- The entries of a directory have names. -/
theorem Inode.one_le_size_of_mem {i : Inode} {e : DirectoryEntry}
    (he : e ∈ (i.contents image sb).entries) : 1 ≤ e.name.size := by
  cases hd : Directory.ofInode sb i with
  | error cause =>
    rw [Inode.contents, hd] at he
    cases he
  | ok d =>
    rw [Directory.contents_of_ofInode hd] at he
    have hfront := Directory.contentsFrom_front image sb d (Nat.le_refl _)
    exact Directory.one_le_size_of_mem (hfront.subset he)

namespace Link.Plain

variable {l : Link} (h : l.Plain image sb)
include h

/-- The name as text has the bytes of the name. -/
theorem toUTF8_nameText : l.entry.nameText.toUTF8 = l.entry.name :=
  Text.toUTF8_lossy h.valid

/-- It is a name of paths. -/
theorem isName : Path.IsName l.entry.nameText := by
  have hbytes := h.toUTF8_nameText
  have hmem : l.entry ∈ (l.directory.contents image sb).entries :=
    List.mem_of_mem_filter (h.only ▸ List.mem_singleton_self _)
  have hsize := Inode.one_le_size_of_mem hmem
  refine ⟨?_, ?_, ?_⟩
  · intro hempty
    rw [hempty] at hbytes
    rw [← hbytes] at hsize
    exact absurd hsize (by decide)
  · intro hdot
    rw [hdot] at hbytes
    exact h.ne_dot hbytes.symm
  · intro hslash
    have hencoded : l.entry.name.data.toList =
        l.entry.nameText.toList.flatMap String.utf8EncodeChar := by
      rw [← hbytes, String.toUTF8, ← String.utf8Encode_toList, List.utf8Encode,
        List.toList_data_toByteArray]
    refine h.no_slash ?_
    rw [hencoded]
    exact List.mem_flatMap.mpr ⟨'/', hslash, by decide⟩

/-- A lookup finds the entry. -/
theorem numberOf_eq :
    (l.directory.contents image sb).numberOf l.entry.nameText.toUTF8 = .ok l.entry.nid := by
  have hfind : (l.directory.contents image sb).entries.find? (fun e => e.name == l.entry.name) =
      some l.entry := by
    rw [← List.head?_filter, h.only]
    rfl
  rw [h.toUTF8_nameText, Listing.numberOf, hfind]

end Link.Plain

/-- **A path of plain names leads along its chain.** -/
theorem Chain.bind_descend {links : List Link} {nid : Nat} (h : Chain image sb links nid)
    (hplain : ∀ l ∈ links, l.Plain image sb) :
    (((Inode.read sb sb.root).onImage image).bind fun root =>
      root.descend image sb (Link.names links)) = (Inode.read sb nid).onImage image := by
  induction h with
  | root => cases (Inode.read sb sb.root).onImage image <;> rfl
  | @further links nid i e _ hread hdirectory he ih =>
    have hfront := ih fun l hl => hplain l (List.mem_append_left _ hl)
    have hlast : Link.Plain image sb ⟨i, e⟩ :=
      hplain _ (List.mem_append_right _ List.mem_cons_self)
    rw [hread] at hfront
    have hstep : i.descend image sb [e.nameText] = (Inode.read sb e.nid).onImage image := by
      rw [Inode.descend_cons hdirectory, hlast.numberOf_eq]
      simp only [Except.bind]
      cases (Inode.read sb e.nid).onImage image <;> rfl
    have hnames : Link.names (links ++ [⟨i, e⟩]) = Link.names links ++ [e.nameText] := by
      rw [Link.names, List.map_append]
      rfl
    rw [hnames, ← hstep]
    cases hroot : (Inode.read sb sb.root).onImage image with
    | error cause =>
      rw [hroot] at hfront
      cases hfront
    | ok root =>
      rw [hroot] at hfront
      simp only [Except.bind] at hfront ⊢
      rw [Inode.descend_append, hfront]
      rfl

/-! ## Failures -/

/-- The path of a failure is that of a chain which leads to its number, and
the failure is the one to read the inode there, if that cannot be read. -/
def TreeError.Located (image : ByteArray) (sb : Superblock) (e : TreeError) : Prop :=
  ∃ links, Chain image sb links e.nid ∧ e.path = Path.ofNames (Link.names links) ∧
    ((∃ i, (Inode.read sb e.nid).onImage image = .ok i) ∨
      (Inode.read sb e.nid).onImage image = .error e.cause)

namespace Place

/-- The path of a directory is that of a chain which leads to it. -/
structure Located (image : ByteArray) (sb : Superblock) (p : Place) : Prop where
  exists_chain :
    ∃ links, Chain image sb links p.inode.nid ∧ p.path = Path.ofNames (Link.names links)
  read_eq : (Inode.read sb p.inode.nid).onImage image = .ok p.inode
  isDirectory : p.inode.isDirectory

variable {p : Place} {e : DirectoryEntry}

/-- A root that is a directory lies at the end of the empty chain. -/
theorem located_root {root : Inode} (hroot : (Inode.read sb sb.root).onImage image = .ok root)
    (hdirectory : root.isDirectory) : (Place.root root).Located image sb := by
  have hnid := Inode.nid_of_read hroot
  refine ⟨⟨[], ?_, rfl⟩, ?_, hdirectory⟩
  · rw [Place.root, hnid]
    exact .root
  · rw [Place.root, hnid]
    exact hroot

/-- A failure of a directory lies where the directory does. -/
theorem Located.treeError (h : p.Located image sb) (cause : Error) :
    TreeError.Located image sb ⟨p.inode.nid, p.path, cause⟩ := by
  obtain ⟨links, hchain, hpath⟩ := h.exists_chain
  exact ⟨links, hchain, hpath, .inl ⟨_, h.read_eq⟩⟩

/-- An entry continues the chain. -/
theorem Located.exists_chain_entry (h : p.Located image sb)
    (he : e ∈ (p.inode.contents image sb).entries) :
    ∃ links, Chain image sb links e.nid ∧ p.pathTo e = Path.ofNames (Link.names links) := by
  obtain ⟨links, hchain, hpath⟩ := h.exists_chain
  refine ⟨links ++ [⟨p.inode, e⟩], hchain.further h.read_eq h.isDirectory he, ?_⟩
  rw [pathTo, hpath, Link.names, Link.names, List.map_append, Path.ofNames, Path.ofNames,
    List.foldl_append]
  rfl

/-- So does a subdirectory. -/
theorem Located.child (h : p.Located image sb) (he : e ∈ (p.inode.contents image sb).entries)
    {i : Inode} (hread : (Inode.read sb e.nid).onImage image = .ok i) (hi : i.isDirectory) :
    (p.child e i).Located image sb := by
  have hnid := Inode.nid_of_read hread
  refine ⟨?_, ?_, hi⟩
  · rw [Place.child, hnid]
    exact h.exists_chain_entry he
  · rw [Place.child, hnid]
    exact hread

/-- **Every failure below a directory** lies where its chain leads. -/
theorem located_of_mem_findings [Lz4.Compressor] (levels : Nat) (h : p.Located image sb) :
    ∀ f ∈ p.findings image sb levels, ∀ failure ∈ f.error?, failure.Located image sb := by
  refine findings_induction (P := Located image sb) ?opened ?refused ?stopped ?unread ?regular
    ?special (fun p e i hp he hread hi => hp.child he hread hi) levels h
  case opened =>
    intro p _ failure hfailure
    cases hfailure
  case refused =>
    intro p hp failure hfailure
    cases hfailure
    exact hp.treeError .tooDeep
  case stopped =>
    intro p cause hp failure hfailure
    cases hfailure
    exact hp.treeError cause
  case unread =>
    intro p e cause hp he hread failure hfailure
    obtain ⟨links, hchain, hpath⟩ := hp.exists_chain_entry he
    cases hfailure
    exact ⟨links, hchain, hpath, .inr hread⟩
  case regular =>
    intro p e i hp he hread _ failure hfailure
    obtain ⟨links, hchain, hpath⟩ := hp.exists_chain_entry he
    rw [← Inode.nid_of_read hread] at hchain hread
    unfold Finding.error? at hfailure
    cases hoccupied : (i.occupiedSize sb).onImage image with
    | error cause =>
      rw [hoccupied] at hfailure
      cases hfailure
      exact ⟨links, hchain, hpath, .inl ⟨i, hread⟩⟩
    | ok occupied =>
      rw [hoccupied] at hfailure
      cases hfailure
  case special =>
    intro p e i _ _ _ _ _ failure hfailure
    cases hfailure

end Place

namespace Mount

variable {δ : Type} [BlockDevice δ] {m : Mount δ} {blockSize : Nat}

/-- The failures that a survey adds lie where their paths say. -/
theorem Serves.exists_located [Lz4.Compressor] (hm : m.Serves image blockSize) {s s' : Statistics}
    (h : (m.survey s).1 = .ok s') :
    ∃ failures, s'.errors.toList = s.errors.toList ++ failures ∧
      ∀ e ∈ failures, e.Located image m.superblock := by
  obtain ⟨root, hroot, rfl⟩ := hm.survey_eq_ok.mp h
  rw [hm.readRoot_fst] at hroot
  refine ⟨_, Statistics.errors_foldl, fun e he => ?_⟩
  obtain ⟨f, hf, hfailure⟩ := List.mem_filterMap.mp he
  unfold Inode.findings at hf
  split at hf
  · next hdirectory =>
    have hlocated := Place.located_root hroot hdirectory
    exact Place.located_of_mem_findings _ hlocated f hf e hfailure
  · rw [List.mem_singleton] at hf
    subst hf
    cases hfailure

/-- **The paths of failures are paths that resolve.** Below the root, the
path of a failure that a survey adds is made of the names on a chain of
entries which leads to the number of the failure. If these names are plain,
the path leads to an inode with this number, or, if the failure was to read
this inode, to the same failure; so it does at any time later. -/
theorem survey_errors_resolve [Lz4.Compressor] (hm : m.Serves image blockSize) {s s' : Statistics}
    (h : (m.survey s).1 = .ok s') :
    ∃ failures, s'.errors.toList = s.errors.toList ++ failures ∧
      ∀ e ∈ failures, e.path ≠ "" →
        (∃ links, Chain image m.superblock links e.nid ∧
          e.path = Path.ofNames (Link.names links)) ∧
        ∀ links, Chain image m.superblock links e.nid → e.path = Path.ofNames (Link.names links) →
          (∀ l ∈ links, l.Plain image m.superblock) → ∀ n, m.Becomes n →
            (∃ i, (n.lookup e.path).1 = .ok i ∧ i.nid = e.nid) ∨
              (n.lookup e.path).1 = .error e.cause ∧ (n.readInode e.nid).1 = .error e.cause := by
  obtain ⟨failures, herrors, hlocated⟩ := hm.exists_located h
  refine ⟨failures, herrors, fun e he hne => ?_⟩
  obtain ⟨links, hchain, hpath, hread⟩ := hlocated e he
  refine ⟨⟨links, hchain, hpath⟩, fun links hchain hpath hplain n hn => ?_⟩
  have hserves := hm.of_becomes hn
  have hsuperblock : n.superblock = m.superblock := hn.keeps.2.1
  have hnames : Path.names e.path = Link.names links := by
    rw [hpath]
    refine Path.names_ofNames fun name hname => ?_
    obtain ⟨l, hl, rfl⟩ := List.mem_map.mp hname
    exact (hplain l hl).isName
  have hlookup : (n.lookup e.path).1 = (Inode.read m.superblock e.nid).onImage image := by
    rw [hserves.lookup_fst hne, hserves.readRoot_fst, hnames, hsuperblock]
    exact hchain.bind_descend hplain
  rw [hlookup, hserves.readInode_fst, hsuperblock]
  rcases hread with ⟨i, hi⟩ | hcause
  · exact .inl ⟨i, hi, Inode.nid_of_read hi⟩
  · exact .inr ⟨hcause, hcause⟩

section
attribute [local instance] Lz4.Compressor.greedy

/-- A directory of the small tree that lies too deep is found under the path
of this failure, with the zero in its name. -/
theorem survey_errors_resolve_treeBranch :
    ∃ (m : Mount MemoryDevice) (s : Statistics), m.Serves treeImage 512 ∧
      (m.survey .empty).1 = .ok s ∧ s.errors.toList = [⟨8, treeBranchPlace.path, .tooDeep⟩] ∧
      ∃ i, (m.lookup treeBranchPlace.path).1 = .ok i ∧ i.nid = 8 := by
  obtain ⟨m, hsuperblock, hdepth, hm⟩ := exists_serves_treeImage 0
  have hroot : (Inode.read m.superblock m.superblock.root).onImage treeImage = .ok treeRoot := by
    rw [hsuperblock]
    exact onImage_read_treeImage (i := treeRoot) (by simp)
  have hsurvey : (m.survey .empty).1 = .ok ((treeRoot.findings treeImage m.superblock
      m.options.maxDepth).foldl Statistics.record .empty) :=
    hm.survey_eq_ok.mpr ⟨treeRoot, hm.readRoot_tree hsuperblock, rfl⟩
  obtain ⟨failures, herrors, hresolve⟩ := survey_errors_resolve hm hsurvey
  have hfailures : failures = [⟨8, treeBranchPlace.path, .tooDeep⟩] := by
    have hlimits : Statistics.Limited treeImage m.superblock m.options.maxDepth _ _ _ :=
      Statistics.limited_of_isDirectory (by decide) hroot .empty
    have hlimited := hlimits.errors
    rw [herrors, hsuperblock, hdepth] at hlimited
    obtain ⟨hsubdirectories, hown⟩ := subdirectories_treeRoot
    simp only [Place.placesWithin, Place.placesAt, hsubdirectories, List.flatMap_cons,
      List.flatMap_nil, List.append_nil, hown] at hlimited
    exact List.perm_singleton.mp hlimited
  subst hfailures
  have hcontents : treeRoot.contents treeImage m.superblock = ⟨treeBlocks.flatten, none⟩ := by
    rw [hsuperblock]
    exact contents_treeRoot
  have hchain : Chain treeImage m.superblock [⟨treeRoot, ⟨8, ⟨#[0x64, 0, 0x64]⟩, 2⟩⟩] 8 :=
    Chain.root.further hroot (by decide) (by rw [hcontents]; decide)
  have hplain : Link.Plain treeImage m.superblock ⟨treeRoot, ⟨8, ⟨#[0x64, 0, 0x64]⟩, 2⟩⟩ :=
    { valid := ⟨['d', '\x00', 'd'], by decide⟩
      no_slash := by decide
      ne_dot := by decide
      only := by
        rw [hcontents]
        decide }
  obtain ⟨-, hresolve⟩ := hresolve _ List.mem_cons_self (by decide)
  have hread : (m.readInode 8).1 = .ok treeBranch :=
    hm.readInode_tree hsuperblock (i := treeBranch) (by simp)
  have hresult := hresolve _ hchain (by decide +kernel) (by simpa using hplain) m .refl
  refine ⟨m, _, hm, hsurvey, herrors, hresult.resolve_right ?_⟩
  intro hfailed
  cases hread.symm.trans hfailed.2

end

end Mount

end Erofs
