import Erofs.Proofs.Inode.Reading
import Erofs.Proofs.Survey.Limits
/-!
# What a survey leaves out

A survey of a broken tree counts what it can and records a failure for
what it cannot. Each failure is about one thing: an inode, the data of a
regular file, or a directory (`Incident`). So every entry that is followed
is either counted or a failure to read its inode, and every regular file is
either in the histograms or a failure to measure it
(`Statistics.Balanced`). A directory has one failure at most, and nothing
beside it or above is left out because of it
(`Place.ofDirectories_incidents_perm`).
-/

-- The zero of a sum is the numeral.
attribute [local instance (high)] Zero.ofOfNat0

namespace Erofs

variable {image : ByteArray} {sb : Superblock}

/-! ## Incidents -/

/-- What a failure is about. -/
inductive Trouble where
  /-- An inode that cannot be read. -/
  | inode
  /-- A regular file whose data cannot be measured. -/
  | data
  /-- A directory that lies too deep, or cannot be opened or read to its
  end. -/
  | directory
  deriving DecidableEq

/-- A failure, and what it is about. -/
structure Incident where
  about : Trouble
  error : TreeError
  deriving DecidableEq

namespace Place

section

variable [Lz4.Compressor] (image sb) (p : Place)

/-- The entries of a directory that are followed. -/
def links : List DirectoryEntry := p.followed (p.inode.contents image sb).entries

/-- The failure that is a directory's own, if it is opened. -/
def fault? : Option TreeError :=
  (p.inode.contents image sb).fault?.map fun cause => ⟨p.inode.nid, p.path, cause⟩

/-- The failure of a directory that lies too deep. -/
def tooDeep (p : Place) : TreeError := ⟨p.inode.nid, p.path, .tooDeep⟩

/-- The failures at an entry, if `below` gives those at a subdirectory. -/
def incidentsAt (below : Place → List Incident) (e : DirectoryEntry) : List Incident :=
  match (Inode.read sb e.nid).onImage image with
  | .error cause => [⟨.inode, ⟨e.nid, p.pathTo e, cause⟩⟩]
  | .ok i =>
    if i.isRegular then
      match (i.occupiedSize sb).onImage image with
      | .error cause => [⟨.data, ⟨e.nid, p.pathTo e, cause⟩⟩]
      | .ok _ => []
    else if i.isDirectory then below (p.child e i)
    else []

/-- The failures at a directory and below it: first those at its entries, in
order, and then its own. -/
def incidents : (levels : Nat) → Place → List Incident
  | 0, p => [⟨.directory, p.tooDeep⟩]
  | levels + 1, p =>
    (p.links image sb).flatMap (p.incidentsAt image sb (incidents levels)) ++
      (p.fault? image sb).toList.map (⟨.directory, ·⟩)

end

end Place

namespace Inode

variable [Lz4.Compressor] (image sb) (maxDepth : Nat) (root : Inode)

/-- The failures in a tree, by its root. -/
def incidents : List Incident :=
  if root.isDirectory then (Place.root root).incidents image sb (maxDepth + 1) else []

/-- The directories of a tree that are opened, each as often as it is
reached. -/
def opened : List Place :=
  if root.isDirectory then (Place.root root).placesWithin image sb (maxDepth + 1) else []

/-- The directories of a tree that lie too deep. -/
def refused : List Place :=
  if root.isDirectory then (Place.root root).placesAt image sb (maxDepth + 1) else []

end Inode

/-- Whether a finding is a regular file. -/
def Finding.isRegular (f : Finding) : Bool :=
  match f.found with
  | .regular .. => true
  | _ => false

/-- A failure, and whether it is about a regular file. -/
def Finding.failure? (f : Finding) : Option (TreeError × Bool) :=
  f.error?.map (·, f.isRegular)

/-- The same of an incident. -/
def Incident.failure (incident : Incident) : TreeError × Bool :=
  (incident.error, incident.about = .data)

namespace Place

variable {p : Place} {e : DirectoryEntry}
variable {below : Place → List Finding} {under : Place → List Incident} {levels : Nat}

section

variable [Lz4.Compressor]

/-- **The failures that are found** are the incidents. -/
theorem failures_findAt
    (hbelow : ∀ q, (below q).filterMap Finding.failure? = (under q).map Incident.failure) :
    (p.findAt image sb below e).filterMap Finding.failure? =
      (p.incidentsAt image sb under e).map Incident.failure := by
  unfold findAt incidentsAt
  cases hread : (Inode.read sb e.nid).onImage image with
  | error cause => rfl
  | ok i =>
    simp only
    split
    · have hnid := Inode.nid_of_read hread
      cases (i.occupiedSize sb).onImage image with
      | error cause => rw [← hnid]; rfl
      | ok occupied => rfl
    · split
      · exact hbelow _
      · rfl

theorem failures_findings (image : ByteArray) (sb : Superblock) (levels : Nat) (p : Place) :
    (p.findings image sb levels).filterMap Finding.failure? =
      (p.incidents image sb levels).map Incident.failure := by
  induction levels generalizing p with
  | zero => rfl
  | succ levels ih =>
    rw [findings, incidents, List.filterMap_cons]
    change (p.findIn image sb _ _).filterMap Finding.failure? = _
    rw [findIn, List.filterMap_append, List.map_append, List.filterMap_flatMap, List.map_flatMap,
      funext fun e => failures_findAt ih, fault?]
    cases (p.inode.contents image sb).fault? <;> rfl

end

/-- A subdirectory of a directory that is opened is opened, or lies too
deep. -/
theorem mem_of_mem_subdirectories {p q r : Place} (hp : p ∈ r.placesWithin image sb levels)
    (hq : q ∈ p.subdirectories image sb) :
    q ∈ r.placesWithin image sb levels ∨ q ∈ r.placesAt image sb levels := by
  induction levels generalizing r with
  | zero => cases hp
  | succ levels ih =>
    rw [placesWithin, placesAt]
    rcases List.mem_cons.mp hp with rfl | hp
    · cases levels with
      | zero => exact .inr (List.mem_flatMap.mpr ⟨q, hq, List.mem_singleton_self q⟩)
      | succ levels =>
        exact .inl (List.mem_cons_of_mem _ (List.mem_flatMap.mpr ⟨q, hq, List.mem_cons_self⟩))
    · obtain ⟨child, hchild, hp⟩ := List.mem_flatMap.mp hp
      rcases ih hp with hq | hq
      · exact .inl (List.mem_cons_of_mem _ (List.mem_flatMap.mpr ⟨child, hchild, hq⟩))
      · exact .inr (List.mem_flatMap.mpr ⟨child, hchild, hq⟩)

/-! ## Files and inodes -/

/-- The number of entries that are followed from some directories. -/
def linkCount (image : ByteArray) (sb : Superblock) (places : List Place) : Nat :=
  (places.map fun p => (p.links image sb).length).sum

theorem linkCount_cons (p : Place) (places : List Place) :
    linkCount image sb (p :: places) = (p.links image sb).length + linkCount image sb places := by
  simp [linkCount]

theorem linkCount_append (front back : List Place) :
    linkCount image sb (front ++ back) = linkCount image sb front + linkCount image sb back := by
  simp [linkCount]

/-- The number of files that are counted, and of inodes that cannot be
read. -/
def reached (findings : List Finding) (incidents : List Incident) : Nat :=
  (findings.filterMap Finding.type?).length + incidents.countP (·.about = .inode)

theorem reached_cons {f : Finding} {t : FileType} {fs : List Finding} {incidents : List Incident}
    (h : f.type? = some t) : reached (f :: fs) incidents = 1 + reached fs incidents := by
  simp only [reached, List.filterMap_cons, h, List.length_cons]
  omega

theorem reached_append (findings more : List Finding) (incidents others : List Incident) :
    reached (findings ++ more) (incidents ++ others) =
      reached findings incidents + reached more others := by
  simp only [reached, List.filterMap_append, List.length_append, List.countP_append]
  omega

section

variable [Lz4.Compressor] {within : Place → List Place}
variable (hbelow : ∀ q, reached (below q) (under q) = 1 + linkCount image sb (within q))
include hbelow

/-- An entry is one file or one failure, besides what lies below it. -/
theorem reached_findAt (p : Place) (e : DirectoryEntry) :
    reached (p.findAt image sb below e) (p.incidentsAt image sb under e) =
      1 + linkCount image sb ((p.subdirectoryAt? image sb e).toList.flatMap within) := by
  unfold findAt incidentsAt subdirectoryAt?
  cases (Inode.read sb e.nid).onImage image with
  | error cause => rfl
  | ok i =>
    simp only
    by_cases hdirectory : i.isDirectory
    · simp [hdirectory, Inode.not_isRegular_of_isDirectory hdirectory, hbelow]
    · rw [if_neg hdirectory, if_neg hdirectory, if_neg hdirectory]
      by_cases hregular : i.isRegular
      · rw [if_pos hregular, if_pos hregular]
        cases (i.occupiedSize sb).onImage image <;> rfl
      · rw [if_neg hregular, if_neg hregular]
        rfl

theorem reached_flatMap (p : Place) (entries : List DirectoryEntry) :
    reached (entries.flatMap (p.findAt image sb below))
        (entries.flatMap (p.incidentsAt image sb under)) =
      entries.length +
        linkCount image sb ((entries.filterMap (p.subdirectoryAt? image sb)).flatMap within) := by
  induction entries with
  | nil => rfl
  | cons e rest ih =>
    have hentry := reached_findAt hbelow p e
    rw [List.flatMap_cons, List.flatMap_cons, reached_append, ih, hentry, List.length_cons,
      List.filterMap_eq_flatMap_toList, List.filterMap_eq_flatMap_toList, List.flatMap_cons,
      List.flatMap_append, linkCount_append]
    omega

end

/-- **Every entry that is followed** is a file or a failure to read its
inode. -/
theorem reached_findings [Lz4.Compressor] (image : ByteArray) (sb : Superblock) (levels : Nat)
    (p : Place) :
    reached (p.findings image sb levels) (p.incidents image sb levels) =
      1 + linkCount image sb (p.placesWithin image sb levels) := by
  induction levels generalizing p with
  | zero => rfl
  | succ levels ih =>
    have hentries := reached_flatMap ih p (p.links image sb)
    have hfault : reached
        ((p.inode.contents image sb).fault?.toList.map fun cause =>
          ⟨p.depth, p.path, .failure p.inode.nid cause⟩)
        ((p.fault? image sb).toList.map (⟨.directory, ·⟩)) = 0 := by
      rw [fault?]
      cases (p.inode.contents image sb).fault? <;> rfl
    rw [findings, incidents, findIn, placesWithin, subdirectories, linkCount_cons]
    change reached (_ :: ((p.links image sb).flatMap _ ++ _)) _ =
      1 + (_ + linkCount image sb (((p.links image sb).filterMap _).flatMap _))
    rw [reached_cons rfl, reached_append, hentries, hfault]
    omega

/-! ## Failures of directories -/

/-- The failures that are about directories. -/
def ofDirectories (incidents : List Incident) : List TreeError :=
  (incidents.filter (·.about = .directory)).map Incident.error

theorem ofDirectories_append (front back : List Incident) :
    ofDirectories (front ++ back) = ofDirectories front ++ ofDirectories back := by
  rw [ofDirectories, List.filter_append, List.map_append]
  rfl

/-- An entry has such failures only below a subdirectory. -/
theorem ofDirectories_incidentsAt [Lz4.Compressor] (p : Place) (e : DirectoryEntry) :
    ofDirectories (p.incidentsAt image sb under e) =
      (p.subdirectoryAt? image sb e).toList.flatMap fun q => ofDirectories (under q) := by
  unfold incidentsAt subdirectoryAt?
  cases (Inode.read sb e.nid).onImage image with
  | error cause => rfl
  | ok i =>
    simp only
    by_cases hdirectory : i.isDirectory
    · simp [hdirectory, Inode.not_isRegular_of_isDirectory hdirectory]
    · rw [if_neg hdirectory, if_neg hdirectory]
      by_cases hregular : i.isRegular
      · rw [if_pos hregular]
        cases (i.occupiedSize sb).onImage image <;> rfl
      · rw [if_neg hregular]
        rfl

theorem ofDirectories_flatMap [Lz4.Compressor] (p : Place) (entries : List DirectoryEntry) :
    ofDirectories (entries.flatMap (p.incidentsAt image sb under)) =
      (entries.filterMap (p.subdirectoryAt? image sb)).flatMap fun q =>
        ofDirectories (under q) := by
  rw [List.filterMap_eq_flatMap_toList, List.flatMap_assoc]
  induction entries with
  | nil => rfl
  | cons e rest ih =>
    rw [List.flatMap_cons, ofDirectories_append, ih, ofDirectories_incidentsAt, List.flatMap_cons]

/-- **A directory has one failure at most**, each time that it is
reached. -/
theorem ofDirectories_incidents_perm [Lz4.Compressor] (image : ByteArray) (sb : Superblock)
    (levels : Nat)
    (p : Place) :
    (ofDirectories (p.incidents image sb levels)).Perm
      ((p.placesWithin image sb levels).filterMap (fault? image sb) ++
        (p.placesAt image sb levels).map tooDeep) := by
  induction levels generalizing p with
  | zero => exact .refl _
  | succ levels ih =>
    have hown : ofDirectories ((p.fault? image sb).toList.map (⟨.directory, ·⟩)) =
        (p.fault? image sb).toList := by
      cases p.fault? image sb <;> rfl
    have hbelow : ((p.subdirectories image sb).flatMap fun q =>
        ofDirectories (q.incidents image sb levels)).Perm
          (((p.subdirectories image sb).flatMap (placesWithin image sb levels)).filterMap
              (fault? image sb) ++
            ((p.subdirectories image sb).flatMap (placesAt image sb levels)).map tooDeep) := by
      rw [List.filterMap_flatMap, List.map_flatMap]
      exact (List.Perm.flatMap_left _ fun q _ => ih q).trans (List.flatMap_append_perm ..).symm
    have hwithin : (p.placesWithin image sb (levels + 1)).filterMap (fault? image sb) =
        (p.fault? image sb).toList ++
          ((p.subdirectories image sb).flatMap (placesWithin image sb levels)).filterMap
            (fault? image sb) := by
      rw [placesWithin, List.filterMap_cons]
      cases p.fault? image sb <;> rfl
    rw [incidents, ofDirectories_append, ofDirectories_flatMap, hown, hwithin, placesAt,
      List.append_assoc]
    exact List.perm_append_comm.trans (hbelow.append_left _)

end Place

/-! ## Regular files -/

/-- A finding has a file of the type that it is about. -/
def Finding.Sound (f : Finding) : Prop :=
  match f.found with
  | .opened i | .refused i => i.type = .directory
  | .regular i _ => i.type = .regularFile
  | .special i => i.type ≠ .regularFile ∧ i.type ≠ .unknown
  | .failure .. => True

/-- No inode that is read is of an unknown type. -/
theorem Inode.type_ne_unknown {nid : Nat} {i : Inode}
    (h : (Inode.read sb nid).onImage image = .ok i) : i.type ≠ .unknown :=
  (FileType.ofMode?_eq_some_iff.mp (Inode.onImage_read_eq_ok.mp h).2.recordable.type_eq).1

/-- **The types of files that are found** are those that they are found
as. -/
theorem Place.sound_of_mem_findings [Lz4.Compressor] {p : Place} (levels : Nat)
    (hp : p.inode.type = .directory) :
    ∀ f ∈ p.findings image sb levels, f.Sound := by
  refine findings_induction (P := fun p => p.inode.type = .directory) (fun p hp => hp)
    (fun p hp => hp) (fun p cause hp => trivial) (fun p e cause hp he hread => trivial) ?regular
    ?special ?child levels hp
  case regular =>
    intro p e i _ _ _ hregular
    exact beq_iff_eq.mp hregular
  case special =>
    intro p e i _ _ hread hregular _
    exact ⟨mt beq_iff_eq.mpr hregular, Inode.type_ne_unknown hread⟩
  case child =>
    intro p e i _ _ _ hdirectory
    exact beq_iff_eq.mp hdirectory

namespace Finding

variable {fs : List Finding}

theorem count_unknown (h : ∀ f ∈ fs, f.Sound) : (fs.filterMap type?).count .unknown = 0 := by
  rw [List.count_eq_zero]
  intro hmem
  obtain ⟨f, hf, htype⟩ := List.mem_filterMap.mp hmem
  have hsound := h f hf
  rcases f with ⟨depth, path, i | i | ⟨i, occupied⟩ | i | ⟨nid, cause⟩⟩
  all_goals simp only [type?, Option.some.injEq, reduceCtorEq] at htype
  all_goals simp [Sound, htype] at hsound

/-- A regular file is measured, or is a failure. -/
theorem count_regularFile (h : ∀ f ∈ fs, f.Sound) :
    (fs.filterMap type?).count .regularFile =
      (fs.filterMap regular?).length + (fs.filterMap failure?).countP (·.2) := by
  induction fs with
  | nil => rfl
  | cons f rest ih =>
    have hrest := ih fun g hg => h g (List.mem_cons_of_mem _ hg)
    have hsound := h f List.mem_cons_self
    rw [List.filterMap_cons, List.filterMap_cons, List.filterMap_cons]
    rcases f with ⟨depth, path, i | i | ⟨i, cause | occupied⟩ | i | ⟨nid, cause⟩⟩
    all_goals simp only [Sound] at hsound
    all_goals simp [type?, regular?, failure?, error?, isRegular, hsound, hrest]
    all_goals omega

theorem filterMap_error? (fs : List Finding) :
    fs.filterMap error? = (fs.filterMap failure?).map Prod.fst := by
  rw [List.map_filterMap]
  refine List.filterMap_congr fun f _ => ?_
  cases h : f.error? <;> simp [failure?, h]

end Finding

/-! ## The balance -/

namespace Statistics

variable {s : Statistics} {fs : List Finding}

theorem sum_logicalHistogram_foldl :
    (fs.foldl record s).logicalHistogram.sum =
      s.logicalHistogram.sum + (fs.filterMap Finding.regular?).length := by
  rw [← List.countP_true, ← foldl_count]
  exact foldl_record_regular (·.logicalHistogram.sum) (fun _ _ => rfl) (fun _ _ => rfl)
    (fun _ _ => rfl) fun s file => sum_buckets_set s.logicalHistogram _

theorem sum_occupiedHistogram_foldl :
    (fs.foldl record s).occupiedHistogram.sum =
      s.occupiedHistogram.sum + (fs.filterMap Finding.regular?).length := by
  rw [← List.countP_true, ← foldl_count]
  exact foldl_record_regular (·.occupiedHistogram.sum) (fun _ _ => rfl) (fun _ _ => rfl)
    (fun _ _ => rfl) fun s file => sum_buckets_set s.occupiedHistogram _

/-- The statistics of one tree balance: what is not counted is a failure. -/
structure Balanced [Lz4.Compressor] (image : ByteArray) (sb : Superblock) (maxDepth : Nat)
    (root : Inode) (s : Statistics) : Prop where
  /-- The failures are those of the tree, each directory's own behind those at
  its entries. -/
  errors_eq : s.errors.toList = (root.incidents image sb maxDepth).map Incident.error
  /-- Every entry that is followed is a file or an inode that cannot be
  read. -/
  totalFiles_add : s.totalFiles + (root.incidents image sb maxDepth).countP (·.about = .inode) =
    1 + ((root.opened image sb maxDepth).map fun p => (p.links image sb).length).sum
  unknown_eq : s.filesOf .unknown = 0
  histograms_eq : s.logicalHistogram.sum = s.occupiedHistogram.sum
  /-- Every regular file is in the histograms or cannot be measured; a root is
  only counted. -/
  regularFiles_eq : s.logicalHistogram.sum +
      (root.incidents image sb maxDepth).countP (·.about = .data) +
      (if root.isRegular then 1 else 0) = s.filesOf .regularFile
  compressedFiles_le : s.compressedFiles ≤ s.logicalHistogram.sum
  /-- A directory has one failure at most, each time that it is reached. -/
  directories_perm : (Place.ofDirectories (root.incidents image sb maxDepth)).Perm
    ((root.opened image sb maxDepth).filterMap (Place.fault? image sb) ++
      (root.refused image sb maxDepth).map Place.tooDeep)
  /-- No subdirectory is left out, whatever its neighbours are. -/
  mem_of_mem_subdirectories {p q : Place} : p ∈ root.opened image sb maxDepth →
    q ∈ p.subdirectories image sb →
      q ∈ root.opened image sb maxDepth ∨ q ∈ root.refused image sb maxDepth

/-- What is found below a directory balances. -/
theorem balanced_of_isDirectory [Lz4.Compressor] {root : Inode} {maxDepth : Nat}
    (hdirectory : root.isDirectory) :
    Balanced image sb maxDepth root ((root.findings image sb maxDepth).foldl record .empty) := by
  have htype : root.type = .directory := by
    simpa [Inode.isDirectory] using hdirectory
  have hregular : ¬ root.isRegular := Inode.not_isRegular_of_isDirectory hdirectory
  have hfindings : root.findings image sb maxDepth =
      (Place.root root).findings image sb (maxDepth + 1) := if_pos hdirectory
  have hincidents : root.incidents image sb maxDepth =
      (Place.root root).incidents image sb (maxDepth + 1) := if_pos hdirectory
  have hopened : root.opened image sb maxDepth =
      (Place.root root).placesWithin image sb (maxDepth + 1) := if_pos hdirectory
  have hrefused : root.refused image sb maxDepth =
      (Place.root root).placesAt image sb (maxDepth + 1) := if_pos hdirectory
  have hfailures := Place.failures_findings image sb (maxDepth + 1) (Place.root root)
  have hsound : ∀ f ∈ (Place.root root).findings image sb (maxDepth + 1), f.Sound :=
    Place.sound_of_mem_findings _ htype
  have hreached := Place.reached_findings image sb (maxDepth + 1) (Place.root root)
  rw [← hfindings] at hfailures hsound hreached
  rw [← hincidents] at hfailures hreached
  rw [← hopened] at hreached
  refine ⟨?errors, ?totalFiles, ?unknown, ?histograms, ?regularFiles, ?compressedFiles,
    ?directories, ?subdirectories⟩
  case errors =>
    rw [errors_foldl, Finding.filterMap_error?, hfailures, List.map_map]
    rfl
  case totalFiles =>
    have hempty : Statistics.empty.totalFiles = 0 := by decide
    rw [totalFiles_foldl, hempty, Nat.zero_add]
    exact hreached
  case unknown =>
    rw [filesOf_foldl, Finding.count_unknown hsound]
    decide
  case histograms =>
    rw [sum_logicalHistogram_foldl, sum_occupiedHistogram_foldl]
    rfl
  case regularFiles =>
    have hempty : Statistics.empty.filesOf .regularFile = 0 := by decide
    have hsum : Statistics.empty.logicalHistogram.sum = 0 := by decide
    have hdata : ((root.findings image sb maxDepth).filterMap Finding.failure?).countP (·.2) =
        (root.incidents image sb maxDepth).countP (·.about = .data) := by
      rw [hfailures, List.countP_map]
      rfl
    rw [filesOf_foldl, Finding.count_regularFile hsound, hdata, sum_logicalHistogram_foldl, hempty,
      hsum, if_neg hregular]
    omega
  case compressedFiles =>
    rw [compressedFiles_foldl, sum_logicalHistogram_foldl]
    exact Nat.add_le_add (by decide) (List.countP_le_length)
  case directories =>
    rw [hincidents, hopened, hrefused]
    exact Place.ofDirectories_incidents_perm image sb (maxDepth + 1) (Place.root root)
  case subdirectories =>
    rw [hopened, hrefused]
    exact Place.mem_of_mem_subdirectories

/-- So does a root that is no directory. -/
theorem balanced_of_not_isDirectory [Lz4.Compressor] {root : Inode} {maxDepth : Nat}
    (hroot : (Inode.read sb sb.root).onImage image = .ok root) (hdirectory : ¬ root.isDirectory) :
    Balanced image sb maxDepth root ((root.findings image sb maxDepth).foldl record .empty) := by
  have hfindings : root.findings image sb maxDepth = [⟨0, "", .special root⟩] :=
    if_neg hdirectory
  have hincidents : root.incidents image sb maxDepth = [] := if_neg hdirectory
  have hopened : root.opened image sb maxDepth = [] := if_neg hdirectory
  have hrefused : root.refused image sb maxDepth = [] := if_neg hdirectory
  have hcounted : (root.findings image sb maxDepth).foldl record .empty =
      Statistics.empty.count root.type := by
    rw [hfindings]
    rfl
  rw [hcounted]
  refine ⟨?errors, ?totalFiles, ?unknown, rfl, ?regularFiles, Nat.zero_le _, ?directories,
    ?subdirectories⟩
  case errors =>
    rw [hincidents]
    rfl
  case totalFiles =>
    rw [hincidents, hopened, totalFiles_count]
    rfl
  case unknown =>
    rw [filesOf_count, if_neg (Inode.type_ne_unknown hroot)]
    decide
  case regularFiles =>
    have hsum : (Statistics.empty.count root.type).logicalHistogram.sum = 0 := by
      change Statistics.empty.logicalHistogram.sum = 0
      decide
    have hempty : Statistics.empty.filesOf .regularFile = 0 := by decide
    rw [hincidents, filesOf_count, hsum, hempty]
    simp only [Inode.isRegular, beq_iff_eq, List.countP_nil, Nat.zero_add]
  case directories =>
    rw [hincidents, hopened, hrefused]
    exact .refl _
  case subdirectories =>
    rw [hopened]
    intro p q hp
    cases hp

end Statistics

namespace Mount

variable {δ : Type} [BlockDevice δ] {m : Mount δ} {blockSize : Nat}

/-- **Nothing is lost or counted twice** when a part of the tree is broken:
statistics that hold one tree balance, whatever fails in it. -/
theorem survey_balanced [Lz4.Compressor] (hm : m.Serves image blockSize) {s : Statistics}
    (h : (m.survey .empty).1 = .ok s) :
    ∃ root, m.readRoot.1 = .ok root ∧
      Statistics.Balanced image m.superblock m.options.maxDepth root s := by
  obtain ⟨root, hroot, rfl⟩ := hm.survey_eq_ok.mp h
  refine ⟨root, hroot, ?_⟩
  rw [hm.readRoot_fst] at hroot
  by_cases hdirectory : root.isDirectory
  · exact Statistics.balanced_of_isDirectory hdirectory
  · exact Statistics.balanced_of_not_isDirectory hroot hdirectory

section
attribute [local instance] Lz4.Compressor.greedy

/-- If the subdirectory of the small tree lies too deep, three files are
counted: the root, the subdirectory and the file beside it. -/
theorem survey_balanced_treeRoot :
    ∃ (m : Mount MemoryDevice) (s : Statistics), m.Serves treeImage 512 ∧
      (m.survey .empty).1 = .ok s ∧ s.totalFiles = 3 := by
  obtain ⟨m, hsuperblock, hdepth, hm⟩ := exists_serves_treeImage 0
  have hroot := hm.readRoot_tree hsuperblock
  obtain ⟨s, hsurvey⟩ : ∃ s, (m.survey .empty).1 = .ok s :=
    ⟨_, hm.survey_eq_ok.mpr ⟨treeRoot, hroot, rfl⟩⟩
  obtain ⟨root, hreadRoot, hbalanced⟩ := survey_balanced hm hsurvey
  obtain rfl : treeRoot = root := by
    cases hroot.symm.trans hreadRoot
    rfl
  have htotal := hbalanced.totalFiles_add
  rw [hsuperblock, hdepth] at htotal
  have hcontents : (Place.root treeRoot).inode.contents treeImage (.bare 9 0) =
      ⟨treeBlocks.flatten, none⟩ := contents_treeRoot
  have hlinks : (Place.root treeRoot).links treeImage (.bare 9 0) =
      [⟨8, ⟨#[0x64, 0, 0x64]⟩, 2⟩, ⟨4, ⟨#[0x66]⟩, 1⟩] := by
    rw [Place.links, hcontents]
    decide
  have hopened : treeRoot.opened treeImage (.bare 9 0) 0 = [Place.root treeRoot] := by
    rw [Inode.opened, if_pos (by decide), Place.placesWithin, subdirectories_treeRoot.1]
    rfl
  have hincidents : treeRoot.incidents treeImage (.bare 9 0) 0 =
      [⟨.directory, treeBranchPlace.tooDeep⟩] := by
    have hbranch : (Inode.read (.bare 9 0) 8).onImage treeImage = .ok treeBranch :=
      onImage_read_treeImage (i := treeBranch) (by simp)
    have hfile : (Inode.read (.bare 9 0) 4).onImage treeImage = .ok treeFile :=
      onImage_read_treeImage (i := treeFile) (by simp)
    have hbranchAt : (Place.root treeRoot).incidentsAt treeImage (.bare 9 0)
        (Place.incidents treeImage (.bare 9 0) 0) ⟨8, ⟨#[0x64, 0, 0x64]⟩, 2⟩ =
          [⟨.directory, treeBranchPlace.tooDeep⟩] := by
      rw [Place.incidentsAt, hbranch]
      rfl
    have hfileAt : (Place.root treeRoot).incidentsAt treeImage (.bare 9 0)
        (Place.incidents treeImage (.bare 9 0) 0) ⟨4, ⟨#[0x66]⟩, 1⟩ = [] := by
      rw [Place.incidentsAt, hfile]
      rfl
    have hfault : (Place.root treeRoot).fault? treeImage (.bare 9 0) = none := by
      rw [Place.fault?, hcontents]
      rfl
    rw [Inode.incidents, if_pos (by decide), Place.incidents, hlinks, List.flatMap_cons,
      List.flatMap_singleton, hbranchAt, hfileAt, hfault]
    rfl
  rw [hopened, hincidents, List.map_singleton, hlinks] at htotal
  exact ⟨m, s, hm, hsurvey, htotal⟩

end

end Mount

end Erofs
