import Mathlib.Data.List.Perm.Basic
import Erofs.Lz4.Plan
import Erofs.Proofs.Directory.Decoding
import Erofs.Proofs.Survey.Effort
import Erofs.Proofs.Survey.Totals
/-!
# How far a survey goes

Directories may form cycles or share subdirectories, so a tree may have no
end. `Place.placesAt` lists the directories that are reached a number of
levels below another, each as often as it is reached, and
`Place.placesWithin` those on the levels before. A survey finds what is in
the directories within its limit, and of those one level deeper nothing but
that they lie too deep (`findings_perm`). All that it reads belongs to
these findings (`readsOn_survey_subset`).
-/

namespace Erofs

variable {image : ByteArray} {sb : Superblock}

/-! ## Directories by their level -/

namespace Place

section

variable [Lz4.Compressor] (image sb) (p : Place)

/-- The subdirectory that an entry leads to, if it leads to one. -/
def subdirectoryAt? (e : DirectoryEntry) : Option Place :=
  match (Inode.read sb e.nid).onImage image with
  | .error _ => none
  | .ok i => if i.isDirectory then some (p.child e i) else none

/-- The subdirectories that are followed, in order. -/
def subdirectories : List Place :=
  (p.followed (p.inode.contents image sb).entries).filterMap (p.subdirectoryAt? image sb)

/-- The directories that are reached a number of levels below. -/
def placesAt : (level : Nat) → Place → List Place
  | 0, p => [p]
  | level + 1, p => (p.subdirectories image sb).flatMap (placesAt level)

/-- The directories that are reached on the first levels, that of the
directory itself included. -/
def placesWithin : (levels : Nat) → Place → List Place
  | 0, _ => []
  | levels + 1, p => p :: (p.subdirectories image sb).flatMap (placesWithin levels)

/-- What is found in a directory itself: that it is opened, its entries other
than subdirectories, and its fault. -/
def ownFindings : List Finding :=
  ⟨p.depth, p.path, .opened p.inode⟩ ::
    p.findIn image sb (fun _ => []) (p.inode.contents image sb)

end

/-- That a directory lies too deep. -/
def refusal (p : Place) : Finding := ⟨p.depth, p.path, .refused p.inode⟩

variable {p q : Place} {below : Place → List Finding} {level levels : Nat}

theorem depth_of_mem_subdirectories (h : q ∈ p.subdirectories image sb) :
    q.depth = p.depth + 1 := by
  obtain ⟨e, -, he⟩ := List.mem_filterMap.mp h
  unfold subdirectoryAt? at he
  grind [child]

theorem depth_of_mem_placesAt (h : q ∈ p.placesAt image sb level) : q.depth = p.depth + level := by
  induction level generalizing p with
  | zero =>
    rw [placesAt, List.mem_singleton] at h
    rw [h, Nat.add_zero]
  | succ level ih =>
    obtain ⟨child, hchild, hq⟩ := List.mem_flatMap.mp h
    have hdepth := depth_of_mem_subdirectories hchild
    have hlevel := ih hq
    omega

theorem depth_of_mem_placesWithin (h : q ∈ p.placesWithin image sb levels) :
    q.depth < p.depth + levels := by
  induction levels generalizing p with
  | zero => cases h
  | succ levels ih =>
    rcases List.mem_cons.mp h with rfl | h
    · omega
    · obtain ⟨child, hchild, hq⟩ := List.mem_flatMap.mp h
      have hdepth := depth_of_mem_subdirectories hchild
      have hlevel := ih hq
      omega

/-! ## Findings by directory -/

variable [Lz4.Compressor]

/-- An entry is a file of the directory or leads to a subdirectory. -/
theorem findAt_eq (e : DirectoryEntry) :
    p.findAt image sb below e = p.findAt image sb (fun _ => []) e ++
      (p.subdirectoryAt? image sb e).toList.flatMap below := by
  unfold findAt subdirectoryAt?
  cases (Inode.read sb e.nid).onImage image with
  | error cause => rfl
  | ok i =>
    by_cases hdirectory : i.isDirectory
    · simp [hdirectory, Inode.not_isRegular_of_isDirectory hdirectory]
    · simp [hdirectory]

/-- What is found in the subdirectories may come last. -/
theorem findIn_perm (l : Listing) :
    (p.findIn image sb below l).Perm (p.findIn image sb (fun _ => []) l ++
      ((p.followed l.entries).filterMap (p.subdirectoryAt? image sb)).flatMap below) := by
  have hentries : ((p.followed l.entries).flatMap (p.findAt image sb below)).Perm
      ((p.followed l.entries).flatMap (p.findAt image sb (fun _ => [])) ++
        ((p.followed l.entries).filterMap (p.subdirectoryAt? image sb)).flatMap below) := by
    rw [List.filterMap_eq_flatMap_toList, List.flatMap_assoc, funext findAt_eq]
    exact (List.flatMap_append_perm ..).symm
  rw [findIn, findIn, List.append_assoc]
  refine (hentries.append_right _).trans ?_
  rw [List.append_assoc]
  exact List.perm_append_comm.append_left _

/-- **The findings of a survey** are, in some order, those in every directory
within the limit and a refusal for every directory one level deeper. -/
theorem findings_perm (image : ByteArray) (sb : Superblock) (levels : Nat) (p : Place) :
    (p.findings image sb levels).Perm
      ((p.placesWithin image sb levels).flatMap (ownFindings image sb) ++
        (p.placesAt image sb levels).map refusal) := by
  induction levels generalizing p with
  | zero => exact .refl _
  | succ levels ih =>
    rw [findings, placesWithin, List.flatMap_cons, ownFindings, List.append_assoc]
    refine ((findIn_perm _).trans ?_).cons _
    refine List.Perm.append_left _ ?_
    -- the findings below each subdirectory come in two parts; all first parts may go in front
    refine (List.Perm.flatMap_left _ fun q _ => ih q).trans ?_
    refine (List.flatMap_append_perm ..).symm.trans ?_
    rw [placesAt, List.flatMap_assoc, List.map_flatMap]
    exact .refl _

/-- Of what is found in a directory itself, it alone is opened. -/
theorem filterMap_openedDepth?_ownFindings (p : Place) :
    (p.ownFindings image sb).filterMap Finding.openedDepth? = [p.depth] := by
  have hnone : (p.findIn image sb (fun _ => []) (p.inode.contents image sb)).filterMap
      Finding.openedDepth? = [] := by
    rw [List.filterMap_eq_nil_iff]
    intro f hf
    rcases List.mem_append.mp hf with hf | hf
    · obtain ⟨e, -, hf⟩ := List.mem_flatMap.mp hf
      unfold findAt at hf
      grind [Finding.openedDepth?]
    · obtain ⟨cause, -, rfl⟩ := List.mem_map.mp hf
      rfl
  rw [ownFindings]
  exact congrArg (p.depth :: ·) hnone

/-- The directories that are opened are those within the limit. -/
theorem openedDepths_perm (image : ByteArray) (sb : Superblock) (levels : Nat) (p : Place) :
    ((p.findings image sb levels).filterMap Finding.openedDepth?).Perm
      ((p.placesWithin image sb levels).map depth) := by
  have hrefused :
      ((p.placesAt image sb levels).map refusal).filterMap Finding.openedDepth? = [] := by
    rw [List.filterMap_eq_nil_iff]
    intro f hf
    obtain ⟨q, -, rfl⟩ := List.mem_map.mp hf
    rfl
  refine ((findings_perm image sb levels p).filterMap _).trans ?_
  rw [List.filterMap_append, hrefused, List.append_nil, List.filterMap_flatMap,
    funext filterMap_openedDepth?_ownFindings, ← List.map_eq_flatMap]

end Place

/-! ## What is read -/

/-- The reads that a session makes on an image. -/
def Session.readsOn {α : Type} (image : ByteArray) : Session α → List (Route × Nat × Nat)
  | done _ => []
  | note _ rest => rest.readsOn image
  | read route offset length rest =>
    (route, offset, length) :: (rest (imageRange image offset length)).readsOn image

/-- The reads that a query makes on an image. -/
def Query.readsOn {α : Type} (image : ByteArray) (q : Query α) : List (Route × Nat × Nat) :=
  q.attempt.readsOn image

/-- The reads that belong to a finding: those of its inode, and those to list
a directory that is opened or to measure a regular file. -/
def Finding.reads [Lz4.Compressor] (image : ByteArray) (sb : Superblock) (f : Finding) :
    List (Route × Nat × Nat) :=
  match f.found with
  | .opened i => (Inode.read sb i.nid).readsOn image ++ (Directory.list sb i).readsOn image
  | .regular i _ => (Inode.read sb i.nid).readsOn image ++ (i.occupiedSize sb).readsOn image
  | .refused i | .special i => (Inode.read sb i.nid).readsOn image
  | .failure nid _ => (Inode.read sb nid).readsOn image

section

variable {α β : Type}

theorem Session.readsOn_bind (s : Session α) (next : α → Session β) :
    (s >>= next).readsOn image = s.readsOn image ++ (next (s.answer image)).readsOn image := by
  change (s.bind next).readsOn image = _
  induction s with
  | done => rfl
  | note remark rest ih =>
    rw [answer, onImage, onImage_fst]
    exact ih
  | read route offset length rest ih =>
    rw [answer, onImage, onImage_fst]
    exact congrArg (_ :: ·) (ih _)

theorem Session.readsOn_reportFailure_bind (cause : Error) (next : Unit → Session β) :
    (reportFailure cause >>= next).readsOn image = (next ()).readsOn image := by
  unfold reportFailure
  cases cause.remark? <;> rfl

/-- The second of two queries makes its reads if the first has an answer. -/
theorem Query.readsOn_bind (q : Query α) (next : α → Query β) :
    (q >>= next).readsOn image = q.readsOn image ++
      match q.onImage image with
      | .ok a => (next a).readsOn image
      | .error _ => [] := by
  change (q.bind next).attempt.readsOn image = q.attempt.readsOn image ++ _
  induction q with
  | done => rfl
  | fail cause =>
    rw [onImage_fail, List.append_nil]
    have hfail (γ : Type) : (fail cause : Query γ).attempt.readsOn image = [] :=
      Session.readsOn_reportFailure_bind cause fun _ =>
        (.done (.error cause) : Session (Except Error γ))
    exact (hfail β).trans (hfail α).symm
  | note remark rest ih =>
    rw [onImage_note]
    exact ih
  | read route offset length rest ih =>
    simp only [Query.bind, attempt, Session.readsOn, onImage, Session.onImage]
    cases imageRange image offset length with
    | error cause => rfl
    | ok bytes => exact congrArg (_ :: ·) (ih bytes)

end

theorem Inode.nid_of_read {nid : Nat} {i : Inode} (h : (Inode.read sb nid).onImage image = .ok i) :
    i.nid = nid := by
  obtain ⟨position, -, h⟩ := Query.onImage_bind_eq_ok.mp h
  obtain ⟨head, -, h⟩ := Query.onImage_bind_eq_ok.mp h
  obtain ⟨j, hj, h⟩ := Query.onImage_bind_eq_ok.mp h
  rw [Query.onImage_report_bind] at h
  cases h
  obtain ⟨layout, -, hj⟩ := Query.onImage_bind_eq_ok.mp hj
  split at hj
  · obtain ⟨record, -, hj⟩ := Query.onImage_bind_eq_ok.mp hj
    obtain ⟨type, -, hj⟩ := Query.onImage_bind_eq_ok.mp hj
    cases hj
    rfl
  · obtain ⟨tail, -, hj⟩ := Query.onImage_bind_eq_ok.mp hj
    obtain ⟨record, -, hj⟩ := Query.onImage_bind_eq_ok.mp hj
    obtain ⟨type, -, hj⟩ := Query.onImage_bind_eq_ok.mp hj
    cases hj
    rfl

namespace Statistics

open Session Place Tour

variable [Lz4.Compressor]
variable {p : Place} {below : Place → List Finding} {descend : Descent} {s : Statistics}

theorem readsOn_addFile (i : Inode) (t : Tour) :
    (t.addFile sb i).readsOn image = (i.occupiedSize sb).readsOn image := by
  rw [addFile, readsOn_bind, answer_attempt]
  cases (i.occupiedSize sb).onImage image <;> exact List.append_nil _

section

variable (descend) (hdescend : ∀ e i s, (descend i ⟨p.pathTo e, s⟩).readsOn image ⊆
  (below (p.child e i)).flatMap (Finding.reads image sb))
variable (hbelow : ∀ q, (Inode.read sb q.inode.nid).readsOn image ⊆
  (below q).flatMap (Finding.reads image sb))
variable (hanswer : ∀ e i s, (descend i ⟨p.pathTo e, s.count i.type⟩).answer image =
  ⟨p.pathTo e, (below (p.child e i)).foldl record s⟩)
include hdescend hbelow

theorem readsOn_addEntry_subset (e : DirectoryEntry) :
    (addEntry sb descend e ⟨p.path, s⟩).readsOn image ⊆
      (p.findAt image sb below e).flatMap (Finding.reads image sb) := by
  rw [addEntry, readsOn_bind]
  refine List.append_subset.mpr ⟨?_, List.nil_subset _⟩
  rw [addInode, readsOn_bind, answer_attempt, findAt]
  cases hread : (Inode.read sb e.nid).onImage image with
  | error cause => exact List.Subset.refl _
  | ok i =>
    have hnid := Inode.nid_of_read hread
    simp only
    split
    · rw [readsOn_addFile, ← hnid, List.flatMap_singleton]
      exact List.Subset.refl _
    · split
      · refine List.append_subset.mpr ⟨?_, hdescend e i _⟩
        rw [← hnid]
        exact hbelow (p.child e i)
      · rw [← hnid]
        exact List.Subset.refl _

include hanswer

theorem readsOn_addEntries_subset (s : Statistics) (entries : List DirectoryEntry) :
    (addEntries sb descend p.inode.nid p.parent entries ⟨p.path, s⟩).readsOn image ⊆
      ((p.followed entries).flatMap (p.findAt image sb below)).flatMap
        (Finding.reads image sb) := by
  induction entries generalizing s with
  | nil => exact List.Subset.refl _
  | cons e rest ih =>
    rw [addEntries]
    by_cases hloop : e.nid = p.inode.nid ∨ e.nid = p.parent
    · rw [if_pos hloop, followed_cons_of_loop hloop]
      exact ih s
    · rw [if_neg hloop, followed_cons hloop, List.flatMap_cons, List.flatMap_append, readsOn_bind,
        answer_addEntry hanswer e]
      have hentry := readsOn_addEntry_subset descend hdescend hbelow (s := s) e
      refine List.append_subset.mpr ⟨?_, ?_⟩
      · exact List.subset_append_of_subset_left _ hentry
      · exact List.subset_append_of_subset_right _ (ih _)

/-- In the blocks of a directory, what is read is the blocks, as far as
listing them goes, and what belongs to the entries. -/
theorem readsOn_addBlocks_subset (s : Statistics) {d : Directory} (hd : d.inode = p.inode)
    (left : Nat) (before : Array DirectoryEntry) :
    (addBlocks sb descend d p.parent left ⟨p.path, s⟩).readsOn image ⊆
      (d.lastEntries sb left before).readsOn image ++
        (p.findIn image sb below (d.contentsFrom image sb left)).flatMap
          (Finding.reads image sb) := by
  induction left generalizing s before with
  | zero => exact List.nil_subset _
  | succ left ih =>
    rw [addBlocks, hd, readsOn_bind, answer_attempt, Directory.contentsFrom,
      Directory.lastEntries, Query.readsOn_bind]
    cases hload : (d.loadBlock sb (d.blockCount - (left + 1))).onImage image with
    | error cause => exact List.subset_append_of_subset_left _ (List.Subset.refl _)
    | ok listing =>
      rw [Directory.block_of_ok hload]
      simp only
      rw [readsOn_bind, answer_addEntries hanswer]
      have hentries :=
        readsOn_addEntries_subset descend hdescend hbelow hanswer s listing.entries
      cases hfault : listing.fault? with
      | some cause =>
        rw [Listing.followedBy_of_fault hfault, findIn_of_fault hfault, List.flatMap_append]
        simp only
        rw [readsOn_reportFailure_bind]
        intro r hr
        simp only [List.mem_append] at hr ⊢
        rcases hr with hr | hr | hr
        · exact .inl (.inl hr)
        · exact .inr (.inl (hentries hr))
        · cases hr
      | none =>
        rw [findIn_followedBy_of_sound hfault, List.flatMap_append]
        intro r hr
        simp only [List.mem_append] at hr ⊢
        rcases hr with hr | hr | hr
        · exact .inl (.inl hr)
        · exact .inr (.inl (hentries hr))
        · rcases List.mem_append.mp (ih _ _ hr) with hr | hr
          · exact .inl (.inr hr)
          · exact .inr (.inr hr)

end

/-- The reads of an inode belong to what is found in its directory. -/
theorem readsOn_read_subset_findings (levels : Nat) (p : Place) :
    (Inode.read sb p.inode.nid).readsOn image ⊆
      (p.findings image sb levels).flatMap (Finding.reads image sb) := by
  cases levels with
  | zero => exact List.subset_append_left ..
  | succ levels => exact List.subset_append_of_subset_left _ (List.subset_append_left ..)

theorem readsOn_addTree_subset (levels : Nat) (p : Place) (s : Statistics) :
    (addTree sb levels p.depth p.parent p.inode ⟨p.path, s⟩).readsOn image ⊆
      (p.findings image sb levels).flatMap (Finding.reads image sb) := by
  induction levels generalizing p s with
  | zero => exact List.nil_subset _
  | succ levels ih =>
    rw [addTree]
    cases hd : Directory.ofInode sb p.inode with
    | error cause =>
      simp only
      rw [readsOn_reportFailure_bind]
      exact List.nil_subset _
    | ok d =>
      have hblocks := readsOn_addBlocks_subset (addTree sb levels (p.depth + 1) p.inode.nid)
        (fun e i s => ih (p.child e i) s) (readsOn_read_subset_findings levels)
        (fun e i s => answer_addTree levels (p.child e i) s)
        (s.reach p.depth) (Directory.of_ofInode hd).1 d.blockCount #[]
      rw [findings, List.flatMap_cons, Directory.contents_of_ofInode hd]
      intro r hr
      rcases List.mem_append.mp (hblocks hr) with hr | hr
      · -- the blocks are among the reads that list the directory
        refine List.mem_append_left _ (List.mem_append_right _ ?_)
        rw [Directory.list, Query.readsOn_bind, Query.onImage_liftM, hd]
        refine List.mem_append_right _ ?_
        simp only
        rw [Query.readsOn_bind]
        exact List.mem_append_left _ hr
      · exact List.mem_append_right _ hr

/-- **All that a survey reads** belongs to what it finds. -/
theorem readsOn_survey_subset {root : Inode} {maxDepth : Nat}
    (hroot : (Inode.read sb sb.root).onImage image = .ok root) :
    (s.survey sb maxDepth).readsOn image ⊆
      (root.findings image sb maxDepth).flatMap (Finding.reads image sb) := by
  have hnid := Inode.nid_of_read hroot
  rw [survey, readsOn_bind]
  refine List.append_subset.mpr ⟨?_, List.nil_subset _⟩
  rw [collect, readsOn_bind, answer_attempt, hroot, Inode.findings]
  simp only
  by_cases hdirectory : root.isDirectory
  · rw [if_pos hdirectory, if_pos hdirectory, readsOn_bind]
    refine List.append_subset.mpr ⟨?_, List.append_subset.mpr ⟨?_, List.nil_subset _⟩⟩
    · rw [← hnid]
      exact readsOn_read_subset_findings (maxDepth + 1) (Place.root root)
    · exact readsOn_addTree_subset (maxDepth + 1) (Place.root root) _
  · rw [if_neg hdirectory, if_neg hdirectory, ← hnid]
    exact List.Subset.refl _

/-! ## The limit -/

omit [Lz4.Compressor] in
theorem foldl_max_le {parts : List Nat} {limit : Nat} (h : ∀ n ∈ parts, n ≤ limit) (start : Nat) :
    parts.foldl max start ≤ max start limit := by
  induction parts generalizing start with
  | nil => exact Nat.le_max_left ..
  | cons n rest ih =>
    have hn := h n (List.mem_cons_self ..)
    have hrest := ih (fun m hm => h m (List.mem_cons_of_mem _ hm)) (max start n)
    rw [List.foldl_cons]
    omega

/-- What a survey that goes `maxDepth` levels below a directory makes of
statistics. -/
structure Limited (image : ByteArray) (sb : Superblock) (maxDepth : Nat) (root : Place)
    (s s' : Statistics) : Prop where
  /-- What is found in the directories on the levels within the limit is
  added, and for every directory on the next level a refusal; nothing is
  read besides. -/
  exists_findings : ∃ fs : List Finding, s' = fs.foldl record s ∧
    fs.Perm ((root.placesWithin image sb (maxDepth + 1)).flatMap (ownFindings image sb) ++
      (root.placesAt image sb (maxDepth + 1)).map refusal) ∧
    (s.survey sb maxDepth).readsOn image ⊆ fs.flatMap (Finding.reads image sb)
  /-- No directory is opened that lies too deep. -/
  depth_le {q : Place} : q ∈ root.placesWithin image sb (maxDepth + 1) → q.depth ≤ maxDepth
  /-- A directory is refused on the level after the limit. -/
  depth_eq {q : Place} : q ∈ root.placesAt image sb (maxDepth + 1) → q.depth = maxDepth + 1
  /-- Every refusal is recorded once, with the number of the directory and
  the path to it. -/
  errors : s'.errors.toList.Perm (s.errors.toList ++
    (((root.placesWithin image sb (maxDepth + 1)).flatMap (ownFindings image sb)).filterMap
        Finding.error? ++
      (root.placesAt image sb (maxDepth + 1)).map fun q => ⟨q.inode.nid, q.path, .tooDeep⟩))
  maxDepth_le : s'.maxDepth ≤ max s.maxDepth maxDepth

theorem limited_of_isDirectory {root : Inode} {maxDepth : Nat} (hdirectory : root.isDirectory)
    (hroot : (Inode.read sb sb.root).onImage image = .ok root) (s : Statistics) :
    Limited image sb maxDepth (Place.root root) s
      ((root.findings image sb maxDepth).foldl record s) := by
  have hfindings : root.findings image sb maxDepth =
      (Place.root root).findings image sb (maxDepth + 1) := by
    rw [Inode.findings, if_pos hdirectory]
  have hperm := hfindings ▸ findings_perm image sb (maxDepth + 1) (Place.root root)
  have hopened := hfindings ▸ openedDepths_perm image sb (maxDepth + 1) (Place.root root)
  have hwithin {q : Place} (hq : q ∈ (Place.root root).placesWithin image sb (maxDepth + 1)) :
      q.depth ≤ maxDepth := by
    have hlt := depth_of_mem_placesWithin hq
    simp only [Place.root] at hlt
    omega
  have hrefused : (((Place.root root).placesAt image sb (maxDepth + 1)).map refusal).filterMap
      Finding.error? = ((Place.root root).placesAt image sb (maxDepth + 1)).map
        fun q => ⟨q.inode.nid, q.path, .tooDeep⟩ := by
    rw [List.filterMap_map, ← List.filterMap_eq_map]
    rfl
  refine ⟨⟨_, rfl, hperm, readsOn_survey_subset hroot⟩, hwithin, fun hq => ?_, ?_, ?_⟩
  · have heq := depth_of_mem_placesAt hq
    simp only [Place.root] at heq
    omega
  · rw [errors_foldl, ← hrefused, ← List.filterMap_append]
    exact (hperm.filterMap _).append_left _
  · rw [maxDepth_foldl]
    refine foldl_max_le (fun n hn => ?_) _
    obtain ⟨q, hq, rfl⟩ := List.mem_map.mp (hopened.subset hn)
    exact hwithin hq

end Statistics

variable {δ : Type} [BlockDevice δ] {m : Mount δ} {blockSize : Nat}

/-- **A survey comes to an end and keeps its limit**, whatever cycles the
directories form and whatever statistics it starts from. It makes a bounded
number of reads, also if they fail. If the root can be read, there are
statistics in the end; no directory deeper than the limit was opened, and
one that was reached a level deeper left one error and nothing else. -/
theorem Mount.survey_limited [Lz4.Compressor] (hm : m.Serves image blockSize) (s : Statistics) :
    (s.survey m.superblock m.options.maxDepth).EndsWithin (fun _ => True)
        (Statistics.surveyReads m.options.maxDepth) ∧
      Error.tooDeep.kind = .corrupted ∧
      (∀ cause, (Inode.read m.superblock m.superblock.root).onImage image = .error cause →
        (m.survey s).1 = .error cause) ∧
      ∀ root, (Inode.read m.superblock m.superblock.root).onImage image = .ok root →
        (¬ root.isDirectory → (m.survey s).1 = .ok (s.count root.type)) ∧
        (root.isDirectory → ∃ s', (m.survey s).1 = .ok s' ∧
          Statistics.Limited image m.superblock m.options.maxDepth (Place.root root) s s') := by
  have hsurvey := hm.survey_fst s
  rw [Statistics.answer_survey] at hsurvey
  refine ⟨Statistics.endsWithin_survey .., rfl, fun cause hcause => ?_, fun root hroot => ?_⟩
  · rw [hsurvey, hcause]
    rfl
  · rw [hroot] at hsurvey
    simp only [Except.map] at hsurvey
    rw [hsurvey]
    refine ⟨fun hdirectory => ?_, fun hdirectory => ?_⟩
    · rw [Inode.findings, if_neg hdirectory]
      rfl
    · exact ⟨_, rfl, Statistics.limited_of_isDirectory hdirectory hroot s⟩

section
attribute [local instance] Lz4.Compressor.greedy

/-- The subdirectory of the root of the small tree. -/
def treeBranchPlace : Place :=
  (Place.root treeRoot).child ⟨8, ⟨#[0x64, 0, 0x64]⟩, 2⟩ treeBranch

theorem subdirectories_treeRoot :
    (Place.root treeRoot).subdirectories treeImage (.bare 9 0) = [treeBranchPlace] ∧
      ((Place.root treeRoot).ownFindings treeImage (.bare 9 0)).filterMap Finding.error? = [] := by
  have hbranch : (Inode.read (.bare 9 0) 8).onImage treeImage = .ok treeBranch :=
    onImage_read_treeImage (i := treeBranch) (by simp)
  have hfile : (Inode.read (.bare 9 0) 4).onImage treeImage = .ok treeFile :=
    onImage_read_treeImage (i := treeFile) (by simp)
  have hfollowed : (Place.root treeRoot).followed treeBlocks.flatten =
      [⟨8, ⟨#[0x64, 0, 0x64]⟩, 2⟩, ⟨4, ⟨#[0x66]⟩, 1⟩] := by decide
  have hcontents : (Place.root treeRoot).inode.contents treeImage (.bare 9 0) =
      ⟨treeBlocks.flatten, none⟩ := contents_treeRoot
  constructor
  · have hbranchAt : (Place.root treeRoot).subdirectoryAt? treeImage (.bare 9 0)
        ⟨8, ⟨#[0x64, 0, 0x64]⟩, 2⟩ = some treeBranchPlace := by
      rw [Place.subdirectoryAt?, hbranch]
      rfl
    have hfileAt : (Place.root treeRoot).subdirectoryAt? treeImage (.bare 9 0)
        ⟨4, ⟨#[0x66]⟩, 1⟩ = none := by
      rw [Place.subdirectoryAt?, hfile]
      rfl
    rw [Place.subdirectories, hcontents, hfollowed]
    simp only [List.filterMap_cons, hbranchAt, hfileAt, List.filterMap_nil]
  · have hbranchAt : (Place.root treeRoot).findAt treeImage (.bare 9 0) (fun _ => [])
        ⟨8, ⟨#[0x64, 0, 0x64]⟩, 2⟩ = [] := by
      rw [Place.findAt, hbranch]
      rfl
    have hfileAt : (Place.root treeRoot).findAt treeImage (.bare 9 0) (fun _ => [])
        ⟨4, ⟨#[0x66]⟩, 1⟩ =
          [⟨1, (Place.root treeRoot).pathTo ⟨4, ⟨#[0x66]⟩, 1⟩, .regular treeFile (.ok 100)⟩] := by
      rw [Place.findAt, hfile]
      rfl
    rw [Place.ownFindings, hcontents, Place.findIn_of_sound rfl, hfollowed, List.flatMap_cons,
      List.flatMap_cons, hbranchAt, hfileAt]
    rfl

/-- If no level below the root is allowed, the subdirectory is refused. -/
theorem survey_limited_treeRoot :
    ∃ (m : Mount MemoryDevice) (s : Statistics), m.Serves treeImage 512 ∧
      m.options.maxDepth = 0 ∧ (m.survey .empty).1 = .ok s ∧
      s.errors.toList = [⟨8, treeBranchPlace.path, .tooDeep⟩] := by
  obtain ⟨m, hsuperblock, hdepth, hm⟩ := exists_serves_treeImage 0
  have hroot : (Inode.read m.superblock m.superblock.root).onImage treeImage = .ok treeRoot := by
    rw [hsuperblock]
    exact onImage_read_treeImage (i := treeRoot) (by simp)
  obtain ⟨s, hs, hlimited⟩ := ((Mount.survey_limited hm .empty).2.2.2 treeRoot hroot).2 rfl
  have herrors := hlimited.errors
  obtain ⟨hsubdirectories, hown⟩ := subdirectories_treeRoot
  rw [hsuperblock, hdepth] at herrors
  simp only [Place.placesWithin, Place.placesAt, hsubdirectories, List.flatMap_cons,
    List.flatMap_nil, List.append_nil, hown] at herrors
  exact ⟨m, s, hm, hdepth, hs, List.perm_singleton.mp herrors⟩

end

end Erofs
