import Erofs.Proofs.Survey.Findings
/-!
# What findings add up to

Each figure of the statistics takes notice of one side of a finding: the
type of a file, the sizes of a regular file, the depth of a directory that
is opened, or a failure. So a figure after a survey is the figure before,
with these parts of the findings added one by one (`foldl_record`). Counts
grow by the number of parts that are meant, and sums by their sum, up to
the largest 64-bit number.
-/

-- The zero of a sum is the numeral.
attribute [local instance (high)] Zero.ofOfNat0

namespace Erofs

/-- A regular file, and how many bytes its data takes. -/
structure RegularFile where
  inode : Inode
  occupied : Nat
  deriving DecidableEq

namespace RegularFile

variable (file : RegularFile)

/-- The size of the file. -/
def size : Nat := file.inode.size.toNat

end RegularFile

namespace Finding

variable (f : Finding)

/-- The type of a file. -/
def type? : Option FileType :=
  match f.found with
  | .opened i | .refused i | .regular i _ | .special i => some i.type
  | .failure .. => none

/-- A regular file whose data could be measured. -/
def regular? : Option RegularFile :=
  match f.found with
  | .regular i (.ok occupied) => some ⟨i, occupied⟩
  | _ => none

/-- How deep a directory lies that is opened. -/
def openedDepth? : Option Nat :=
  match f.found with
  | .opened _ => some f.depth
  | _ => none

/-- The failure that is recorded. -/
def error? : Option TreeError :=
  match f.found with
  | .refused i => some ⟨i.nid, f.path, .tooDeep⟩
  | .regular i (.error cause) => some ⟨i.nid, f.path, cause⟩
  | .failure nid cause => some ⟨nid, f.path, cause⟩
  | .opened _ | .regular _ (.ok _) | .special _ => none

end Finding

namespace Statistics

variable {β γ : Type} {s : Statistics} {fs : List Finding}

/-- A figure that takes notice of some part of each finding adds up these
parts. -/
theorem foldl_record (figure : Statistics → β) (part? : Finding → Option γ) (add : β → γ → β)
    (h : ∀ s f, figure (s.record f) = (part? f).elim (figure s) (add (figure s))) :
    figure (fs.foldl record s) = (fs.filterMap part?).foldl add (figure s) := by
  induction fs generalizing s with
  | nil => rfl
  | cons f rest ih =>
    rw [List.foldl_cons, ih, h, List.filterMap_cons]
    cases part? f <;> rfl

/-! ## Adding one by one -/

theorem foldl_count (p : γ → Bool) (parts : List γ) (n : Nat) :
    parts.foldl (fun n part => if p part then n + 1 else n) n = n + parts.countP p := by
  induction parts generalizing n with
  | nil => rfl
  | cons part rest ih =>
    rw [List.foldl_cons, ih, List.countP_cons]
    split <;> omega

/-- A sum stops at the largest 64-bit number, wherever it gets there. -/
theorem foldl_saturatingAdd (weight : γ → Nat) (parts : List γ) {n : Nat}
    (hn : n < addressLimit) :
    parts.foldl (fun n part => saturatingAdd n (weight part)) n =
      min (n + (parts.map weight).sum) (addressLimit - 1) := by
  induction parts generalizing n with
  | nil => simp only [List.foldl_nil, List.map_nil, List.sum_nil]; omega
  | cons part rest ih =>
    have hle : saturatingAdd n (weight part) < addressLimit := by
      unfold saturatingAdd
      omega
    rw [List.foldl_cons, ih hle, List.map_cons, List.sum_cons, saturatingAdd]
    omega

theorem foldl_concat (parts before : List γ) :
    parts.foldl (fun before part => before ++ [part]) before = before ++ parts := by
  induction parts generalizing before with
  | nil => rw [List.foldl_nil, List.append_nil]
  | cons part rest ih => rw [List.foldl_cons, ih, List.append_assoc]; rfl

/-! ## The figures -/

/-- A bucket, if one more is counted somewhere. -/
theorem getElem_set_succ {n : Nat} (v : Vector Nat n) (b b' : Fin n) :
    (v.set b' (v[b'] + 1))[b] = if b' = b then v[b] + 1 else v[b] := by
  rw [Fin.getElem_fin, Fin.getElem_fin, Vector.getElem_set]
  simp only [Fin.val_inj]
  split
  · next h => rw [h]; rfl
  · rfl

theorem filesOf_count (s : Statistics) (t t' : FileType) :
    (s.count t).filesOf t' = if t = t' then s.filesOf t' + 1 else s.filesOf t' := by
  have hindex : t.index = t'.index ↔ t = t' := by cases t <;> cases t' <;> decide
  simp only [← hindex]
  exact getElem_set_succ ..

theorem filesOf_foldl (t : FileType) :
    (fs.foldl record s).filesOf t = s.filesOf t + (fs.filterMap Finding.type?).count t := by
  rw [foldl_record (·.filesOf t) Finding.type? (fun n t' => if t' == t then n + 1 else n),
    foldl_count, List.count]
  intro s f
  rcases f with ⟨depth, path, i | i | ⟨i, cause | occupied⟩ | i | ⟨nid, cause⟩⟩ <;>
    simp only [record, Finding.type?, Option.elim, beq_iff_eq, ← filesOf_count] <;> rfl

theorem sum_set_succ (l : List Nat) {n : Nat} (h : n < l.length) :
    (l.set n (l[n] + 1)).sum = l.sum + 1 := by
  induction l generalizing n with
  | nil => cases h
  | cons m rest ih =>
    cases n with
    | zero => simp only [List.set_cons_zero, List.getElem_cons_zero, List.sum_cons]; omega
    | succ n =>
      have hrest := ih (Nat.lt_of_succ_lt_succ h)
      simp only [List.set_cons_succ, List.getElem_cons_succ, List.sum_cons]
      omega

/-- The sum of all buckets, if one more is counted in one of them. -/
theorem sum_buckets_set {n : Nat} (v : Vector Nat n) (b : Fin n) :
    (v.set b (v[b] + 1)).sum = v.sum + 1 := by
  rw [← Vector.sum_toList, ← Vector.sum_toList, Vector.toList_set]
  exact sum_set_succ _ (by simp)

theorem totalFiles_count (s : Statistics) (t : FileType) :
    (s.count t).totalFiles = s.totalFiles + 1 := sum_buckets_set s.byType t.index

theorem totalFiles_foldl :
    (fs.foldl record s).totalFiles = s.totalFiles + (fs.filterMap Finding.type?).length := by
  rw [foldl_record totalFiles Finding.type? (fun n _ => if true then n + 1 else n),
    foldl_count, List.countP_true]
  intro s f
  rcases f with ⟨depth, path, i | i | ⟨i, cause | occupied⟩ | i | ⟨nid, cause⟩⟩
  · exact totalFiles_count ..
  · exact totalFiles_count ..
  · exact totalFiles_count ..
  · exact totalFiles_count ..
  · exact totalFiles_count ..
  · rfl

theorem errors_foldl :
    (fs.foldl record s).errors.toList = s.errors.toList ++ fs.filterMap Finding.error? := by
  rw [foldl_record (·.errors.toList) Finding.error? (fun before e => before ++ [e]),
    foldl_concat]
  intro s f
  rcases f with ⟨depth, path, i | i | ⟨i, cause | occupied⟩ | i | ⟨nid, cause⟩⟩ <;>
    simp [record, Finding.error?, addError, count, reach, addRegular]

theorem maxDepth_foldl :
    (fs.foldl record s).maxDepth = (fs.filterMap Finding.openedDepth?).foldl max s.maxDepth := by
  rw [foldl_record (·.maxDepth) Finding.openedDepth? max]
  intro s f
  rcases f with ⟨depth, path, i | i | ⟨i, cause | occupied⟩ | i | ⟨nid, cause⟩⟩ <;> rfl

/-- A figure of which only the regular files matter adds these up. -/
theorem foldl_record_regular (figure : Statistics → β) {add : β → RegularFile → β}
    (hcount : ∀ (s : Statistics) t, figure (s.count t) = figure s)
    (hreach : ∀ (s : Statistics) depth, figure (s.reach depth) = figure s)
    (herror : ∀ (s : Statistics) e, figure (s.addError e) = figure s)
    (hregular : ∀ (s : Statistics) (file : RegularFile),
      figure (s.addRegular file.size file.occupied file.inode.isCompressed) =
        add (figure s) file) :
    figure (fs.foldl record s) = (fs.filterMap Finding.regular?).foldl add (figure s) := by
  refine foldl_record figure Finding.regular? add fun s f => ?_
  rcases f with ⟨depth, path, i | i | ⟨i, cause | occupied⟩ | i | ⟨nid, cause⟩⟩
  · exact (hreach ..).trans (hcount ..)
  · exact (herror ..).trans (hcount ..)
  · exact (herror ..).trans (hcount ..)
  · exact (hregular (s.count i.type) ⟨i, occupied⟩).trans (congrArg (add · _) (hcount ..))
  · exact hcount ..
  · exact herror ..

theorem logicalSize_foldl (hs : s.logicalSize < addressLimit) :
    (fs.foldl record s).logicalSize =
      min (s.logicalSize + ((fs.filterMap Finding.regular?).map RegularFile.size).sum)
        (addressLimit - 1) := by
  rw [← foldl_saturatingAdd _ _ hs]
  exact foldl_record_regular logicalSize (fun _ _ => rfl) (fun _ _ => rfl) (fun _ _ => rfl)
    fun _ _ => rfl

theorem occupiedSize_foldl (hs : s.occupiedSize < addressLimit) :
    (fs.foldl record s).occupiedSize =
      min (s.occupiedSize + ((fs.filterMap Finding.regular?).map RegularFile.occupied).sum)
        (addressLimit - 1) := by
  rw [← foldl_saturatingAdd _ _ hs]
  exact foldl_record_regular occupiedSize (fun _ _ => rfl) (fun _ _ => rfl) (fun _ _ => rfl)
    fun _ _ => rfl

theorem compressedFiles_foldl :
    (fs.foldl record s).compressedFiles =
      s.compressedFiles + (fs.filterMap Finding.regular?).countP (·.inode.isCompressed) := by
  rw [← foldl_count]
  exact foldl_record_regular compressedFiles (fun _ _ => rfl) (fun _ _ => rfl) (fun _ _ => rfl)
    fun _ _ => rfl

theorem logicalHistogram_foldl (b : Fin 16) :
    (fs.foldl record s).logicalHistogram[b] =
      s.logicalHistogram[b] +
        (fs.filterMap Finding.regular?).countP (fun file => sizeBucket file.size = b) := by
  rw [← foldl_count]
  refine foldl_record_regular (·.logicalHistogram[b])
    (fun _ _ => rfl) (fun _ _ => rfl) (fun _ _ => rfl) fun s file => ?_
  simp only [decide_eq_true_eq]
  exact getElem_set_succ ..

theorem occupiedHistogram_foldl (b : Fin 16) :
    (fs.foldl record s).occupiedHistogram[b] =
      s.occupiedHistogram[b] +
        (fs.filterMap Finding.regular?).countP (fun file => sizeBucket file.occupied = b) := by
  rw [← foldl_count]
  refine foldl_record_regular (·.occupiedHistogram[b])
    (fun _ _ => rfl) (fun _ _ => rfl) (fun _ _ => rfl) fun s file => ?_
  simp only [decide_eq_true_eq]
  exact getElem_set_succ ..

end Statistics

end Erofs
