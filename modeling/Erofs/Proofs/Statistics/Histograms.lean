import Mathlib.Data.List.Basic
import Erofs.Proofs.Survey.Totals
/-!
# What statistics say of the files in them

The buckets of a histogram cut all sizes into sixteen ranges without gap or
overlap (`sizeBucket_eq_iff`). So every figure of the statistics of some
files is a count or a sum over these files (`AccountsFor`). A sum that has
stopped at the largest 64-bit number stays there, so the figures do not
depend on the order in which the files were added (`accountsFor_in_any_order`).
-/

-- The zero of a sum is the numeral.
attribute [local instance (high)] Zero.ofOfNat0

namespace Erofs

/-! ## Buckets -/

/-- The sizes of a bucket. The first has no lower border and the last no
upper one; every other has the sizes from half its upper border on. -/
def InBucket (k : Fin 16) (size : Nat) : Prop :=
  (k.val = 0 ∨ 2 ^ (k.val - 1) * 1024 ≤ size) ∧ (k.val = 15 ∨ size < 2 ^ k.val * 1024)

instance (k : Fin 16) : DecidablePred (InBucket k) := fun _ => inferInstanceAs (Decidable (_ ∧ _))

/-- Every size lies in its bucket. -/
theorem inBucket_sizeBucket (size : Nat) : InBucket (sizeBucket size) size := by
  have hdiv := Nat.div_add_mod' size 1024
  have hmod := Nat.mod_lt size (show 0 < 1024 by decide)
  unfold sizeBucket
  simp only
  split
  · next hkib =>
    refine ⟨.inl rfl, .inr ?_⟩
    simp only [Fin.val_zero, Nat.pow_zero]
    omega
  · next hkib =>
    have hlow : 2 ^ (size / 1024).log2 ≤ size / 1024 := Nat.log2_self_le hkib
    have hhigh : size / 1024 < 2 ^ ((size / 1024).log2 + 1) := Nat.lt_log2_self
    refine ⟨.inr ?_, ?_⟩
    · have hpow : 2 ^ (min ((size / 1024).log2 + 1) 15 - 1) ≤ 2 ^ (size / 1024).log2 :=
        Nat.pow_le_pow_right (by decide) (by omega)
      simp only
      omega
    · rcases Nat.lt_or_ge ((size / 1024).log2 + 1) 15 with hinner | hlast
      · right
        simp only [Nat.min_eq_left (Nat.le_of_lt hinner)]
        omega
      · left
        simp only [Nat.min_eq_right hlast]

/-- No size lies in a bucket below another of its buckets. -/
theorem InBucket.not_lt {k k' : Fin 16} {size : Nat} (h : InBucket k size)
    (h' : InBucket k' size) : ¬ k < k' := by
  intro hlt
  have hval : k.val < k'.val := hlt
  have hupper : size < 2 ^ k.val * 1024 := h.2.resolve_left (by omega)
  have hlower : 2 ^ (k'.val - 1) * 1024 ≤ size := h'.1.resolve_left (by omega)
  have hpow : 2 ^ k.val ≤ 2 ^ (k'.val - 1) := Nat.pow_le_pow_right (by decide) (by omega)
  omega

/-- **The buckets cut all sizes into ranges.** A size is counted in the one
bucket that it lies in. -/
theorem sizeBucket_eq_iff {size : Nat} {k : Fin 16} : sizeBucket size = k ↔ InBucket k size := by
  have hbucket := inBucket_sizeBucket size
  constructor
  · rintro rfl
    exact hbucket
  · intro hk
    exact Fin.le_antisymm (Fin.not_lt.mp (hk.not_lt hbucket)) (Fin.not_lt.mp (hbucket.not_lt hk))

/-! ## Files -/

/-- A regular file as it is added to statistics. -/
structure FileSizes where
  logical : Nat
  occupied : Nat
  compressed : Bool
  deriving DecidableEq

namespace Statistics

/-- Adds a file. -/
def addFileSizes (s : Statistics) (file : FileSizes) : Statistics :=
  s.addRegular file.logical file.occupied file.compressed

/-- The statistics of some files, added one after another. -/
def ofFiles (files : List FileSizes) : Statistics := files.foldl addFileSizes .empty

/-- What the statistics of some files have to say of them. -/
structure AccountsFor (files : List FileSizes) (s : Statistics) : Prop where
  logicalSize_eq : s.logicalSize = min (files.map FileSizes.logical).sum (addressLimit - 1)
  occupiedSize_eq : s.occupiedSize = min (files.map FileSizes.occupied).sum (addressLimit - 1)
  compressedFiles_eq : s.compressedFiles = files.countP FileSizes.compressed
  logicalHistogram_eq (k : Fin 16) :
    s.logicalHistogram[k] = files.countP fun file => InBucket k file.logical
  occupiedHistogram_eq (k : Fin 16) :
    s.occupiedHistogram[k] = files.countP fun file => InBucket k file.occupied
  /-- Nothing else is counted. -/
  byType_eq : s.byType = empty.byType
  maxDepth_eq : s.maxDepth = empty.maxDepth
  errors_eq : s.errors = empty.errors

variable {files files' : List FileSizes} {s t : Statistics}

/-- A figure of the statistics adds up what the files have of it. -/
theorem figure_ofFiles {β : Type} (figure : Statistics → β) (add : β → FileSizes → β)
    (h : ∀ s file, figure (addFileSizes s file) = add (figure s) file) (files : List FileSizes) :
    figure (ofFiles files) = files.foldl add (figure .empty) :=
  (List.foldl_hom figure fun s file => (h s file).symm).symm

/-- A bucket of a histogram has the files whose size lies in it. -/
theorem bucket_ofFiles {histogram : Statistics → Vector Nat 16} {size : FileSizes → Nat}
    (hempty : histogram .empty = Vector.replicate 16 0)
    (hadd : ∀ s file k, (histogram (addFileSizes s file)).get k =
      if sizeBucket (size file) = k then (histogram s).get k + 1 else (histogram s).get k)
    (k : Fin 16) (files : List FileSizes) :
    (histogram (ofFiles files)).get k = files.countP fun file => InBucket k (size file) := by
  have hstep (s : Statistics) (file : FileSizes) : (histogram (addFileSizes s file)).get k =
      if decide (InBucket k (size file)) then (histogram s).get k + 1 else (histogram s).get k := by
    simp only [decide_eq_true_eq, ← sizeBucket_eq_iff, hadd]
  have hzero : (histogram .empty).get k = 0 := by
    rw [hempty]
    exact Vector.getElem_replicate ..
  rw [figure_ofFiles (fun s => (histogram s).get k)
    (fun n file => if decide (InBucket k (size file)) then n + 1 else n) hstep, foldl_count, hzero,
    Nat.zero_add]

/-- A histogram has every file once. -/
theorem sum_buckets_ofFiles {histogram : Statistics → Vector Nat 16}
    (hempty : histogram .empty = Vector.replicate 16 0)
    (hadd : ∀ s file, (histogram (addFileSizes s file)).sum = (histogram s).sum + 1)
    (files : List FileSizes) : (histogram (ofFiles files)).sum = files.length := by
  have hstep (s : Statistics) (file : FileSizes) : (histogram (addFileSizes s file)).sum =
      if true then (histogram s).sum + 1 else (histogram s).sum := hadd s file
  rw [figure_ofFiles (fun s => (histogram s).sum) (fun n _ => if true then n + 1 else n) hstep,
    foldl_count, List.countP_true, hempty]
  exact Nat.zero_add _

/-- A sum of sizes stops at the largest 64-bit number. -/
theorem total_ofFiles {total : Statistics → Nat} {size : FileSizes → Nat}
    (hempty : total .empty = 0)
    (hadd : ∀ s file, total (addFileSizes s file) = saturatingAdd (total s) (size file))
    (files : List FileSizes) :
    total (ofFiles files) = min (files.map size).sum (addressLimit - 1) := by
  rw [figure_ofFiles total (fun n file => saturatingAdd n (size file)) hadd,
    foldl_saturatingAdd _ _ (by rw [hempty]; decide), hempty, Nat.zero_add]

/-- What adding a file does not change stays as it is in new statistics. -/
theorem unchanged_ofFiles {β : Type} {figure : Statistics → β}
    (h : ∀ s file, figure (addFileSizes s file) = figure s) (files : List FileSizes) :
    figure (ofFiles files) = figure .empty := by
  rw [figure_ofFiles figure (fun b _ => b) h, List.foldl_fixed]

/-- **The statistics of some files account for them.** -/
theorem accountsFor_ofFiles (files : List FileSizes) : AccountsFor files (ofFiles files) where
  logicalSize_eq := total_ofFiles rfl (fun _ _ => rfl) files
  occupiedSize_eq := total_ofFiles rfl (fun _ _ => rfl) files
  compressedFiles_eq := by
    rw [figure_ofFiles compressedFiles (fun n file => if file.compressed then n + 1 else n)
      (fun _ _ => rfl), foldl_count]
    exact Nat.zero_add _
  logicalHistogram_eq k :=
    bucket_ofFiles rfl (fun s _ k => getElem_set_succ s.logicalHistogram k _) k files
  occupiedHistogram_eq k :=
    bucket_ofFiles rfl (fun s _ k => getElem_set_succ s.occupiedHistogram k _) k files
  byType_eq := unchanged_ofFiles (fun _ _ => rfl) files
  maxDepth_eq := unchanged_ofFiles (fun _ _ => rfl) files
  errors_eq := unchanged_ofFiles (fun _ _ => rfl) files

namespace AccountsFor

/-- There is only one way to account for some files. -/
theorem unique (hs : AccountsFor files s) (ht : AccountsFor files t) : s = t := by
  have hlogical : s.logicalHistogram = t.logicalHistogram :=
    Vector.ext fun k hk =>
      (hs.logicalHistogram_eq ⟨k, hk⟩).trans (ht.logicalHistogram_eq ⟨k, hk⟩).symm
  have hoccupied : s.occupiedHistogram = t.occupiedHistogram :=
    Vector.ext fun k hk =>
      (hs.occupiedHistogram_eq ⟨k, hk⟩).trans (ht.occupiedHistogram_eq ⟨k, hk⟩).symm
  have hsizes := hs.logicalSize_eq.trans ht.logicalSize_eq.symm
  have hsizes' := hs.occupiedSize_eq.trans ht.occupiedSize_eq.symm
  have hcompressed := hs.compressedFiles_eq.trans ht.compressedFiles_eq.symm
  have htypes := hs.byType_eq.trans ht.byType_eq.symm
  have hdepth := hs.maxDepth_eq.trans ht.maxDepth_eq.symm
  have herrors := hs.errors_eq.trans ht.errors_eq.symm
  cases s
  cases t
  simp only at *
  subst hlogical hoccupied hsizes hsizes' hcompressed htypes hdepth herrors
  rfl

/-- And it takes no notice of their order. -/
theorem of_perm (h : AccountsFor files s) (hperm : files.Perm files') :
    AccountsFor files' s where
  logicalSize_eq := by rw [h.logicalSize_eq, (hperm.map _).sum_nat]
  occupiedSize_eq := by rw [h.occupiedSize_eq, (hperm.map _).sum_nat]
  compressedFiles_eq := by rw [h.compressedFiles_eq, hperm.countP_eq]
  logicalHistogram_eq k := by rw [h.logicalHistogram_eq, hperm.countP_eq]
  occupiedHistogram_eq k := by rw [h.occupiedHistogram_eq, hperm.countP_eq]
  byType_eq := h.byType_eq
  maxDepth_eq := h.maxDepth_eq
  errors_eq := h.errors_eq

end AccountsFor

/-- **Every file is accounted for, in whatever order the files come.** The
sizes are added up to the largest 64-bit number, and each histogram has every
file once, in the bucket that its size lies in. If the number of files has
64 bits, every count has. -/
theorem accountsFor_in_any_order (files : List FileSizes) :
    AccountsFor files (ofFiles files) ∧
      (ofFiles files).logicalHistogram.sum = files.length ∧
      (ofFiles files).occupiedHistogram.sum = files.length ∧
      (files.length < addressLimit → (ofFiles files).compressedFiles < addressLimit ∧
        (∀ n ∈ (ofFiles files).logicalHistogram, n < addressLimit) ∧
        ∀ n ∈ (ofFiles files).occupiedHistogram, n < addressLimit) ∧
      ∀ files', files.Perm files' → ofFiles files' = ofFiles files := by
  have haccounts := accountsFor_ofFiles files
  refine ⟨haccounts,
    sum_buckets_ofFiles rfl (fun s _ => sum_buckets_set s.logicalHistogram _) files,
    sum_buckets_ofFiles rfl (fun s _ => sum_buckets_set s.occupiedHistogram _) files,
    fun hfew => ⟨?_, ?_, ?_⟩, ?_⟩
  · rw [haccounts.compressedFiles_eq]
    exact Nat.lt_of_le_of_lt List.countP_le_length hfew
  · intro n hn
    obtain ⟨k, hk, rfl⟩ := Vector.mem_iff_getElem.mp hn
    calc (ofFiles files).logicalHistogram[k] = _ := haccounts.logicalHistogram_eq ⟨k, hk⟩
      _ ≤ files.length := List.countP_le_length
      _ < addressLimit := hfew
  · intro n hn
    obtain ⟨k, hk, rfl⟩ := Vector.mem_iff_getElem.mp hn
    calc (ofFiles files).occupiedHistogram[k] = _ := haccounts.occupiedHistogram_eq ⟨k, hk⟩
      _ ≤ files.length := List.countP_le_length
      _ < addressLimit := hfew
  · intro files' hperm
    exact (accountsFor_ofFiles files').unique (haccounts.of_perm hperm)

/-- Files of extreme sizes: the largest there is, and some at the borders of
the first bucket and of the last one. -/
def extremeFiles : List FileSizes :=
  [⟨addressLimit - 1, 1023, true⟩, ⟨1024, 2 ^ 24, false⟩, ⟨2 ^ 24 - 1, addressLimit - 1, true⟩]

theorem accountsFor_extremeFiles :
    extremeFiles.length < addressLimit ∧ extremeFiles.Perm extremeFiles.reverse ∧
      ofFiles extremeFiles.reverse = ofFiles extremeFiles ∧
      (ofFiles extremeFiles).logicalSize = addressLimit - 1 ∧
      (ofFiles extremeFiles).logicalHistogram[14] = 1 ∧
      (ofFiles extremeFiles).occupiedHistogram[15] = 2 ∧
      (ofFiles extremeFiles).logicalHistogram.sum = 3 ∧
      (ofFiles extremeFiles).compressedFiles < addressLimit := by
  have hperm : extremeFiles.Perm extremeFiles.reverse := (List.reverse_perm _).symm
  have hfew : extremeFiles.length < addressLimit := by decide
  obtain ⟨haccounts, hsum, -, hcounts, horder⟩ := accountsFor_in_any_order extremeFiles
  refine ⟨hfew, hperm, horder _ hperm, ?_, ?_, ?_, hsum, (hcounts hfew).1⟩
  · rw [haccounts.logicalSize_eq]
    decide
  · exact (haccounts.logicalHistogram_eq 14).trans (by decide)
  · exact (haccounts.occupiedHistogram_eq 15).trans (by decide)

end Statistics

end Erofs
