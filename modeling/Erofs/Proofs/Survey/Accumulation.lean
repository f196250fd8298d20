import Erofs.Lz4.Plan
import Erofs.Proofs.Directory.Decoding
import Erofs.Proofs.Survey.Totals
/-!
# Surveys into one accumulator

Statistics of two trees can be merged. Recording a finding in merged
statistics is recording it in the second of them (`merge_record`), so a
survey that goes on from some statistics adds what it gives on its own
(`merge_foldl_record`). One that fails does so before it adds anything
(`Serves.accumulate_eq`). Whatever the cache of a mount holds, `n` surveys
into one accumulator therefore add `n` times the same figures
(`accumulates_merge_times`).
-/

namespace Erofs

variable {image : ByteArray}

/-! ## Sums that stop -/

theorem saturatingAdd_assoc (a b c : Nat) :
    saturatingAdd (saturatingAdd a b) c = saturatingAdd a (saturatingAdd b c) := by
  unfold saturatingAdd
  omega

theorem saturatingAdd_zero {a : Nat} (h : a < addressLimit) : saturatingAdd a 0 = a := by
  unfold saturatingAdd
  omega

/-- One more summand of `n` equal ones. -/
theorem saturatingAdd_mul (n a : Nat) :
    saturatingAdd (min (n * a) (addressLimit - 1)) a = min ((n + 1) * a) (addressLimit - 1) := by
  rw [saturatingAdd, Nat.succ_mul]
  omega

/-- Counting one more in the second of two histograms counts one more in
their sum. -/
theorem add_set_succ {n : Nat} (v w : Vector Nat n) (b : Fin n) (h : b.val < n) :
    (v + w).set b ((v + w)[b] + 1) h = v + w.set b (w[b] + 1) h := by
  ext i hi
  simp only [Vector.getElem_add, Vector.getElem_set, Fin.getElem_fin]
  split
  · next h =>
    subst h
    rw [Nat.add_assoc]
  · rfl

namespace Statistics

/-! ## Merged statistics -/

/-- The statistics of two trees: counts and sizes add up, sizes to the
largest 64-bit number at most, the deeper tree decides the depth, and the
failures of the second tree come behind those of the first. -/
def merge (s r : Statistics) : Statistics where
  byType := s.byType + r.byType
  logicalSize := saturatingAdd s.logicalSize r.logicalSize
  occupiedSize := saturatingAdd s.occupiedSize r.occupiedSize
  compressedFiles := s.compressedFiles + r.compressedFiles
  logicalHistogram := s.logicalHistogram + r.logicalHistogram
  occupiedHistogram := s.occupiedHistogram + r.occupiedHistogram
  maxDepth := max s.maxDepth r.maxDepth
  errors := s.errors ++ r.errors

/-- The statistics of `n` trees that all have the statistics `r`. -/
def times (n : Nat) (r : Statistics) : Statistics where
  byType := n * r.byType
  logicalSize := min (n * r.logicalSize) (addressLimit - 1)
  occupiedSize := min (n * r.occupiedSize) (addressLimit - 1)
  compressedFiles := n * r.compressedFiles
  logicalHistogram := n * r.logicalHistogram
  occupiedHistogram := n * r.occupiedHistogram
  maxDepth := if n = 0 then 0 else r.maxDepth
  errors := (Array.replicate n r.errors).flatten

/-- The sizes are 64-bit numbers. -/
structure Fits (s : Statistics) : Prop where
  logicalSize_lt : s.logicalSize < addressLimit
  occupiedSize_lt : s.occupiedSize < addressLimit

variable {s r t : Statistics}

/-- Merged statistics always fit. -/
theorem Fits.merge (s r : Statistics) : (s.merge r).Fits where
  logicalSize_lt := by
    simp only [Statistics.merge, saturatingAdd, addressLimit]
    omega
  occupiedSize_lt := by
    simp only [Statistics.merge, saturatingAdd, addressLimit]
    omega

theorem merge_empty (hs : s.Fits) : s.merge .empty = s := by
  have hzero (n : Nat) : Vector.replicate n 0 = (0 : Vector Nat n) := rfl
  simp only [merge, empty, hzero, Vector.add_zero Nat.add_zero,
    saturatingAdd_zero hs.logicalSize_lt, saturatingAdd_zero hs.occupiedSize_lt, Nat.add_zero,
    Nat.max_zero, Array.append_empty]

theorem merge_assoc (s r t : Statistics) : (s.merge r).merge t = s.merge (r.merge t) := by
  simp only [merge, Vector.add_assoc Nat.add_assoc, saturatingAdd_assoc, Nat.add_assoc,
    Nat.max_assoc, Array.append_assoc]

theorem times_zero (r : Statistics) : r.times 0 = .empty := by
  have hzero (n : Nat) (v : Vector Nat n) : 0 * v = Vector.replicate n 0 :=
    Vector.zero_hmul Nat.zero_mul v
  simp only [times, empty, hzero, Nat.zero_mul, Nat.zero_min, if_true, Array.replicate_zero,
    Array.flatten_empty]

theorem times_succ (n : Nat) (r : Statistics) : r.times (n + 1) = (r.times n).merge r := by
  have hmul (k : Nat) (v : Vector Nat k) : (n + 1) * v = n * v + v := by
    ext i hi
    simp only [Vector.getElem_add, Vector.getElem_hmul, Nat.succ_mul]
  have hdepth : r.maxDepth = max (if n = 0 then 0 else r.maxDepth) r.maxDepth := by
    split <;> omega
  simp only [times, merge, hmul, saturatingAdd_mul, Nat.succ_mul, ← hdepth,
    if_neg (Nat.succ_ne_zero n), Array.replicate_succ, Array.flatten_push]

/-! ## Recording in merged statistics -/

theorem merge_count (s r : Statistics) (t : FileType) :
    (s.merge r).count t = s.merge (r.count t) := by
  simp only [merge, count, add_set_succ]

theorem merge_addRegular (s r : Statistics) (logical occupied : Nat) (compressed : Bool) :
    (s.merge r).addRegular logical occupied compressed =
      s.merge (r.addRegular logical occupied compressed) := by
  have hcompressed : (if compressed then s.compressedFiles + r.compressedFiles + 1
      else s.compressedFiles + r.compressedFiles) =
        s.compressedFiles + if compressed then r.compressedFiles + 1 else r.compressedFiles := by
    split <;> rfl
  simp only [merge, addRegular, add_set_succ, saturatingAdd_assoc, hcompressed]

theorem merge_addError (s r : Statistics) (e : TreeError) :
    (s.merge r).addError e = s.merge (r.addError e) := by
  simp only [merge, addError, Array.append_push]

theorem merge_reach (s r : Statistics) (depth : Nat) :
    (s.merge r).reach depth = s.merge (r.reach depth) := by
  simp only [merge, reach, Nat.max_assoc]

/-- **One finding.** What is recorded in merged statistics is recorded in the
second of them. -/
theorem merge_record (s r : Statistics) (f : Finding) :
    (s.merge r).record f = s.merge (r.record f) := by
  rcases f with ⟨depth, path, i | i | ⟨i, cause | occupied⟩ | i | ⟨nid, cause⟩⟩ <;>
    simp only [record, merge_count, merge_reach, merge_addError, merge_addRegular]

/-- **All findings.** -/
theorem merge_foldl_record (s r : Statistics) (fs : List Finding) :
    fs.foldl record (s.merge r) = s.merge (fs.foldl record r) := by
  induction fs generalizing r with
  | nil => rfl
  | cons f rest ih => rw [List.foldl_cons, merge_record, ih, List.foldl_cons]

/-- So a survey adds to the statistics what it gives on its own. -/
theorem answer_survey_merge [Lz4.Compressor] {sb : Superblock} {maxDepth : Nat} (hs : s.Fits) :
    (s.survey sb maxDepth).answer image =
      ((empty.survey sb maxDepth).answer image).map s.merge := by
  rw [answer_survey, answer_survey]
  cases (Inode.read sb sb.root).onImage image with
  | error cause => rfl
  | ok root =>
    simp only [Except.map]
    rw [← merge_foldl_record, merge_empty hs]

end Statistics

/-! ## Accumulators -/

namespace Mount

section

variable [Lz4.Compressor]
variable {δ : Type} [BlockDevice δ] {m n : Mount δ} {blockSize : Nat} {s t r : Statistics}

/-- What a number of surveys make of an accumulator, on a mount that may be
used in any way before and after each. -/
inductive Accumulates (m : Mount δ) (s : Statistics) : Nat → Mount δ → Statistics → Prop
  /-- There was no survey. -/
  | none : Accumulates m s 0 m s
  /-- The mount was used. -/
  | use {count : Nat} {n n' : Mount δ} {t : Statistics} :
      Accumulates m s count n t → n.Becomes n' → Accumulates m s count n' t
  /-- There was one more survey, whatever came of it. -/
  | survey {count : Nat} {n : Mount δ} {t : Statistics} : Accumulates m s count n t →
      Accumulates m s (count + 1) (n.accumulate t).2.2 (n.accumulate t).2.1

/-- A survey into an accumulator only uses the mount. -/
theorem becomes_accumulate (m : Mount δ) (s : Statistics) : m.Becomes (m.accumulate s).2.2 :=
  .perform _ .refl

theorem Accumulates.becomes {count : Nat} (h : m.Accumulates s count n t) : m.Becomes n := by
  induction h with
  | none => exact .refl
  | use _ hn ih => exact ih.trans hn
  | survey _ ih => exact ih.trans (becomes_accumulate ..)

/-- **One survey**, at any time in the life of a mount, adds what the first
would give on its own. -/
theorem Serves.survey_of_becomes (hm : m.Serves image blockSize) (hn : m.Becomes n)
    (hs : s.Fits) : (n.survey s).1 = (m.survey .empty).1.map s.merge := by
  obtain ⟨-, hsuperblock, hoptions⟩ := hn.keeps
  rw [(hm.of_becomes hn).survey_fst, hm.survey_fst, Statistics.answer_survey_merge hs,
    hsuperblock, hoptions]

/-- A survey into an accumulator hands back what it had if the survey fails,
and else what the survey gives. -/
theorem Serves.accumulate_eq (hm : m.Serves image blockSize) (s : Statistics) :
    ((m.accumulate s).1, (m.accumulate s).2.1) =
      match (m.survey s).1 with
      | .error cause => (.error cause, s)
      | .ok t => (.ok (), t) := by
  have hdone : ((m.accumulate s).1, (m.accumulate s).2.1) =
      (s.collect m.superblock m.options.maxDepth).answer image :=
    hm.delivers.perform_fst (Statistics.reads_collect (allows_of_validate hm.valid) ..)
  rw [hdone, hm.survey_fst, Statistics.answer_survey, Statistics.answer_collect]
  cases (Inode.read m.superblock m.superblock.root).onImage image <;> rfl

theorem Serves.accumulate_of_error {cause : Error} (hm : m.Serves image blockSize)
    (h : (m.survey s).1 = .error cause) :
    (m.accumulate s).1 = .error cause ∧ (m.accumulate s).2.1 = s := by
  have hdone := hm.accumulate_eq s
  rw [h] at hdone
  exact Prod.mk.inj hdone

theorem Serves.accumulate_of_ok (hm : m.Serves image blockSize) (h : (m.survey s).1 = .ok t) :
    (m.accumulate s).1 = .ok () ∧ (m.accumulate s).2.1 = t := by
  have hdone := hm.accumulate_eq s
  rw [h] at hdone
  exact Prod.mk.inj hdone

/-- What an accumulator keeps if no survey succeeds. -/
theorem Accumulates.eq_of_error {count : Nat} {cause : Error} (hm : m.Serves image blockSize)
    (hs : s.Fits) (hcause : (m.survey .empty).1 = .error cause)
    (h : m.Accumulates s count n t) : t = s := by
  induction h with
  | none => rfl
  | use _ _ ih => exact ih
  | @survey _ n t hn ih =>
    subst ih
    have hsurvey := hm.survey_of_becomes hn.becomes hs
    rw [hcause] at hsurvey
    exact ((hm.of_becomes hn.becomes).accumulate_of_error hsurvey).2

/-- What it has after `count` surveys that succeed. -/
theorem Accumulates.eq_of_ok {count : Nat} (hm : m.Serves image blockSize) (hs : s.Fits)
    (hr : (m.survey .empty).1 = .ok r) (h : m.Accumulates s count n t) :
    t = s.merge (r.times count) := by
  induction h with
  | none => rw [Statistics.times_zero, Statistics.merge_empty hs]
  | use _ _ ih => exact ih
  | @survey count n t hn ih =>
    have hsurvey := hm.survey_of_becomes hn.becomes (s := t) (ih ▸ .merge ..)
    rw [hr] at hsurvey
    have hadded := ((hm.of_becomes hn.becomes).accumulate_of_ok hsurvey).2
    rw [hadded, ih, Statistics.merge_assoc, Statistics.times_succ]

/-- **Surveys add up.** An accumulator may have any statistics, and the mount
may be used in any way between the surveys. A survey succeeds or fails as on
an empty accumulator. If it fails, the accumulator is left as it is, so none
of them changes it. If it succeeds, it adds what it gives on an empty one,
and `count` of them have added that many times the same figures. -/
theorem accumulates_merge_times {count : Nat} (hm : m.Serves image blockSize) (hs : s.Fits)
    (h : m.Accumulates s count n t) :
    (n.accumulate t).1 = (m.survey .empty).1.map (fun _ => ()) ∧
      (∀ cause, (m.survey .empty).1 = .error cause → t = s ∧ (n.accumulate t).2.1 = t) ∧
      ∀ r, (m.survey .empty).1 = .ok r →
        t = s.merge (r.times count) ∧ (n.accumulate t).2.1 = t.merge r := by
  cases hempty : (m.survey .empty).1 with
  | error cause =>
    have ht := h.eq_of_error hm hs hempty
    have hsurvey := hm.survey_of_becomes h.becomes (ht ▸ hs)
    rw [hempty] at hsurvey
    obtain ⟨hanswer, hkept⟩ := (hm.of_becomes h.becomes).accumulate_of_error hsurvey
    exact ⟨hanswer, fun _ _ => ⟨ht, hkept⟩, fun _ hr => by cases hr⟩
  | ok r =>
    have ht := h.eq_of_ok hm hs hempty
    have hsurvey := hm.survey_of_becomes h.becomes (s := t) (ht ▸ .merge ..)
    rw [hempty] at hsurvey
    obtain ⟨hanswer, hadded⟩ := (hm.of_becomes h.becomes).accumulate_of_ok hsurvey
    refine ⟨hanswer, fun _ hcause => (nomatch hcause), fun r' hr => ?_⟩
    cases hr
    exact ⟨ht, hadded⟩

end

section
attribute [local instance] Lz4.Compressor.greedy

/-- An accumulator whose sizes have reached the largest number. -/
def fullAccumulator : Statistics :=
  Statistics.empty.addRegular (addressLimit - 1) (addressLimit - 1) true

/-- Two surveys of the small tree into a full accumulator count every file
twice, and the sizes stay where they are. -/
theorem accumulates_merge_times_treeRoot :
    ∃ (m n : Mount MemoryDevice) (r t : Statistics), m.Serves treeImage 512 ∧
      fullAccumulator.Fits ∧ m.Accumulates fullAccumulator 2 n t ∧
      (m.survey .empty).1 = .ok r ∧ t = fullAccumulator.merge (r.times 2) ∧
      t.compressedFiles = 1 + 2 * r.compressedFiles ∧ t.logicalSize = addressLimit - 1 := by
  obtain ⟨m, hsuperblock, -, hm⟩ := exists_serves_treeImage 0
  obtain ⟨r, hr⟩ : ∃ r, (m.survey .empty).1 = .ok r :=
    ⟨_, hm.survey_eq_ok.mpr ⟨treeRoot, hm.readRoot_tree hsuperblock, rfl⟩⟩
  have hfits : fullAccumulator.Fits := ⟨by decide, by decide⟩
  have htwice := Accumulates.survey (.survey (.none (m := m) (s := fullAccumulator)))
  obtain ⟨-, -, hok⟩ := accumulates_merge_times hm hfits htwice
  have ht := (hok r hr).1
  refine ⟨m, _, r, _, hm, hfits, htwice, hr, ht, ?_, ?_⟩
  · rw [ht]
    rfl
  · have hfull : fullAccumulator.logicalSize = addressLimit - 1 := by decide
    rw [ht]
    change saturatingAdd fullAccumulator.logicalSize _ = _
    rw [hfull, saturatingAdd]
    omega

end

end Mount

end Erofs
