import Erofs.Proofs.Bytes
import Erofs.Proofs.Lz4.Format
/-!
# The greedy compressor makes blocks

Every sequence of the greedy plan repeats bytes that are there: the table
only holds earlier positions, the bytes at a candidate are compared before
it is taken, and a match is only widened over bytes that agree
(`cuts_plan`). So the source cut by its plan is a block that decodes to
the source, and it is what the greedy compressor writes
(`isBlock_greedy`).
-/

namespace Erofs.Lz4

variable {src : ByteArray} {start position bound a b n : Nat} {table : Table}

/-- The `n` bytes at two positions are the same. -/
def Agree (src : ByteArray) (a b n : Nat) : Prop :=
  ∀ i, i < n → byteAt src (a + i) = byteAt src (b + i)

theorem Agree.zero (src : ByteArray) (a b : Nat) : Agree src a b 0 := by
  intro i hi
  exact absurd hi (Nat.not_lt_zero i)

theorem Agree.one (h : byteAt src a = byteAt src b) : Agree src a b 1 := by
  intro i hi
  obtain rfl : i = 0 := by omega
  exact h

theorem Agree.add {m : Nat} (h : Agree src a b m) (h' : Agree src (a + m) (b + m) n) :
    Agree src a b (m + n) := by
  intro i hi
  rcases Nat.lt_or_ge i m with hlt | hge
  · exact h i hlt
  · have := h' (i - m) (by omega)
    rwa [Nat.add_assoc, Nat.add_assoc, Nat.add_sub_cancel' hge] at this

/-! ## Comparing bytes -/

/-- A word of at most eight bytes is the number that they hold. -/
theorem toNat_word (src : ByteArray) (position : Nat) {width : Nat} (h : width ≤ 8) :
    (word src position width).toNat = littleEndian src position width := by
  induction width generalizing position with
  | zero => rfl
  | succ width ih =>
    have hbyte := (byteAt src position).toNat_lt
    have hrest := littleEndian_lt src (position + 1) width
    have hpow : 256 ^ width ≤ 256 ^ 7 := Nat.pow_le_pow_right (by decide) (by omega)
    rw [word, UInt64.toNat_or, UInt64.toNat_shiftLeft, ih _ (by omega), UInt8.toNat_toUInt64,
      littleEndian]
    have hshift : littleEndian src (position + 1) width <<< ((8 : UInt64).toNat % 64) % 2 ^ 64 =
        littleEndian src (position + 1) width <<< 8 := by
      rw [show (8 : UInt64).toNat % 64 = 8 from rfl, Nat.shiftLeft_eq]
      omega
    rw [hshift, Nat.or_comm, ← Nat.shiftLeft_add_eq_or_of_lt hbyte, Nat.shiftLeft_eq]
    omega

/-- A candidate repeats the shortest match. -/
theorem agree_of_sameStart (h : sameStart src a b = true) : Agree src a b minMatch := by
  have hword : word src a minMatch = word src b minMatch := by simpa [sameStart] using h
  have hnumber := congrArg UInt64.toNat hword
  rw [toNat_word _ _ (by decide), toNat_word _ _ (by decide)] at hnumber
  intro i hi
  exact byteAt_eq_of_littleEndian_eq hnumber hi

/-- **Widening a match backwards** takes bytes that agree. -/
theorem matchStart_eq (ha : bound ≤ a) (hb : bound ≤ b) :
    ∃ k, k ≤ bound ∧ matchStart src a b bound = b - k ∧ Agree src (a - k) (b - k) k := by
  induction bound generalizing a b with
  | zero => exact ⟨0, Nat.le_refl 0, rfl, Agree.zero src _ _⟩
  | succ bound ih =>
    rw [matchStart]
    split
    · next hbyte =>
      obtain ⟨k, hk, heq, hagree⟩ := ih (a := a - 1) (b := b - 1) (by omega) (by omega)
      refine ⟨k + 1, by omega, by rw [heq]; omega, ?_⟩
      rw [(by omega : a - (k + 1) = a - 1 - k), (by omega : b - (k + 1) = b - 1 - k)]
      refine hagree.add (Agree.one ?_)
      rwa [Nat.sub_add_cancel (by omega), Nat.sub_add_cancel (by omega)]
    · exact ⟨0, Nat.zero_le _, rfl, Agree.zero src _ _⟩

/-- **Widening a match forwards** takes bytes that agree. -/
theorem matchEnd_eq (src : ByteArray) (a b bound : Nat) :
    ∃ k, k ≤ bound ∧ matchEnd src a b bound = b + k ∧ Agree src a b k := by
  induction bound generalizing a b with
  | zero => exact ⟨0, Nat.le_refl 0, rfl, Agree.zero src _ _⟩
  | succ bound ih =>
    rw [matchEnd]
    split
    · next hbyte =>
      obtain ⟨k, hk, heq, hagree⟩ := ih (a + 1) (b + 1)
      refine ⟨k + 1, by omega, by rw [heq]; omega, ?_⟩
      rw [Nat.add_comm k 1]
      exact (Agree.one hbyte).add hagree
    · exact ⟨0, Nat.zero_le _, rfl, Agree.zero src _ _⟩

/-! ## Sequences of a source -/

/-- **A sequence is one of a source**: it starts there, and its match
repeats bytes of the source. -/
structure Sequence.Cuts (src : ByteArray) (start : Nat) (s : Sequence) : Prop where
  distance_pos : 0 < s.distance
  distance_le : s.distance ≤ maxDistance
  minMatch_le : minMatch ≤ s.matched
  reaches : s.distance ≤ start + s.literals
  agree : Agree src (start + s.literals - s.distance) (start + s.literals) s.matched
  le_size : start + s.literals + s.matched ≤ src.size

/-- Sequences cut a source from `start` on, up to its last `tail` bytes. -/
def CutsFrom (src : ByteArray) (tail : Nat) : (start : Nat) → List Sequence → Prop
  | start, [] => start + tail = src.size
  | start, s :: rest => s.Cuts src start ∧ CutsFrom src tail (start + s.literals + s.matched) rest

/-- An earlier position that starts with the same bytes. -/
structure Candidate.Holds (src : ByteArray) (c : Candidate) : Prop where
  lt : c.earlier < c.position
  near : c.position - c.earlier ≤ maxDistance
  agree : Agree src c.earlier c.position minMatch
  margin : c.position + searchMargin ≤ src.size

/-- **The sequence that a candidate leads to** is one of the source. -/
theorem Candidate.cuts_sequence {c : Candidate} (h : c.Holds src) (hstart : start ≤ c.position) :
    (c.sequence src start).Cuts src start ∧ c.position < start +
      (c.sequence src start).literals + (c.sequence src start).matched := by
  obtain ⟨hlt, hnear, hagree, hmargin⟩ := h
  have hearly : min c.earlier (c.position - start) ≤ c.earlier := Nat.min_le_left ..
  have hlate : min c.earlier (c.position - start) ≤ c.position - start := Nat.min_le_right ..
  obtain ⟨k, hk, hfirst, hbefore⟩ := @matchStart_eq src _ c.earlier c.position hearly (by omega)
  obtain ⟨j, hj, hlast, hafter⟩ := matchEnd_eq src (c.earlier + minMatch) (c.position + minMatch)
    (src.size - matchMargin - (c.position + minMatch))
  have hwhole : Agree src (c.earlier - k) (c.position - k) (k + (minMatch + j)) := by
    refine hbefore.add ?_
    rw [Nat.sub_add_cancel (by omega), Nat.sub_add_cancel (by omega)]
    exact hagree.add hafter
  have hliterals : start + (c.sequence src start).literals = c.position - k := by
    simp only [Candidate.sequence, hfirst]
    omega
  have hmatched : (c.sequence src start).matched = k + (minMatch + j) := by
    simp only [Candidate.sequence, hfirst, hlast]
    omega
  have hdistance : (c.sequence src start).distance = c.position - c.earlier := rfl
  simp only [minMatch, searchMargin, matchMargin] at *
  refine ⟨⟨?_, ?_, ?_, ?_, ?_, ?_⟩, ?_⟩
  · omega
  · omega
  · rw [hmatched]
    simp only [minMatch]
    omega
  · omega
  · rw [hliterals, hmatched, hdistance,
      (by omega : c.position - k - (c.position - c.earlier) = c.earlier - k)]
    exact hwhole
  · omega
  · omega

/-! ## The search -/

/-- All places of a table are before a position. -/
def Table.Before (table : Table) (position : Nat) : Prop := ∀ e, e ∈ table → e < position

theorem Table.Before.mono (h : table.Before a) (hab : a ≤ b) : table.Before b := by
  intro e he
  exact Nat.lt_of_lt_of_le (h e he) hab

theorem Table.Before.set (h : table.Before b) (place : Nat) (hab : a < b) :
    Table.Before (table.setIfInBounds place a) b := by
  intro e he
  rcases Array.mem_or_eq_of_mem_setIfInBounds he with hmem | rfl
  · exact h e hmem
  · exact hab

theorem Table.Before.getD (h : table.Before b) (place : Nat) (hb : 0 < b) :
    table.getD place 0 < b := by
  unfold Array.getD
  split
  · exact h _ (Array.getElem_mem _)
  · exact hb

/-- **What the search finds** holds, and is not before where it began. -/
theorem holds_of_search {failures : Nat} {c : Candidate} {table' : Table} (hpos : 0 < position)
    (hbefore : table.Before position) (h : search src failures position table = (some c, table')) :
    c.Holds src ∧ position ≤ c.position ∧ table'.Before (c.position + 1) := by
  -- without a candidate the position moves on, and the table takes it in
  induction hn : src.size + 1 - position using Nat.strongRecOn
    generalizing failures position table with
  | ind n ih =>
    rw [search] at h
    split at h
    · cases h
    · next hmargin =>
      have hearlier := hbefore.getD (hash src position) hpos
      have htable := (hbefore.mono (Nat.le_succ position)).set (hash src position)
        (Nat.lt_succ_self position)
      simp only at h
      split at h
      · next hfound =>
        cases h
        exact ⟨⟨hearlier, hfound.1, agree_of_sameStart hfound.2, Nat.le_of_not_lt hmargin⟩,
          Nat.le_refl _, htable⟩
      · obtain ⟨hholds, hle, hafter⟩ := ih _ (by omega) (by omega) (htable.mono (by omega)) h rfl
        exact ⟨hholds, by omega, hafter⟩

/-! ## The plan -/

/-- **The plan from some position on** cuts the source there. -/
theorem cutsFrom_planFrom {before : List Sequence} (hle : start ≤ src.size)
    (hbefore : table.Before (max start 1)) :
    ∃ new, (planFrom src start table before).sequences = before.reverse ++ new ∧
      CutsFrom src (planFrom src start table before).tail start new := by
  -- the next part starts behind the match, which is behind all places so far
  induction hn : src.size - start using Nat.strongRecOn generalizing start table before with
  | ind n ih =>
    rw [planFrom]
    split
    · exact ⟨[], by simp, Nat.add_sub_cancel' hle⟩
    · next hmargin =>
      split
      · exact ⟨[], by simp, Nat.add_sub_cancel' hle⟩
      · next c table' hsearch =>
        obtain ⟨hholds, hstart, htable⟩ := holds_of_search (by omega) hbefore hsearch
        obtain ⟨hcuts, hpast⟩ := @Candidate.cuts_sequence src start c hholds (by omega)
        have hmatched := c.matched_pos src start
        have hsize := hcuts.le_size
        generalize hend : start + (c.sequence src start).literals +
          (c.sequence src start).matched = next at *
        have hnext := (htable.mono hpast).set (hash src (next - 2)) (by omega : next - 2 < next)
        obtain ⟨new, hnew, hrest⟩ := @ih _ (by omega) next _ (c.sequence src start :: before) hsize
          (hnext.mono (Nat.le_max_left ..)) rfl
        subst hend
        refine ⟨c.sequence src start :: new, ?_, hcuts, hrest⟩
        rw [hnew, List.reverse_cons, List.append_assoc, List.singleton_append]

/-- **The greedy plan cuts its source.** -/
theorem cuts_plan (src : ByteArray) : CutsFrom src (plan src).tail 0 (plan src).sequences := by
  unfold plan
  split
  · exact Nat.zero_add _
  · have hbefore : Table.Before (Array.replicate tableSize 0) (max 0 1) := by
      intro e he
      rw [Array.mem_replicate] at he
      omega
    obtain ⟨new, hnew, hcuts⟩ := @cutsFrom_planFrom src 0 _ [] (Nat.zero_le _) hbefore
    rw [List.reverse_nil, List.nil_append] at hnew
    rwa [hnew]

/-! ## The block of a plan -/

/-- **Bytes that agree are repeated**: what is there of the source becomes
what is there a match later. -/
theorem repeatBack_take {distance : Nat} (hpos : 0 < distance) (hle : distance ≤ position)
    (hagree : Agree src (position - distance) position n) (hsize : position + n ≤ src.size) :
    repeatBack distance n (src.data.toList.take position) =
      src.data.toList.take (position + n) := by
  induction n generalizing position with
  | zero => rfl
  | succ n ih =>
    have hlength : (src.data.toList.take position).length = position :=
      List.length_take_of_le (by simp only [Array.length_toList, ByteArray.size_data]; omega)
    have hlt : position < src.data.toList.length := by
      simp only [Array.length_toList, ByteArray.size_data]
      omega
    have hbyte : (src.data.toList.take position).getD (position - distance) 0 =
        src.data.toList[position] := by
      have h := hagree 0 (by omega)
      rw [Nat.add_zero, Nat.add_zero, byteAt_eq_getD, byteAt_eq_getD, List.getD_eq_getElem?_getD,
        List.getD_eq_getElem?_getD, List.getElem?_eq_getElem hlt] at h
      rw [List.getD_eq_getElem?_getD, List.getElem?_take_of_lt (by omega), h]
      rfl
    have htake : src.data.toList.take position ++ [src.data.toList[position]] =
        src.data.toList.take (position + 1) := by
      rw [List.take_add_one, List.getElem?_eq_getElem hlt]
      rfl
    rw [repeatBack, hlength, hbyte, htake, ih (by omega) (fun i hi => ?_) (by omega),
      Nat.add_right_comm, Nat.add_assoc]
    have h := hagree (i + 1) (by omega)
    rwa [(by omega : position - distance + (i + 1) = position + 1 - distance + i),
      (by omega : position + (i + 1) = position + 1 + i)] at h

/-- A sequence of a source with its literal bytes. -/
def stepAt (src : ByteArray) (start : Nat) (s : Sequence) (h : s.Cuts src start) : Step where
  literals := (src.data.toList.drop start).take s.literals
  distance := s.distance
  matched := s.matched
  distance_pos := h.distance_pos
  distance_le := h.distance_le
  minMatch_le := h.minMatch_le

/-- All sequences from a position on. -/
def stepsFrom (src : ByteArray) {tail : Nat} :
    (start : Nat) → (sequences : List Sequence) → CutsFrom src tail start sequences → List Step
  | _, [], _ => []
  | start, s :: rest, h =>
    stepAt src start s h.1 :: stepsFrom src (start + s.literals + s.matched) rest h.2

variable {s : Sequence} {sequences : List Sequence} {tail : Nat}

theorem take_append_literals (h : s.Cuts src start) :
    src.data.toList.take start ++ (stepAt src start s h).literals =
      src.data.toList.take (start + s.literals) :=
  (List.take_add ..).symm

/-- **A sequence of a source goes on with the source.** -/
theorem extend_stepAt (h : s.Cuts src start) :
    (stepAt src start s h).extend (src.data.toList.take start) =
      src.data.toList.take (start + s.literals + s.matched) := by
  rw [Step.extend, take_append_literals]
  exact repeatBack_take h.distance_pos h.reaches h.agree h.le_size

/-- No sequence of a source reaches back past its start. -/
theorem reachesFrom_stepsFrom (h : CutsFrom src tail start sequences) :
    ReachesFrom (src.data.toList.take start) (stepsFrom src start sequences h) := by
  induction sequences generalizing start with
  | nil => trivial
  | cons s rest ih =>
    have hlength : (src.data.toList.take (start + s.literals)).length = start + s.literals := by
      have := h.1.le_size
      refine List.length_take_of_le ?_
      simp only [Array.length_toList, ByteArray.size_data]
      omega
    refine ⟨?_, ?_⟩
    · rw [take_append_literals, hlength]
      exact h.1.reaches
    · rw [extend_stepAt]
      exact ih h.2

/-- **The sequences of a source expand to it**, up to the last bytes. -/
theorem expandFrom_stepsFrom (h : CutsFrom src tail start sequences) :
    expandFrom (src.data.toList.take start) (stepsFrom src start sequences h) =
      src.data.toList.take (src.size - tail) := by
  induction sequences generalizing start with
  | nil =>
    have hsize : start + tail = src.size := h
    rw [stepsFrom, expandFrom, ← hsize, Nat.add_sub_cancel]
  | cons s rest ih =>
    rw [stepsFrom, expandFrom, extend_stepAt]
    exact ih h.2

/-- The literal bytes of a sequence are where it starts. -/
theorem literalsAt_eq (src : ByteArray) (start length : Nat) :
    literalsAt src start length = (src.data.toList.drop start).take length := by
  rw [literalsAt, slice, ByteArray.data_extract, Array.toList_extract, List.extract_eq_take_drop,
    Nat.add_sub_cancel_left]

/-- **Writing some sequences** writes what they are, and then the last
bytes. -/
theorem toList_writeFrom (h : CutsFrom src tail start sequences) (out : ByteArray) :
    (writeFrom src tail start sequences out).data.toList =
      out.data.toList ++ ((stepsFrom src start sequences h).flatMap Step.bytes ++
        tailBytes (src.data.toList.drop (src.size - tail))) := by
  induction sequences generalizing start out with
  | nil =>
    have hsize : start + tail = src.size := h
    have hstart : src.size - tail = start := by omega
    have htail : (src.data.toList.drop start).take tail = src.data.toList.drop start := by
      refine List.take_of_length_le ?_
      rw [List.length_drop, Array.length_toList, ByteArray.size_data]
      omega
    rw [writeFrom, literalsAt_eq, htail, hstart]
    simp [stepsFrom]
  | cons s rest ih =>
    rw [writeFrom, ih h.2, literalsAt_eq]
    simp [stepsFrom, Step.bytes, stepAt]

/-- The block to which the greedy plan leads. -/
def greedyBlock (src : ByteArray) : Block where
  steps := stepsFrom src 0 (plan src).sequences (cuts_plan src)
  tail := src.data.toList.drop (src.size - (plan src).tail)
  reaches := reachesFrom_stepsFrom (cuts_plan src)

/-- **It expands to the source.** -/
theorem expansion_greedyBlock (src : ByteArray) :
    (greedyBlock src).expansion = src.data.toList := by
  have h := expandFrom_stepsFrom (cuts_plan src)
  rw [List.take_zero] at h
  rw [Block.expansion, greedyBlock, h, List.take_append_drop]

/-- **The greedy compressor makes blocks.** -/
theorem isBlock_greedy (plain : ByteArray) : IsBlock (Compressor.greedy.block plain) plain := by
  refine ⟨greedyBlock plain, ?_, expansion_greedyBlock plain⟩
  show _ = (writeFrom plain (plan plain).tail 0 (plan plain).sequences .empty).data.toList
  rw [toList_writeFrom (cuts_plan plain)]
  rfl

end Erofs.Lz4
