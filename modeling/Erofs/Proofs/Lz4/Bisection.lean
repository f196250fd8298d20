import Erofs.Proofs.Compression.Recovery
import Mathlib.Order.Bounds.Basic
/-!
# What bisection finds

The search for a front part that fits keeps one that fits and a longer one
that does not (`Brackets`), whatever the sizes of the others are. So it ends
at a part that fits, where the next longer one does not
(`Brackets.bisect_eq`), and reports the size of that part (`fit_accounts`).

A longer part may fit all the same. The search takes each part that does
not fit as telling of all longer ones, and it finds the longest part exactly
if those that it asks for are (`fit_isLongest_iff`). They are if the sizes
only grow, but a block can get shorter when bytes are added to its source
(`dipping`).
-/

namespace Erofs.Lz4

variable {size other : Nat → Nat} {length capacity low high produced c : Nat}

/-! ## One step -/

/-- The length in the middle of two. -/
def halfway (low high : Nat) : Nat := low + (high - low) / 2

/-- The lengths between two whose sizes bisection asks for. -/
def askedBetween (size : Nat → Nat) (capacity low high : Nat) : List Nat :=
  if high - low ≤ 1 then []
  else
    halfway low high ::
      if size (halfway low high) ≤ capacity then askedBetween size capacity (halfway low high) high
      else askedBetween size capacity low (halfway low high)
termination_by high - low
decreasing_by
  all_goals
    unfold halfway
    omega

/-- **What bisection keeps**: the part of length `low` fits, and the longer
one of length `high` does not. -/
structure Brackets (size : Nat → Nat) (capacity low high : Nat) : Prop where
  lt : low < high
  fits : size low ≤ capacity
  exceeds : capacity < size high

/-- If the part halfway fits, the search goes on above it, -/
theorem bisect_of_fits (hwide : ¬high - low ≤ 1) (hfits : size (halfway low high) ≤ capacity) :
    bisect size capacity low high produced =
      bisect size capacity (halfway low high) high (size (halfway low high)) := by
  rw [bisect.eq_def, if_neg hwide]
  exact if_pos hfits

theorem askedBetween_of_fits (hwide : ¬high - low ≤ 1)
    (hfits : size (halfway low high) ≤ capacity) :
    askedBetween size capacity low high =
      halfway low high :: askedBetween size capacity (halfway low high) high := by
  rw [askedBetween, if_neg hwide, if_pos hfits]

/-- and if it does not, below it. -/
theorem bisect_of_exceeds (hwide : ¬high - low ≤ 1)
    (hexceeds : ¬size (halfway low high) ≤ capacity) :
    bisect size capacity low high produced =
      bisect size capacity low (halfway low high) produced := by
  rw [bisect.eq_def, if_neg hwide]
  exact if_neg hexceeds

theorem askedBetween_of_exceeds (hwide : ¬high - low ≤ 1)
    (hexceeds : ¬size (halfway low high) ≤ capacity) :
    askedBetween size capacity low high =
      halfway low high :: askedBetween size capacity low (halfway low high) := by
  rw [askedBetween, if_neg hwide, if_neg hexceeds]

/-! ## Where it ends -/

/-- **Where bisection between two lengths ends**: at a length that fits, as
the next one does not. That one was asked for, unless it was the upper end
to begin with, and what was asked for and did not fit is above. -/
structure EndsAt (size : Nat → Nat) (capacity low high c : Nat) : Prop where
  low_le : low ≤ c
  lt_high : c < high
  fits : size c ≤ capacity
  next_exceeds : capacity < size (c + 1)
  next_asked : c + 1 = high ∨ c + 1 ∈ askedBetween size capacity low high
  lt_of_asked : ∀ n ∈ askedBetween size capacity low high, capacity < size n → c < n

namespace EndsAt

/-- The end of the search above the middle is that of the whole search. -/
theorem of_fits (h : EndsAt size capacity (halfway low high) high c) (hwide : ¬high - low ≤ 1)
    (hfits : size (halfway low high) ≤ capacity) : EndsAt size capacity low high c := by
  have hasked := askedBetween_of_fits hwide hfits
  refine ⟨Nat.le_trans (Nat.le_add_right ..) h.low_le, h.lt_high, h.fits, h.next_exceeds, ?_, ?_⟩
  · rw [hasked]
    exact h.next_asked.imp_right (List.mem_cons_of_mem _)
  · rw [hasked]
    intro n hn hexceeds
    rcases List.mem_cons.mp hn with rfl | hn
    · exact absurd hfits (Nat.not_le.mpr hexceeds)
    · exact h.lt_of_asked n hn hexceeds

/-- So is that of the search below it. -/
theorem of_exceeds (h : EndsAt size capacity low (halfway low high) c) (hwide : ¬high - low ≤ 1)
    (hexceeds : ¬size (halfway low high) ≤ capacity) : EndsAt size capacity low high c := by
  have hasked := askedBetween_of_exceeds hwide hexceeds
  have hmiddle : halfway low high < high := by
    unfold halfway
    omega
  refine ⟨h.low_le, Nat.lt_trans h.lt_high hmiddle, h.fits, h.next_exceeds, .inr ?_, ?_⟩
  · rw [hasked]
    rcases h.next_asked with hnext | hnext
    · exact hnext ▸ List.mem_cons_self
    · exact List.mem_cons_of_mem _ hnext
  · rw [hasked]
    intro n hn hn'
    rcases List.mem_cons.mp hn with rfl | hn
    · exact h.lt_high
    · exact h.lt_of_asked n hn hn'

end EndsAt

/-- **Bisection ends**, and reports the size of the part that it ends at,
whatever the sizes in between are. -/
theorem Brackets.bisect_eq (h : Brackets size capacity low high) :
    ∃ c, bisect size capacity low high (size low) = ⟨c, size c⟩ ∧
      EndsAt size capacity low high c := by
  obtain ⟨hlt, hfits, hexceeds⟩ := h
  generalize hproduced : size low = produced
  -- along the steps of the search, which keep a bracket
  fun_induction bisect size capacity low high produced with
  | case1 low high produced hnarrow =>
    obtain rfl : high = low + 1 := by omega
    refine ⟨low, by rw [hproduced], Nat.le_refl _, hlt, hfits, hexceeds, .inl rfl, ?_⟩
    rw [askedBetween, if_pos hnarrow]
    intro n hn
    cases hn
  | case2 low high produced hwide middle attempt hmiddle ih =>
    obtain ⟨c, hc, hends⟩ := ih (by omega) hmiddle hexceeds rfl
    exact ⟨c, hc, hends.of_fits hwide hmiddle⟩
  | case3 low high produced hwide middle attempt hmiddle ih =>
    obtain ⟨c, hc, hends⟩ := ih (by omega) hfits (Nat.lt_of_not_le hmiddle) hproduced
    exact ⟨c, hc, hends.of_exceeds hwide hmiddle⟩

/-! ## The whole search -/

/-- How a search begins: all fits, nothing at all does, or there are two
ends. -/
theorem budget_cases (size : Nat → Nat) (length capacity : Nat) :
    size length ≤ capacity ∨ (capacity < size length ∧ capacity < size 0) ∨
      Brackets size capacity 0 length := by
  rcases Nat.lt_or_ge capacity (size length) with hwhole | hwhole
  · rcases Nat.lt_or_ge capacity (size 0) with hempty | hempty
    · exact .inr (.inl ⟨hwhole, hempty⟩)
    · have hpos : 0 < length := by
        by_contra hzero
        obtain rfl : length = 0 := by omega
        exact absurd hempty (Nat.not_le.mpr hwhole)
      exact .inr (.inr ⟨hpos, hempty, hwhole⟩)
  · exact .inl hwhole

theorem fit_of_lt_empty (hwhole : capacity < size length) (hempty : capacity < size 0) :
    fit size length capacity = ⟨0, 0⟩ := by
  rw [fit, if_neg (Nat.not_le.mpr hwhole), if_pos hempty]

theorem fit_of_brackets (h : Brackets size capacity 0 length) :
    fit size length capacity = bisect size capacity 0 length (size 0) := by
  rw [fit, if_neg (Nat.not_le.mpr h.exceeds), if_neg (Nat.not_lt.mpr h.fits)]

/-- **A result that a caller can rely on**, whatever the sizes are. -/
structure Fit.Accounts (size : Nat → Nat) (length capacity : Nat) (f : Fit) : Prop where
  /-- It is about a front part, -/
  consumed_le : f.consumed ≤ length
  /-- and about a block within the budget. -/
  produced_le : f.produced ≤ capacity
  /-- The block is that of the part, unless not even nothing fits. -/
  produced_eq : (f = ⟨0, 0⟩ ∧ capacity < size 0) ∨ f.produced = size f.consumed
  /-- All is taken exactly if all fits. -/
  whole_iff : 0 < length → (f.consumed = length ↔ size length ≤ capacity)
  /-- The part that is one byte longer does not fit. -/
  next_exceeds : f.consumed < length → size 0 ≤ capacity → capacity < size (f.consumed + 1)

/-- **The search accounts for what it reports.** -/
theorem fit_accounts (size : Nat → Nat) (length capacity : Nat) :
    (fit size length capacity).Accounts size length capacity := by
  rcases budget_cases size length capacity with hwhole | ⟨hwhole, hempty⟩ | hbrackets
  · rw [fit_of_le hwhole]
    exact {
      consumed_le := Nat.le_refl _
      produced_le := hwhole
      produced_eq := .inr rfl
      whole_iff := fun _ => iff_of_true rfl hwhole
      next_exceeds := fun hlt _ => absurd hlt (Nat.lt_irrefl _) }
  · rw [fit_of_lt_empty hwhole hempty]
    exact {
      consumed_le := Nat.zero_le _
      produced_le := Nat.zero_le _
      produced_eq := .inl ⟨rfl, hempty⟩
      whole_iff := fun hpos => iff_of_false (Nat.ne_of_lt hpos) (Nat.not_le.mpr hwhole)
      next_exceeds := fun _ hfits => absurd hfits (Nat.not_le.mpr hempty) }
  · obtain ⟨c, hc, hends⟩ := hbrackets.bisect_eq
    have hlt := hends.lt_high
    rw [fit_of_brackets hbrackets, hc]
    exact {
      consumed_le := Nat.le_of_lt hlt
      produced_le := hends.fits
      produced_eq := .inr rfl
      whole_iff := fun _ => iff_of_false (Nat.ne_of_lt hlt) (Nat.not_le.mpr hbrackets.exceeds)
      next_exceeds := fun _ _ => hends.next_exceeds }

/-- **Compressing into a budget accounts for what it reports**, and so does
the same search with any other compression. -/
theorem compressInto_accounts [Compressor] (compress : ByteArray → ByteArray)
    (src image : ByteArray) (capacity : Nat) :
    (fit (fun length => (compress (slice src 0 length)).size) src.size capacity).Accounts
        (fun length => (compress (slice src 0 length)).size) src.size capacity ∧
      ∃ found, (compressInto src capacity).onImage image = .ok found ∧
        found = fit (fun length => (Compressor.block (slice src 0 length)).size) src.size capacity ∧
        found.Accounts (frontSize src) src.size capacity := by
  have hother := fit_accounts (fun length => (compress (slice src 0 length)).size) src.size capacity
  have hown := fit_accounts (frontSize src) src.size capacity
  exact ⟨hother, _, onImage_compressInto .., rfl, hown⟩

/-! ## The longest part -/

/-- **The longest part that fits**, with its size, and nothing if none
fits. -/
def Fit.IsLongest (size : Nat → Nat) (length capacity : Nat) (f : Fit) : Prop :=
  (f = ⟨0, 0⟩ ∧ ∀ n, n ≤ length → capacity < size n) ∨
    (IsGreatest { n | n ≤ length ∧ size n ≤ capacity } f.consumed ∧ f.produced = size f.consumed)

/-- The lengths whose sizes the search asks for. -/
def asked (size : Nat → Nat) (length capacity : Nat) : List Nat :=
  length ::
    if size length ≤ capacity then []
    else 0 :: if capacity < size 0 then [] else askedBetween size capacity 0 length

/-- **A length is telling** if no longer part fits when its own does not. -/
def Telling (size : Nat → Nat) (length capacity n : Nat) : Prop :=
  capacity < size n → ∀ m, n < m → m ≤ length → capacity < size m

theorem bisect_congr (h : ∀ n ∈ askedBetween size capacity low high, other n = size n) :
    bisect other capacity low high produced = bisect size capacity low high produced := by
  fun_induction bisect size capacity low high produced with
  | case1 low high produced hnarrow => rw [bisect, if_pos hnarrow]
  | case2 low high produced hwide middle attempt hmiddle ih =>
    rw [askedBetween_of_fits hwide hmiddle] at h
    obtain ⟨hsame, hrest⟩ := List.forall_mem_cons.mp h
    rw [bisect_of_fits hwide (hsame.trans_le hmiddle), hsame]
    exact ih hrest
  | case3 low high produced hwide middle attempt hmiddle ih =>
    rw [askedBetween_of_exceeds hwide hmiddle] at h
    obtain ⟨hsame, hrest⟩ := List.forall_mem_cons.mp h
    have hover : ¬other (halfway low high) ≤ capacity := by
      rw [hsame]
      exact hmiddle
    rw [bisect_of_exceeds hwide hover]
    exact ih hrest

/-- **The search looks at no other sizes** than those it asks for. -/
theorem fit_congr (h : ∀ n ∈ asked size length capacity, other n = size n) :
    fit other length capacity = fit size length capacity := by
  obtain ⟨hlength, hrest⟩ := List.forall_mem_cons.mp h
  by_cases hwhole : size length ≤ capacity
  · rw [fit_of_le hwhole, fit_of_le (hlength.trans_le hwhole), hlength]
  · rw [if_neg hwhole] at hrest
    obtain ⟨hempty, hrest⟩ := List.forall_mem_cons.mp hrest
    unfold fit
    simp only [hlength, hempty, if_neg hwhole]
    split
    · rfl
    · next hfits =>
      rw [if_neg hfits] at hrest
      exact bisect_congr hrest

theorem mem_asked_of_brackets (h : Brackets size capacity 0 length) {n : Nat} :
    n ∈ asked size length capacity ↔
      n = length ∨ n = 0 ∨ n ∈ askedBetween size capacity 0 length := by
  rw [asked, if_neg (Nat.not_le.mpr h.exceeds), if_neg (Nat.not_lt.mpr h.fits), List.mem_cons,
    List.mem_cons]

/-- The length at which bisection ends is the greatest that fits exactly if
all that was asked for is telling. -/
theorem EndsAt.isGreatest_iff (h : EndsAt size capacity 0 length c)
    (hbrackets : Brackets size capacity 0 length) :
    IsGreatest { n | n ≤ length ∧ size n ≤ capacity } c ↔
      ∀ n ∈ asked size length capacity, Telling size length capacity n := by
  constructor
  · rintro ⟨-, hgreatest⟩ n hn hexceeds m hm hlength
    have hbelow : c < n := by
      rcases (mem_asked_of_brackets hbrackets).mp hn with rfl | rfl | hn
      · exact h.lt_high
      · exact absurd hbrackets.fits (Nat.not_le.mpr hexceeds)
      · exact h.lt_of_asked n hn hexceeds
    by_contra hfits
    have hle : m ≤ c := hgreatest ⟨hlength, Nat.le_of_not_lt hfits⟩
    omega
  · intro htelling
    -- the next longer part was asked for, and tells of all others
    have hasked : c + 1 ∈ asked size length capacity :=
      (mem_asked_of_brackets hbrackets).mpr (h.next_asked.imp_right .inr)
    refine ⟨⟨Nat.le_of_lt h.lt_high, h.fits⟩, ?_⟩
    rintro n ⟨hlength, hfits⟩
    rcases Nat.lt_trichotomy n (c + 1) with hlt | rfl | hgt
    · exact Nat.le_of_lt_succ hlt
    · exact absurd hfits (Nat.not_le.mpr h.next_exceeds)
    · have hexceeds := htelling _ hasked h.next_exceeds n hgt hlength
      exact absurd hfits (Nat.not_le.mpr hexceeds)

/-- **The search finds the longest part exactly if what it asks for is
telling.** -/
theorem fit_isLongest_iff (size : Nat → Nat) (length capacity : Nat) :
    (fit size length capacity).IsLongest size length capacity ↔
      ∀ n ∈ asked size length capacity, Telling size length capacity n := by
  rcases budget_cases size length capacity with hwhole | ⟨hwhole, hempty⟩ | hbrackets
  · -- the whole source fits, and nothing is longer
    rw [fit_of_le hwhole, asked, if_pos hwhole]
    refine iff_of_true (.inr ⟨⟨⟨Nat.le_refl _, hwhole⟩, fun n hn => hn.1⟩, rfl⟩) ?_
    intro n hn hexceeds
    obtain rfl := List.mem_singleton.mp hn
    exact absurd hwhole (Nat.not_le.mpr hexceeds)
  · rw [fit_of_lt_empty hwhole hempty, asked, if_neg (Nat.not_le.mpr hwhole), if_pos hempty]
    constructor
    · rintro (⟨-, hnone⟩ | ⟨⟨⟨-, hfits⟩, -⟩, -⟩)
      · intro n _ _ m _ hm
        exact hnone m hm
      · exact absurd hfits (Nat.not_le.mpr hempty)
    · intro htelling
      refine .inl ⟨rfl, ?_⟩
      intro n hn
      rcases Nat.eq_zero_or_pos n with rfl | hpos
      · exact hempty
      · have hzero : 0 ∈ [length, 0] := List.mem_cons_of_mem _ List.mem_cons_self
        exact htelling 0 hzero hempty n hpos hn
  · obtain ⟨c, hc, hends⟩ := hbrackets.bisect_eq
    rw [fit_of_brackets hbrackets, hc, ← hends.isGreatest_iff hbrackets]
    constructor
    · rintro (⟨-, hnone⟩ | ⟨hgreatest, -⟩)
      · exact absurd (hnone 0 (Nat.zero_le _)) (Nat.not_lt.mpr hbrackets.fits)
      · exact hgreatest
    · intro hgreatest
      exact .inr ⟨hgreatest, rfl⟩

/-- **Sizes that only grow lead to the longest part.** -/
theorem fit_isLongest_of_monotone (h : Monotone size) (length capacity : Nat) :
    (fit size length capacity).IsLongest size length capacity := by
  refine (fit_isLongest_iff size length capacity).mpr ?_
  intro n _ hexceeds m hm _
  exact Nat.lt_of_lt_of_le hexceeds (h (Nat.le_of_lt hm))

/-- **When compressing into a budget finds the longest front part that
fits**: exactly if each part that the search asks for tells of all longer
ones, and it asks for no other sizes. -/
theorem compressInto_isLongest_iff [Compressor] (src image : ByteArray) (capacity : Nat) :
    ∃ found, (compressInto src capacity).onImage image = .ok found ∧
      (found.IsLongest (frontSize src) src.size capacity ↔
        ∀ n ∈ asked (frontSize src) src.size capacity,
          Telling (frontSize src) src.size capacity n) ∧
      ∀ other, (∀ n ∈ asked (frontSize src) src.size capacity, other n = frontSize src n) →
        fit other src.size capacity = found := by
  refine ⟨_, onImage_compressInto .., fit_isLongest_iff .., ?_⟩
  intro other hother
  exact fit_congr hother

section
attribute [local instance] Compressor.greedy

/-- A source whose block gets shorter as it grows. The block of the first
12 bytes is all literal bytes, and with one more the run of them is a
match. -/
def dipping : ByteArray :=
  ⟨⟨List.replicate 13 0x61 ++ [1, 2, 3, 4, 5, 6, 7, 8, 9]⟩⟩

/-- **A part that is found short of the longest.** The search asks for the
11 bytes in the middle, which do not fit, and goes on below them. The first
19 bytes fit. -/
theorem compressInto_dipping :
    (compressInto dipping 11).onImage ByteArray.empty = .ok ⟨10, 11⟩ ∧
      ¬Fit.IsLongest (frontSize dipping) dipping.size 11 ⟨10, 11⟩ ∧
      frontSize dipping 11 = 12 ∧ frontSize dipping 19 = 11 := by
  have hfits : frontSize dipping 19 = 11 := by decide +kernel
  refine ⟨by decide +kernel, ?_, by decide +kernel, hfits⟩
  rintro (⟨hnone, -⟩ | ⟨⟨-, hgreatest⟩, -⟩)
  · cases hnone
  · have hle : 19 ≤ 10 := hgreatest ⟨by decide, Nat.le_of_eq hfits⟩
    exact absurd hle (by decide)

end

end Erofs.Lz4
