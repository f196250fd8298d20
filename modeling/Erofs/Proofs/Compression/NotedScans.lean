import Erofs.Proofs.Compression.Failures
import Erofs.Proofs.Compression.PackScan
/-!
# Scans that note where they look

The two scans backwards and the look-ahead of a pack, once more: for any way
to look at a slot (`BackwardScan.run`, `lookAhead`), and with the positions
below the first slot that a distance may lead to. On the slots of a pack they
have the results of the scans there (`run_pclusterScan`, `run_blockScan`,
`lookAhead_entry`). On slots that note when they are looked at (`Noting`)
they show where they go, whatever the slots hold: a scan backwards looks at
ever earlier slots (`BackwardScan.descends`), and the look-ahead at those from
its own on, to the end of the pack at most (`slots_lookAhead`). What the other
slots hold has no say in the answer (`BackwardScan.run_congr`,
`lookAhead_congr`).
-/

namespace Erofs

/-! ## Notes -/

/-- The answer of a computation that looks at slots, with these slots in
their order. -/
structure Noting (α : Type) where
  answer : Except Error α
  slots : List Nat

namespace Noting

variable {α β : Type}

/-- One computation after another; a failure ends the notes. -/
def bind (x : Noting α) (next : α → Noting β) : Noting β :=
  match x.answer with
  | .ok a => ⟨(next a).answer, x.slots ++ (next a).slots⟩
  | .error cause => ⟨.error cause, x.slots⟩

instance : Monad Noting where
  pure a := ⟨.ok a, []⟩
  bind := bind

instance : MonadLift (Except Error) Noting where
  monadLift e := ⟨e, []⟩

@[simp] theorem slots_pure (a : α) : (pure a : Noting α).slots = [] := rfl

theorem answer_bind (x : Noting α) (next : α → Noting β) :
    (x >>= next).answer = x.answer >>= fun a => (next a).answer := by
  change (x.bind next).answer = _
  unfold bind
  cases x.answer <;> rfl

theorem slots_bind (x : Noting α) (next : α → Noting β) :
    (x >>= next).slots = match x.answer with
      | .ok a => x.slots ++ (next a).slots
      | .error _ => x.slots := by
  change (x.bind next).slots = _
  unfold bind
  cases x.answer <;> rfl

theorem mem_slots_bind {x : Noting α} {next : α → Noting β} {k : Nat} (h : k ∈ x.slots) :
    k ∈ (x >>= next).slots := by
  rw [slots_bind]
  split
  · exact List.mem_append_left _ h
  · exact h

theorem mem_slots_bind_of_ok {x : Noting α} {next : α → Noting β} {a : α} {k : Nat}
    (hx : x.answer = .ok a) (h : k ∈ (next a).slots) : k ∈ (x >>= next).slots := by
  rw [slots_bind, hx]
  exact List.mem_append_right _ h

/-- What is made of an answer is not noted. -/
theorem slots_bind_pure (x : Noting α) (value : α → β) :
    (x >>= fun a => pure (value a)).slots = x.slots := by
  rw [slots_bind]
  cases x.answer <;> simp

end Noting

/-- Looks at a slot and notes it. -/
def Pack.note (p : Pack) (slot : Nat) : Noting PackEntry := ⟨p.entry slot, [slot]⟩

/-! ## Scans backwards -/

/-- What a scan backwards does after it has looked at a slot. -/
inductive ScanTurn where
  /-- It fails. -/
  | fail (cause : Error)
  /-- It counts some blocks and goes on with the slot before a position. -/
  | goOn (blocks : Nat) (position : Int)

/-- A scan backwards over the slots of a pack. -/
structure BackwardScan where
  /-- The turn at a slot, by what the slot holds. -/
  turn : Nat → PackEntry → ScanTurn
  /-- It goes on with earlier slots. -/
  le {slot blocks : Nat} {e : PackEntry} {position : Int} :
    turn slot e = .goOn blocks position → position ≤ slot

namespace BackwardScan

variable {m : Type → Type} [Monad m] [MonadLiftT (Except Error) m]

/-- What a scan counts in the slots before a position. -/
def run (s : BackwardScan) (look : Nat → m PackEntry) (position : Int) : m Nat :=
  if 0 < position then do
    let slot := (position - 1).toNat
    let e ← look slot
    match _h : s.turn slot e with
    | .fail cause => liftM (Except.error cause : Except Error Nat)
    | .goOn blocks position' =>
      let rest ← run s look position'
      return blocks + rest
  else return 0
termination_by position.toNat
decreasing_by
  have := s.le _h
  omega

variable {s : BackwardScan} {look : Nat → m PackEntry} {p : Pack} {slot : Nat}

theorem run_of_nonpos {position : Int} (h : position ≤ 0) : s.run look position = pure 0 := by
  rw [run, if_neg (by omega)]

theorem run_succ (s : BackwardScan) (look : Nat → m PackEntry) (slot : Nat) :
    s.run look (slot + 1 : Nat) = do
      let e ← look slot
      match s.turn slot e with
      | .fail cause => liftM (Except.error cause : Except Error Nat)
      | .goOn blocks position =>
        let rest ← s.run look position
        return blocks + rest := by
  have hslot : ((slot + 1 : Nat) - 1 : Int).toNat = slot := by omega
  rw [run, if_pos (by omega)]
  simp only [hslot]
  congr 1
  funext e
  split
  · next h =>
    rw [hslot] at h
    rw [h]
  · next h =>
    rw [hslot] at h
    rw [h]

/-- **Induction on the positions of a scan**: it has come to its end, or it
goes on from earlier ones. -/
@[elab_as_elim]
theorem positions_induction {motive : Int → Prop} (ended : ∀ position ≤ 0, motive position)
    (turn : ∀ slot : Nat, (∀ position ≤ (slot : Int), motive position) → motive (slot + 1 : Nat))
    (position : Int) : motive position := by
  induction hn : position.toNat using Nat.strongRecOn generalizing position with
  | ind n ih =>
    rcases Nat.eq_zero_or_pos n with rfl | hpos
    · exact ended position (by omega)
    · obtain rfl : position = (n - 1 + 1 : Nat) := by omega
      refine turn (n - 1) ?_
      intro earlier hle
      exact ih earlier.toNat (by omega) earlier rfl

/-- **Notes change no answer.** -/
theorem answer_run (s : BackwardScan) (p : Pack) (position : Int) :
    (s.run p.note position).answer = s.run p.entry position := by
  induction position using positions_induction with
  | ended position hle =>
    rw [run_of_nonpos hle, run_of_nonpos hle]
    rfl
  | turn slot ih =>
    rw [run_succ, run_succ, Noting.answer_bind]
    congr 1
    funext e
    cases hturn : s.turn slot e with
    | fail cause => rfl
    | goOn blocks position =>
      simp only [Noting.answer_bind, ih position (s.le hturn)]
      rfl

/-- The position with which a scan goes on from a slot, if it does. -/
def next? (s : BackwardScan) (p : Pack) (slot : Nat) : Option Int :=
  match p.entry slot with
  | .error _ => none
  | .ok e => match s.turn slot e with
    | .fail _ => none
    | .goOn _ position => some position

theorem le_of_next? {position : Int} (h : s.next? p slot = some position) : position ≤ slot := by
  unfold next? at h
  split at h
  · cases h
  · split at h
    · cases h
    · next hturn =>
      cases h
      exact s.le hturn

/-- A scan looks at the slot before its position first, and then at those
before the next one. -/
theorem slots_run_succ (s : BackwardScan) (p : Pack) (slot : Nat) :
    (s.run p.note (slot + 1 : Nat)).slots =
      slot :: match s.next? p slot with
        | none => []
        | some position => (s.run p.note position).slots := by
  rw [run_succ, Noting.slots_bind]
  simp only [Pack.note, next?]
  cases p.entry slot with
  | error cause => rfl
  | ok e =>
    refine congrArg (slot :: ·) ?_
    dsimp only
    cases s.turn slot e with
    | fail cause => rfl
    | goOn blocks position => exact Noting.slots_bind_pure _ _

/-- **A scan backwards looks at earlier slots only**, and at each of them
once, as they come. -/
theorem slots_run (s : BackwardScan) (p : Pack) (position : Int) :
    (∀ k ∈ (s.run p.note position).slots, (k : Int) < position) ∧
      (s.run p.note position).slots.Pairwise (· > ·) := by
  induction position using positions_induction with
  | ended position hle =>
    rw [run_of_nonpos hle]
    simp
  | turn slot ih =>
    rw [slots_run_succ]
    cases hnext : s.next? p slot with
    | none =>
      refine ⟨?_, List.pairwise_singleton _ _⟩
      intro k hk
      obtain rfl := List.mem_singleton.mp hk
      omega
    | some position =>
      -- what is left of the scan stays below the slot
      have hle := le_of_next? hnext
      obtain ⟨hlt, hpairwise⟩ := ih position hle
      constructor
      · intro k hk
        rcases List.mem_cons.mp hk with rfl | hk
        · omega
        · have := hlt k hk
          omega
      · refine List.pairwise_cons.mpr ⟨?_, hpairwise⟩
        intro k hk
        have := hlt k hk
        omega

/-- **No other slot has a say** in the answer of a scan. -/
theorem run_congr {look : Nat → Except Error PackEntry} {position : Int}
    (h : ∀ k ∈ (s.run p.note position).slots, look k = p.entry k) :
    s.run look position = s.run p.entry position := by
  induction position using positions_induction with
  | ended position hle => rw [run_of_nonpos hle, run_of_nonpos hle]
  | turn slot ih =>
    rw [slots_run_succ] at h
    rw [run_succ, run_succ, h slot List.mem_cons_self]
    cases hentry : p.entry slot with
    | error cause => rfl
    | ok e =>
      change (match s.turn slot e with
        | .fail cause => _
        | .goOn blocks position => _) = (match s.turn slot e with
        | .fail cause => _
        | .goOn blocks position => _)
      cases hturn : s.turn slot e with
      | fail cause => rfl
      | goOn blocks position =>
        have hnext : s.next? p slot = some position := by simp [next?, hentry, hturn]
        rw [hnext] at h
        simp only [ih position (s.le hturn) fun k hk => h k (List.mem_cons_of_mem slot hk)]

/-- A scan backwards from a slot finds something of a pack. It looks at
earlier slots only, each of them before the last one, and these decide what
it finds. -/
structure Descends (s : BackwardScan) (p : Pack) (slot : Nat)
    (found : Pack → Except Error Nat) : Prop where
  answer_eq : (s.run p.note slot).answer = found p
  lt : ∀ k ∈ (s.run p.note slot).slots, k < slot
  descending : (s.run p.note slot).slots.Pairwise (· > ·)
  decides : ∀ q : Pack, (∀ k ∈ (s.run p.note slot).slots, q.entry k = p.entry k) →
    found q = found p

theorem descends (s : BackwardScan) (p : Pack) (slot : Nat) :
    s.Descends p slot fun q => s.run q.entry slot := by
  obtain ⟨hlt, hdescending⟩ := s.slots_run p slot
  refine ⟨s.answer_run p slot, ?_, hdescending, fun q => run_congr⟩
  intro k hk
  have := hlt k hk
  omega

/-- A scan of slots that can be read fails only in a turn of its own. -/
theorem failsFor_run {e : Nat → PackEntry} {P : Error → Prop} (hp : p.Holds e)
    (hturn : ∀ slot entry cause, s.turn slot entry = .fail cause → P cause) {position : Int}
    (hle : position ≤ p.slots) : FailsFor P (s.run p.entry position) := by
  induction position using positions_induction with
  | ended position hnonpos =>
    rw [run_of_nonpos hnonpos]
    exact .ok 0
  | turn slot ih =>
    rw [run_succ, hp slot (by omega)]
    change FailsFor P (match s.turn slot (e slot) with
      | .fail cause => _
      | .goOn blocks position => _)
    cases hs : s.turn slot (e slot) with
    | fail cause => exact .error (hturn _ _ _ hs)
    | goOn blocks position =>
      have hposition := s.le hs
      exact (ih position hposition (by omega)).bind fun rest _ => .ok _

end BackwardScan

/-! ## The two scans for an address -/

variable {slot blocks : Nat} {e : PackEntry} {position : Int}

/-- A turn where pclusters have one size. It counts a pcluster for each head
that it comes to, unless that lies before the pack. -/
def pclusterTurn (slot : Nat) (e : PackEntry) : ScanTurn :=
  let position : Int := if e.isInner then slot - e.low else slot
  .goOn (if 0 ≤ position then 1 else 0) position

theorem le_of_pclusterTurn (h : pclusterTurn slot e = .goOn blocks position) :
    position ≤ slot := by
  simp only [pclusterTurn, ScanTurn.goOn.injEq] at h
  obtain ⟨-, rfl⟩ := h
  split <;> omega

/-- The scan where pclusters have one size. -/
def pclusterScan : BackwardScan := ⟨pclusterTurn, le_of_pclusterTurn⟩

/-- A turn where pclusters may have more than one block. It counts the blocks
that a slot gives, and one for a head without. -/
def blockTurn (nid slot : Nat) (e : PackEntry) : ScanTurn :=
  if e.isInner then
    match markedBlockCount? e.low with
    | some count => .goOn count (slot - 1)
    | none =>
      if e.low ≤ 1 then .fail (.bogusPackDelta nid)
      else .goOn 0 (slot - (e.low - 2))
  else .goOn 1 slot

theorem le_of_blockTurn {nid : Nat} (h : blockTurn nid slot e = .goOn blocks position) :
    position ≤ slot := by
  unfold blockTurn at h
  split at h
  · cases hmark : markedBlockCount? e.low with
    | some count =>
      simp only [hmark, ScanTurn.goOn.injEq] at h
      omega
    | none =>
      simp only [hmark] at h
      split at h
      · cases h
      · simp only [ScanTurn.goOn.injEq] at h
        omega
  · simp only [ScanTurn.goOn.injEq] at h
    omega

/-- The scan where pclusters may have more than one block. -/
def blockScan (nid : Nat) : BackwardScan := ⟨blockTurn nid, le_of_blockTurn⟩

theorem turn_pclusterScan_of_head (h : e.isInner = false) :
    pclusterScan.turn slot e = .goOn 1 slot := by
  simp [pclusterScan, pclusterTurn, h]

theorem turn_pclusterScan_of_inner (h : e.isInner = true) (hlow : e.low ≤ slot) :
    pclusterScan.turn slot e = .goOn 1 (slot - e.low) := by
  have hinside : (0 : Int) ≤ slot - e.low := by omega
  simp only [pclusterScan, pclusterTurn, h, if_true, if_pos hinside]

theorem turn_pclusterScan_of_outside (h : e.isInner = true) (hlow : slot < e.low) :
    pclusterScan.turn slot e = .goOn 0 (slot - e.low) := by
  have houtside : ¬ (0 : Int) ≤ slot - e.low := by omega
  simp only [pclusterScan, pclusterTurn, h, if_true, if_neg houtside]

/-- **The first scan** counts pclusters. -/
theorem run_pclusterScan (p : Pack) (position : Int) :
    pclusterScan.run p.entry position = p.pclustersBefore position.toNat := by
  induction position using BackwardScan.positions_induction with
  | ended position hle =>
    rw [BackwardScan.run_of_nonpos hle, Int.toNat_of_nonpos hle, Pack.pclustersBefore_zero]
    rfl
  | turn slot ih =>
    rw [BackwardScan.run_succ, Int.toNat_natCast, Pack.pclustersBefore]
    congr 1
    funext e
    cases hinner : e.isInner with
    | false => simp [turn_pclusterScan_of_head hinner, ih slot]
    | true =>
      have hrest := ih (slot - e.low) (by omega)
      rcases Nat.lt_or_ge slot e.low with hlow | hlow
      · -- the head lies before the pack
        rw [Int.toNat_of_nonpos (by omega), Pack.pclustersBefore_zero] at hrest
        simp only [turn_pclusterScan_of_outside hinner hlow, hrest, Bool.not_true,
          Bool.false_eq_true, if_false, if_pos hlow]
        rfl
      · simp [turn_pclusterScan_of_inner hinner hlow, hrest, Nat.not_lt.mpr hlow]

theorem turn_blockScan_of_head {nid : Nat} (h : e.isInner = false) :
    (blockScan nid).turn slot e = .goOn 1 slot := by
  simp [blockScan, blockTurn, h]

theorem turn_blockScan_of_count {nid count : Nat} (h : e.isInner = true)
    (hcount : markedBlockCount? e.low = some count) :
    (blockScan nid).turn slot e = .goOn count (slot - 1) := by
  simp [blockScan, blockTurn, h, hcount]

theorem turn_blockScan_of_distance {nid : Nat} (h : e.isInner = true)
    (hcount : markedBlockCount? e.low = none) :
    (blockScan nid).turn slot e =
      if e.low ≤ 1 then .fail (.bogusPackDelta nid) else .goOn 0 (slot - (e.low - 2)) := by
  simp [blockScan, blockTurn, h, hcount]

/-- It fails for one reason. -/
theorem eq_of_turn_blockScan {nid : Nat} {cause : Error}
    (h : (blockScan nid).turn slot e = .fail cause) : cause = .bogusPackDelta nid := by
  cases hinner : e.isInner with
  | false =>
    rw [turn_blockScan_of_head hinner] at h
    cases h
  | true =>
    cases hcount : markedBlockCount? e.low with
    | some count =>
      rw [turn_blockScan_of_count hinner hcount] at h
      cases h
    | none =>
      rw [turn_blockScan_of_distance hinner hcount] at h
      split at h <;> cases h
      rfl

/-- **The second scan** counts blocks. -/
theorem run_blockScan (p : Pack) (nid : Nat) (position : Int) :
    (blockScan nid).run p.entry position = p.blocksBefore nid position.toNat := by
  induction position using BackwardScan.positions_induction with
  | ended position hle =>
    rw [BackwardScan.run_of_nonpos hle, Int.toNat_of_nonpos hle, Pack.blocksBefore_zero]
    rfl
  | turn slot ih =>
    rw [BackwardScan.run_succ, Int.toNat_natCast, Pack.blocksBefore]
    congr 1
    funext e
    cases hinner : e.isInner with
    | false => simp [turn_blockScan_of_head hinner, ih slot]
    | true =>
      cases hcount : markedBlockCount? e.low with
      | some count =>
        have hrest := ih (slot - 1) (by omega)
        simp [turn_blockScan_of_count hinner hcount, hrest]
      | none =>
        rw [turn_blockScan_of_distance hinner hcount]
        rcases Nat.lt_or_ge 1 e.low with hlow | hlow
        · have hrest := ih (slot - (e.low - 2)) (by omega)
          have htarget : (slot - (e.low - 2) : Int).toNat = slot - (e.low - 2) := by omega
          rw [htarget] at hrest
          simp [Nat.not_le.mpr hlow, hrest]
        · simp [hlow]

/-! ## The look-ahead -/

/-- The distance from a slot to the next head, by what the slots from it on
hold. -/
def lookAhead {m : Type → Type} [Monad m] (look : Nat → m PackEntry) (slots slot : Nat) :
    m Nat := do
  let e ← look slot
  if !e.isInner then return 0
  else if slot + 1 < slots then
    let rest ← lookAhead look slots (slot + 1)
    return 1 + rest
  else return 1 + Pack.overhang e
termination_by slots - slot

/-- Without notes this is the look-ahead of a pack, -/
theorem lookAhead_entry (p : Pack) (slot : Nat) :
    lookAhead p.entry p.slots slot = p.distanceAhead slot := by
  fun_induction p.distanceAhead slot with
  | case1 slot ih =>
    rw [lookAhead]
    congr 1
    funext e
    split
    · rfl
    · split
      · next hnext => rw [ih hnext]
      · simp only [Pack.overhang]
        cases markedBlockCount? e.low <;> rfl

/-- and notes change no answer. -/
theorem answer_lookAhead (p : Pack) (slots slot : Nat) :
    (lookAhead p.note slots slot).answer = lookAhead p.entry slots slot := by
  fun_induction lookAhead p.entry slots slot with
  | case1 slot ih =>
    rw [lookAhead, Noting.answer_bind]
    congr 1
    funext e
    split
    · rfl
    · split
      · next hnext =>
        rw [Noting.answer_bind, ih hnext]
        rfl
      · rfl

/-- **The look-ahead looks at its slot and the next ones**, and ends in the
pack. -/
theorem slots_lookAhead (p : Pack) {slots slot : Nat} (hslot : slot < slots) :
    ∃ n, slot + n ≤ slots ∧ (lookAhead p.note slots slot).slots = List.range' slot n := by
  fun_induction lookAhead p.note slots slot with
  | case1 slot ih =>
    rw [Noting.slots_bind]
    simp only [Pack.note]
    cases p.entry slot with
    | error cause => exact ⟨1, hslot, rfl⟩
    | ok e =>
      simp only
      split
      · exact ⟨1, hslot, rfl⟩
      · split
        · next hnext =>
          obtain ⟨n, hle, hslots⟩ := ih hnext hnext
          refine ⟨n + 1, by omega, ?_⟩
          rw [Noting.slots_bind_pure, hslots]
          rfl
        · exact ⟨1, hslot, rfl⟩

/-- No other slot has a say in the distance. -/
theorem lookAhead_congr {p : Pack} {look : Nat → Except Error PackEntry} {slots slot : Nat}
    (h : ∀ k ∈ (lookAhead p.note slots slot).slots, look k = p.entry k) :
    lookAhead look slots slot = lookAhead p.entry slots slot := by
  fun_induction lookAhead p.entry slots slot with
  | case1 slot ih =>
    rw [lookAhead] at h
    have hslot : look slot = p.entry slot :=
      h slot (Noting.mem_slots_bind List.mem_cons_self)
    rw [lookAhead, hslot]
    cases hentry : p.entry slot with
    | error cause => rfl
    | ok e =>
      have hrest := fun k hk => h k (Noting.mem_slots_bind_of_ok hentry hk)
      change (if !e.isInner then _ else _) = (if !e.isInner then _ else _)
      split
      · rfl
      · next hinner =>
        rw [if_neg hinner] at hrest
        split
        · next hnext =>
          rw [if_pos hnext, Noting.slots_bind_pure] at hrest
          rw [ih hnext hrest]
        · rfl

end Erofs
