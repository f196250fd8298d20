import Erofs.Proofs.Bytes
import Erofs.Proofs.Lz4.Format
import Erofs.Proofs.Query
/-!
# Turns of the decoder

A turn of the decoder takes a length, the literal bytes, and, if it needs
more, a match. It is written here as these steps one after another
(`decodeFrom_cons`), with what each step takes from the source and adds to
the output. What holds of the decoder is shown by induction on its turns
(`turns_induction`).
-/

namespace Erofs.Lz4

variable {target literals half n : Nat} {out next : ByteArray} {src rest : List UInt8}

/-! ## Adding bytes -/

theorem toList_append_mk (out : ByteArray) (l : List UInt8) :
    (out ++ ⟨l.toArray⟩).data.toList = out.data.toList ++ l := by
  simp

theorem size_append_mk (out : ByteArray) (l : List UInt8) :
    (out ++ ⟨l.toArray⟩ : ByteArray).size = out.size + l.length := by
  rw [ByteArray.size_append]
  rfl

theorem toList_push (out : ByteArray) (b : UInt8) :
    (out.push b).data.toList = out.data.toList ++ [b] :=
  Array.toList_push

/-- **Repeating bytes one at a time** is what the format says. -/
theorem toList_copyMatch (distance n : Nat) (out : ByteArray) :
    (copyMatch distance n out).data.toList = repeatBack distance n out.data.toList := by
  induction n generalizing out with
  | zero => rfl
  | succ n ih =>
    rw [copyMatch, ih, toList_push, byteAt_eq_getD, repeatBack]
    rfl

theorem size_copyMatch (distance n : Nat) (out : ByteArray) :
    (copyMatch distance n out).size = out.size + n := by
  have h := congrArg List.length (toList_copyMatch distance n out)
  rwa [length_repeatBack] at h

/-! ## Lengths -/

/-- Each byte in which a length goes on adds at most 255 to it. -/
theorem le_of_extendLength {length : Nat} (h : extendLength length src = .ok (n, rest)) :
    n + 255 * rest.length ≤ length + 255 * src.length := by
  induction src generalizing length with
  | nil => cases h
  | cons b src ih =>
    rw [extendLength] at h
    rw [List.length_cons]
    split at h
    · have := ih h
      omega
    · cases h
      have := b.toNat_lt
      omega

theorem le_of_readLength (h : readLength half src = .ok (n, rest)) :
    n + 255 * rest.length ≤ half + 255 * src.length := by
  unfold readLength at h
  split at h
  · exact le_of_extendLength h
  · cases h
    exact Nat.le_refl _

/-- A length ends where it ends, whatever comes after it. -/
theorem extendLength_append {length : Nat} (h : extendLength length src = .ok (n, rest))
    (garbage : List UInt8) :
    extendLength length (src ++ garbage) = .ok (n, rest ++ garbage) := by
  induction src generalizing length with
  | nil => cases h
  | cons b src ih =>
    rw [extendLength] at h
    rw [List.cons_append, extendLength]
    split at h
    · next h255 => rw [if_pos h255, ih h]
    · next h255 =>
      cases h
      rw [if_neg h255]

theorem readLength_append (h : readLength half src = .ok (n, rest)) (garbage : List UInt8) :
    readLength half (src ++ garbage) = .ok (n, rest ++ garbage) := by
  unfold readLength at h ⊢
  split at h
  · next hlimit => rw [if_pos hlimit, extendLength_append h]
  · next hlimit =>
    cases h
    rw [if_neg hlimit]

/-! ## Literal bytes -/

/-- The literal bytes that some bytes start with, as one step of the
decoder. -/
def literalsOf (target : Nat) (out : ByteArray) (literals : Nat) (src : List UInt8) :
    Except Error ByteArray :=
  let wanted := min literals (target - out.size)
  let taken := src.take wanted
  if taken.length < wanted then .error .lz4LiteralsPastInput else .ok (out ++ ⟨taken.toArray⟩)

/-- **What literal bytes yield**: those that are wanted, which have to be
there. -/
theorem literalsOf_eq_ok :
    literalsOf target out literals src = .ok next ↔
      min literals (target - out.size) ≤ src.length ∧
        next = out ++ ⟨(src.take (min literals (target - out.size))).toArray⟩ := by
  unfold literalsOf
  simp only [List.length_take]
  split
  · next hshort =>
    constructor
    · intro h
      cases h
    · rintro ⟨hle, -⟩
      omega
  · next henough =>
    rw [Except.ok.injEq]
    constructor
    · intro h
      exact ⟨by omega, h.symm⟩
    · rintro ⟨-, rfl⟩
      rfl

theorem size_eq_of_literalsOf (h : literalsOf target out literals src = .ok next) :
    next.size = out.size + min literals (target - out.size) := by
  obtain ⟨hle, rfl⟩ := literalsOf_eq_ok.mp h
  rw [size_append_mk, List.length_take_of_le hle]

/-- Literal bytes end no later than the bytes that are asked for. -/
theorem size_of_literalsOf (hle : out.size ≤ target)
    (h : literalsOf target out literals src = .ok next) : next.size ≤ target := by
  rw [size_eq_of_literalsOf h]
  omega

/-- They are put behind what is there. -/
theorem prefix_of_literalsOf (h : literalsOf target out literals src = .ok next) :
    out.data.toList <+: next.data.toList := by
  obtain ⟨-, rfl⟩ := literalsOf_eq_ok.mp h
  rw [toList_append_mk]
  exact List.prefix_append ..

/-! ## Matches -/

/-- The match that some bytes start with, as one step of the decoder. -/
def matchOf (target half : Nat) (out : ByteArray) :
    List UInt8 → Except Error (ByteArray × List UInt8)
  | low :: high :: src =>
    let distance := low.toNat + 256 * high.toNat
    if distance = 0 ∨ out.size < distance then .error .lz4OffsetOutOfRange
    else
      readLength half src >>= fun r =>
        .ok (copyMatch distance (min (r.1 + minMatch) (target - out.size)) out, r.2)
  | _ => .error .lz4OffsetMissing

/-- **What a match yields**: its distance and its length are there, and it
repeats bytes that are there already. -/
theorem matchOf_eq_ok :
    matchOf target half out src = .ok (next, rest) ↔
      ∃ low high after length, src = low :: high :: after ∧
        0 < low.toNat + 256 * high.toNat ∧ low.toNat + 256 * high.toNat ≤ out.size ∧
        readLength half after = .ok (length, rest) ∧
        next = copyMatch (low.toNat + 256 * high.toNat)
          (min (length + minMatch) (target - out.size)) out := by
  constructor
  · intro h
    rcases src with - | ⟨low, - | ⟨high, after⟩⟩
    · cases h
    · cases h
    · rw [matchOf] at h
      split at h
      · cases h
      · obtain ⟨⟨length, rest'⟩, hread, h⟩ := bind_eq_ok.mp h
        cases h
        exact ⟨low, high, after, length, rfl, by omega, by omega, hread, rfl⟩
  · rintro ⟨low, high, after, length, rfl, hpos, hreach, hread, rfl⟩
    rw [matchOf, if_neg (by omega), hread]
    rfl

/-- A match ends no later than the bytes that are asked for. -/
theorem size_of_matchOf (hle : out.size ≤ target)
    (h : matchOf target half out src = .ok (next, rest)) :
    next.size ≤ target ∧ rest.length < src.length := by
  obtain ⟨low, high, after, length, rfl, -, -, hread, rfl⟩ := matchOf_eq_ok.mp h
  have hlength := length_readLength hread
  rw [size_copyMatch, List.length_cons, List.length_cons]
  exact ⟨by omega, by omega⟩

/-- So is what a match repeats. -/
theorem prefix_of_matchOf (h : matchOf target half out src = .ok (next, rest)) :
    out.data.toList <+: next.data.toList := by
  obtain ⟨low, high, after, length, -, -, -, -, rfl⟩ := matchOf_eq_ok.mp h
  rw [toList_copyMatch]
  exact prefix_repeatBack ..

/-! ## Turns -/

/-- The decoder stops when it has the bytes asked for. -/
theorem decodeFrom_of_le (h : target ≤ out.size) :
    decodeFrom target out src = .ok ⟨out, src.length⟩ := by
  rw [decodeFrom.eq_def, if_pos h]

/-- It fails if it needs more and the source has ended. -/
theorem decodeFrom_nil (hlt : out.size < target) :
    decodeFrom target out [] = .error .lz4InputEnded := by
  rw [decodeFrom.eq_def, if_neg (Nat.not_le.mpr hlt)]

/-- One turn of the decoder, as a sequence of steps. -/
theorem decodeFrom_cons (target : Nat) (out : ByteArray) (token : UInt8) (src : List UInt8)
    (hlt : out.size < target) :
    decodeFrom target out (token :: src) =
      (readLength (token.toNat / 16) src >>= fun r =>
        literalsOf target out r.1 r.2 >>= fun next =>
          if next.size = target then .ok ⟨next, (r.2.length : Int) - r.1⟩
          else
            matchOf target (token.toNat % 16) next (r.2.drop r.1) >>= fun s =>
              decodeFrom target s.1 s.2) := by
  rw [decodeFrom.eq_def, if_neg (Nat.not_le.mpr hlt)]
  simp only
  split
  · next hread => rw [hread]; rfl
  · next literals rest hread =>
    rw [hread]
    change _ = literalsOf target out literals rest >>= _
    by_cases hshort : (rest.take (min literals (target - out.size))).length <
        min literals (target - out.size)
    · have htaken : literalsOf target out literals rest = .error .lz4LiteralsPastInput :=
        if_pos hshort
      rw [htaken, if_pos hshort]
      rfl
    · have htaken : literalsOf target out literals rest =
          .ok (out ++ ⟨(rest.take (min literals (target - out.size))).toArray⟩) :=
        if_neg hshort
      rw [htaken, if_neg hshort]
      change _ = ite _ _ _
      congr 1
      split
      · next low high after hdrop =>
        rw [hdrop, matchOf]
        split
        · rfl
        · split
          · next hmatch => rw [hmatch]; rfl
          · next hmatch => rw [hmatch]; rfl
      · -- fewer than two bytes are left, so there is no distance to read
        next hshort =>
        change _ = matchOf _ _ _ (rest.drop literals) >>= _
        generalize rest.drop literals = dropped at hshort ⊢
        cases dropped with
        | nil => rfl
        | cons low dropped =>
          cases dropped with
          | nil => rfl
          | cons high after => exact (hshort low high after rfl).elim

/-- **Induction on the turns of the decoder**: it has enough, or the source
has ended, or there is a turn to take, with what holds behind its match. -/
@[elab_as_elim]
theorem turns_induction (target : Nat) {motive : ByteArray → List UInt8 → Prop}
    (enough : ∀ out src, target ≤ out.size → motive out src)
    (ended : ∀ out, out.size < target → motive out [])
    (turn : ∀ out token src, out.size < target →
      (∀ {literals rest next after behind},
        readLength (token.toNat / 16) src = .ok (literals, rest) →
        literalsOf target out literals rest = .ok next →
        matchOf target (token.toNat % 16) next (rest.drop literals) = .ok (after, behind) →
        motive after behind) → motive out (token :: src))
    (out : ByteArray) (src : List UInt8) : motive out src := by
  -- a turn reads its token at least, so the bytes that are left get fewer
  induction hn : src.length using Nat.strongRecOn generalizing src out with
  | ind n ih =>
    rcases Nat.lt_or_ge out.size target with hlt | hge
    · cases src with
      | nil => exact ended out hlt
      | cons token src =>
        refine turn out token src hlt ?_
        intro literals rest next after behind hread hnext hmatch
        have hrest := length_readLength hread
        have hout := size_of_literalsOf (Nat.le_of_lt hlt) hnext
        have hbehind := (size_of_matchOf hout hmatch).2
        rw [List.length_drop] at hbehind
        refine ih behind.length ?_ after behind rfl
        rw [← hn, List.length_cons]
        omega
    · exact enough out src hge

end Erofs.Lz4
