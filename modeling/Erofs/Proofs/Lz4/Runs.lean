import Erofs.Proofs.Lz4.Turns
/-!
# Runs of the decoder

A run of the decoder that succeeds is written down turn by turn
(`Decodes`), and what holds of every run is shown by induction on its
turns. A run yields exactly the bytes that are asked for
(`Decodes.size_eq`), it only adds to those that are there
(`Decodes.prefix_bytes`), and no byte of the source leads to more than 255 of
them (`Decodes.target_le`).
-/

namespace Erofs.Lz4

variable {target : Nat} {out : ByteArray} {src : List UInt8} {d : Decoded}

/-- **A run of the decoder that succeeds**, from the bytes `out` on over
the source `src`. -/
inductive Decodes (target : Nat) : ByteArray → List UInt8 → Decoded → Prop
  /-- There are as many bytes as are asked for. -/
  | enough {out : ByteArray} {src : List UInt8} : target ≤ out.size →
      Decodes target out src ⟨out, src.length⟩
  /-- The literal bytes of a sequence are the last ones. -/
  | literals {out next : ByteArray} {token : UInt8} {src rest : List UInt8} {n : Nat} :
      out.size < target → readLength (token.toNat / 16) src = .ok (n, rest) →
      literalsOf target out n rest = .ok next → next.size = target →
      Decodes target out (token :: src) ⟨next, (rest.length : Int) - n⟩
  /-- Else its match follows, and the run goes on behind it. -/
  | sequence {out next after : ByteArray} {token : UInt8} {src rest behind : List UInt8} {n : Nat}
      {d : Decoded} :
      out.size < target → readLength (token.toNat / 16) src = .ok (n, rest) →
      literalsOf target out n rest = .ok next → next.size < target →
      matchOf target (token.toNat % 16) next (rest.drop n) = .ok (after, behind) →
      Decodes target after behind d → Decodes target out (token :: src) d

/-- What the decoder yields, a run leads to. -/
theorem decodes_of_decodeFrom (h : decodeFrom target out src = .ok d) :
    Decodes target out src d := by
  induction out, src using turns_induction target with
  | enough out src hge =>
    rw [decodeFrom_of_le hge] at h
    cases h
    exact .enough hge
  | ended out hlt =>
    rw [decodeFrom_nil hlt] at h
    cases h
  | turn out token src hlt ih =>
    rw [decodeFrom_cons _ _ _ _ hlt] at h
    obtain ⟨⟨literals, rest⟩, hread, h⟩ := bind_eq_ok.mp h
    obtain ⟨next, hnext, h⟩ := bind_eq_ok.mp h
    split at h
    · next hend =>
      cases h
      exact .literals hlt hread hnext hend
    · next hend =>
      obtain ⟨⟨after, behind⟩, hmatch, h⟩ := bind_eq_ok.mp h
      have hle := size_of_literalsOf (Nat.le_of_lt hlt) hnext
      have hmore := Nat.lt_of_le_of_ne hle hend
      exact .sequence hlt hread hnext hmore hmatch (ih hread hnext hmatch h)

namespace Decodes

/-- And what a run leads to, the decoder yields. -/
theorem decodeFrom_eq (h : Decodes target out src d) : decodeFrom target out src = .ok d := by
  induction h with
  | enough hge => exact decodeFrom_of_le hge
  | literals hlt hread hnext hend =>
    rw [decodeFrom_cons _ _ _ _ hlt]
    refine bind_eq_ok.mpr ⟨_, hread, bind_eq_ok.mpr ⟨_, hnext, ?_⟩⟩
    rw [if_pos hend]
  | sequence hlt hread hnext hmore hmatch _ ih =>
    rw [decodeFrom_cons _ _ _ _ hlt]
    refine bind_eq_ok.mpr ⟨_, hread, bind_eq_ok.mpr ⟨_, hnext, ?_⟩⟩
    rw [if_neg (Nat.ne_of_lt hmore)]
    exact bind_eq_ok.mpr ⟨_, hmatch, ih⟩

/-- **Exactly the bytes that are asked for are decoded.** -/
theorem size_eq (h : Decodes target out src d) (hle : out.size ≤ target) :
    d.bytes.size = target := by
  induction h with
  | enough hge => exact Nat.le_antisymm hle hge
  | literals _ _ _ hend => exact hend
  | sequence _ _ _ hmore hmatch _ ih => exact ih (size_of_matchOf (Nat.le_of_lt hmore) hmatch).1

/-- **Decoding only adds bytes.** -/
theorem prefix_bytes (h : Decodes target out src d) : out.data.toList <+: d.bytes.data.toList := by
  induction h with
  | enough => exact List.prefix_refl _
  | literals _ _ hnext _ => exact prefix_of_literalsOf hnext
  | sequence _ _ hnext _ hmatch _ ih =>
    exact (prefix_of_literalsOf hnext).trans ((prefix_of_matchOf hmatch).trans ih)

/-- **No byte of the source leads to more than 255 bytes.** A sequence has
a byte for its token and two for its distance, which make up for what the
token itself says of both lengths. -/
theorem target_le (h : Decodes target out src d) : target ≤ out.size + 255 * src.length := by
  induction h with
  | enough hge => omega
  | literals _ hread hnext hend =>
    have hrest := length_readLength hread
    have htaken := (literalsOf_eq_ok.mp hnext).1
    have hsize := size_eq_of_literalsOf hnext
    rw [List.length_cons]
    omega
  | @sequence out next after token src rest behind n d hlt hread hnext hmore hmatch hgo ih =>
    have hrest := length_readLength hread
    have htaken := (literalsOf_eq_ok.mp hnext).1
    have hsize := size_eq_of_literalsOf hnext
    obtain ⟨low, high, between, length, hdrop, -, -, hlength, rfl⟩ := matchOf_eq_ok.mp hmatch
    have hmatched := le_of_readLength hlength
    have hbetween := congrArg List.length hdrop
    rw [List.length_drop, List.length_cons, List.length_cons] at hbetween
    rw [size_copyMatch] at ih
    rw [List.length_cons]
    simp only [minMatch] at ih
    omega

end Decodes

/-- What is decoded from a source has the size that was asked for. -/
theorem size_of_decode {src : ByteArray} (h : decode src target = .ok d) :
    d.bytes.size = target :=
  (decodes_of_decodeFrom h).size_eq (Nat.zero_le _)

/-- **A source is decoded to at most 255 times its size.** -/
theorem target_le_of_decode {src : ByteArray} (h : decode src target = .ok d) :
    target ≤ 255 * src.size := by
  have hle := (decodes_of_decodeFrom h).target_le
  rwa [ByteArray.size_empty, Nat.zero_add] at hle

end Erofs.Lz4
