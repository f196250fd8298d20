import Erofs.Bytes
import Erofs.Session
/-!
# LZ4 blocks

A block is a run of sequences. A sequence is a token, some literal
bytes, and, in all but the last, a match: a distance back into what has
been decoded, from where bytes are repeated. A length that does not fit
into its half of the token goes on in further bytes. Decoding stops as
soon as it has the bytes asked for, so anything may follow them.
-/

namespace Erofs.Lz4

/-- The largest value of half a token, which announces that the length
goes on. -/
def nibbleLimit : Nat := 15

/-- The shortest match. -/
def minMatch : Nat := 4

/-- Adds up the bytes in which a length goes on: a byte of 255 is not the
last one. -/
def extendLength (length : Nat) : List UInt8 → Except Error (Nat × List UInt8)
  | [] => .error .lz4LengthTruncated
  | b :: rest => if b = 255 then extendLength (length + 255) rest else .ok (length + b.toNat, rest)

/-- Reads a length whose start is half a token. -/
def readLength (nibble : Nat) (src : List UInt8) : Except Error (Nat × List UInt8) :=
  if nibble = nibbleLimit then extendLength nibble src else .ok (nibble, src)

/-- Repeats `n` bytes from `distance` back, one at a time, so that a
match may reach into the bytes it produces. -/
def copyMatch (distance : Nat) : (n : Nat) → ByteArray → ByteArray
  | 0, out => out
  | n + 1, out => copyMatch distance n (out.push (byteAt out (out.size - distance)))

/-- What decoding yields: the bytes, and how much of the source is left
over. The last literals may be cut short; a negative rest says by how
much they reach past the source. -/
structure Decoded where
  bytes : ByteArray
  rest : Int

theorem length_extendLength {length n : Nat} {src rest : List UInt8}
    (h : extendLength length src = .ok (n, rest)) : rest.length < src.length := by
  induction src generalizing length with
  | nil => simp [extendLength] at h
  | cons b src ih =>
    simp only [extendLength] at h
    split at h
    · have := ih h
      simp only [List.length_cons]
      omega
    · simp only [Except.ok.injEq, Prod.mk.injEq] at h
      simp [h.2]

theorem length_readLength {nibble n : Nat} {src rest : List UInt8}
    (h : readLength nibble src = .ok (n, rest)) : rest.length ≤ src.length := by
  unfold readLength at h
  split at h
  · exact Nat.le_of_lt (length_extendLength h)
  · simp only [Except.ok.injEq, Prod.mk.injEq] at h
    exact Nat.le_of_eq (congrArg List.length h.2.symm)

/-- Decodes the first `target` bytes of a block that goes on with `src`
after the bytes `out`. -/
def decodeFrom (target : Nat) (out : ByteArray) (src : List UInt8) : Except Error Decoded :=
  if target ≤ out.size then .ok ⟨out, src.length⟩
  else
    match src with
    | [] => .error .lz4InputEnded
    | token :: src =>
      match _hLiterals : readLength (token.toNat / 16) src with
      | .error cause => .error cause
      | .ok (literals, src) =>
        let wanted := min literals (target - out.size)
        let taken := src.take wanted
        if taken.length < wanted then .error .lz4LiteralsPastInput
        else
          let out := out ++ ⟨taken.toArray⟩
          if out.size = target then .ok ⟨out, (src.length : Int) - literals⟩
          else
            match _hDrop : src.drop literals with
            | low :: high :: src =>
              let distance := low.toNat + 256 * high.toNat
              if distance = 0 ∨ out.size < distance then .error .lz4OffsetOutOfRange
              else
                match _hMatch : readLength (token.toNat % 16) src with
                | .error cause => .error cause
                | .ok (length, src) =>
                  let wanted := min (length + minMatch) (target - out.size)
                  decodeFrom target (copyMatch distance wanted out) src
            | _ => .error .lz4OffsetMissing
termination_by src.length
decreasing_by
  have := length_readLength _hLiterals
  have := congrArg List.length _hDrop
  have := length_readLength _hMatch
  simp only [List.length_drop, List.length_cons] at *
  omega

/-- Decodes the first `target` bytes of a block. -/
def decode (src : ByteArray) (target : Nat) : Except Error Decoded :=
  decodeFrom target .empty src.data.toList

/-- No buffer can have this many bytes. -/
def bufferLimit : Nat := 2 ^ 63

/-- The line that decoding leaves in the journal. -/
def Decoded.remark (d : Decoded) (given : Nat) : Remark :=
  let produced := d.bytes.size
  let used := (given : Int) - d.rest
  ⟨.trace, s!"[LZ4] partial decode {given} -> {produced} bytes (input used {used})"⟩

/-- Decodes the first `target` bytes of a block and remarks on it. -/
def decodePartial (src : ByteArray) (target : Nat) : Query ByteArray :=
  if bufferLimit ≤ target then Query.fail .allocationFailed
  else do
    let decoded ← decode src target
    Query.report (decoded.remark src.size)
    return decoded.bytes

/-- The most that a block can be decoded to: 255 times its size, within
64 bits. -/
def maxDecodedLength (size : Nat) : Nat := min (size * 255) (addressLimit - 1)

end Erofs.Lz4
