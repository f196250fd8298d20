import Erofs.Lz4.Plan
/-!
# The format of blocks

What a block is, apart from how it is decoded: sequences of literal bytes
and matches, and literal bytes at the end. It expands to the bytes that
the matches repeat out of what was expanded before, and it is written as
tokens, lengths and distances. A block is never 255 times smaller than
what it expands to (`Block.length_expansion_le`).
-/

namespace Erofs.Lz4

/-! ## What a block expands to -/

/-- Some bytes, and `n` more, each of them repeated from `distance`
back. -/
def repeatBack (distance : Nat) : (n : Nat) → List UInt8 → List UInt8
  | 0, out => out
  | n + 1, out => repeatBack distance n (out ++ [out.getD (out.length - distance) 0])

/-- A sequence with its literal bytes. -/
structure Step where
  literals : List UInt8
  distance : Nat
  matched : Nat
  /-- A match repeats what is there already. -/
  distance_pos : 0 < distance
  /-- The distance is written with 16 bits. -/
  distance_le : distance ≤ maxDistance
  /-- And the length counted from the shortest one. -/
  minMatch_le : minMatch ≤ matched

/-- What is expanded after a sequence, if `out` is before it. -/
def Step.extend (s : Step) (out : List UInt8) : List UInt8 :=
  repeatBack s.distance s.matched (out ++ s.literals)

/-- What is expanded after some sequences. -/
def expandFrom (out : List UInt8) : List Step → List UInt8
  | [] => out
  | s :: rest => expandFrom (s.extend out) rest

/-- No match of some sequences starts before what is expanded. -/
def ReachesFrom (out : List UInt8) : List Step → Prop
  | [] => True
  | s :: rest => s.distance ≤ (out ++ s.literals).length ∧ ReachesFrom (s.extend out) rest

/-- **A block**: sequences, and the literal bytes at its end. -/
structure Block where
  steps : List Step
  tail : List UInt8
  reaches : ReachesFrom [] steps

/-- What a block expands to. -/
def Block.expansion (b : Block) : List UInt8 := expandFrom [] b.steps ++ b.tail

theorem length_repeatBack (distance n : Nat) (out : List UInt8) :
    (repeatBack distance n out).length = out.length + n := by
  induction n generalizing out with
  | zero => rfl
  | succ n ih =>
    rw [repeatBack, ih, List.length_append, List.length_singleton]
    omega

theorem repeatBack_add (distance m n : Nat) (out : List UInt8) :
    repeatBack distance (m + n) out = repeatBack distance n (repeatBack distance m out) := by
  induction m generalizing out with
  | zero => rw [Nat.zero_add, repeatBack]
  | succ m ih => rw [Nat.succ_add, repeatBack, ih, repeatBack]

/-- Repeating only adds bytes. -/
theorem prefix_repeatBack (distance n : Nat) (out : List UInt8) :
    out <+: repeatBack distance n out := by
  induction n generalizing out with
  | zero => exact List.prefix_refl out
  | succ n ih => exact (List.prefix_append ..).trans (ih _)

theorem prefix_extend (s : Step) (out : List UInt8) : out ++ s.literals <+: s.extend out :=
  prefix_repeatBack ..

theorem length_extend (s : Step) (out : List UInt8) :
    (s.extend out).length = out.length + s.literals.length + s.matched := by
  rw [Step.extend, length_repeatBack, List.length_append]

/-- Expanding only adds bytes. -/
theorem prefix_expandFrom (out : List UInt8) (steps : List Step) :
    out <+: expandFrom out steps := by
  induction steps generalizing out with
  | nil => exact List.prefix_refl out
  | cons s rest ih => exact (List.prefix_append ..).trans ((prefix_extend s out).trans (ih _))

/-! ## How a block is written -/

/-- How a sequence with its literal bytes is written. -/
def Step.bytes (s : Step) : List UInt8 := sequenceBytes s.literals s.distance s.matched

/-- How a block is written. -/
def Block.bytes (b : Block) : List UInt8 := b.steps.flatMap Step.bytes ++ tailBytes b.tail

/-- **A string of bytes is a block that decodes to another one.** -/
def IsBlock (bytes plain : ByteArray) : Prop :=
  ∃ b : Block, b.bytes = bytes.data.toList ∧ b.expansion = plain.data.toList

/-- The number of bytes in which a length goes on after half a token. -/
def extensionSize (length : Nat) : Nat :=
  if length < nibbleLimit then 0 else 1 + (length - nibbleLimit) / 255

/-- The size of some literal bytes in a block, with their token. -/
def literalsSize (literals : Nat) : Nat := 1 + extensionSize literals + literals

theorem length_lengthBytes (n : Nat) : (lengthBytes n).length = extensionSize n := by
  unfold lengthBytes extensionSize
  split
  · rfl
  · simp only [List.length_append, List.length_replicate, List.length_singleton]
    omega

theorem length_step_bytes (s : Step) :
    s.bytes.length = literalsSize s.literals.length + 2 + extensionSize (s.matched - minMatch) := by
  simp only [Step.bytes, sequenceBytes, List.length_cons, List.length_append, length_lengthBytes,
    literalsSize]
  omega

theorem length_tailBytes (tail : List UInt8) :
    (tailBytes tail).length = literalsSize tail.length := by
  simp only [tailBytes, List.length_cons, List.length_append, length_lengthBytes, literalsSize]
  omega

/-! ## How far a block expands -/

/-- A byte of a length stands for at most 255. -/
theorem le_extensionSize (n : Nat) : n ≤ 255 * extensionSize n + 14 := by
  unfold extensionSize
  split <;> simp only [nibbleLimit] at * <;> omega

theorem length_extend_le (s : Step) (out : List UInt8) :
    (s.extend out).length ≤ out.length + 255 * s.bytes.length := by
  have hmatch := le_extensionSize (s.matched - minMatch)
  have hmin := s.minMatch_le
  rw [length_extend, length_step_bytes, literalsSize]
  simp only [minMatch] at *
  omega

theorem length_expandFrom_le (out : List UInt8) (steps : List Step) :
    (expandFrom out steps).length ≤ out.length + 255 * (steps.flatMap Step.bytes).length := by
  induction steps generalizing out with
  | nil => simp [expandFrom]
  | cons s rest ih =>
    have hstep := length_extend_le s out
    have hrest := ih (s.extend out)
    rw [expandFrom, List.flatMap_cons, List.length_append]
    omega

/-- **No byte of a block stands for more than 255.** -/
theorem Block.length_expansion_le (b : Block) : b.expansion.length ≤ 255 * b.bytes.length := by
  have hsteps := length_expandFrom_le [] b.steps
  have htail := length_tailBytes b.tail
  rw [literalsSize] at htail
  rw [expansion, bytes, List.length_append, List.length_append]
  simp only [List.length_nil] at hsteps
  omega

/-- So a block is not decoded to more than the reader expects. -/
theorem IsBlock.size_le {bytes plain : ByteArray} (h : IsBlock bytes plain) :
    plain.size ≤ 255 * bytes.size := by
  obtain ⟨b, hbytes, hplain⟩ := h
  have := b.length_expansion_le
  rw [hbytes, hplain] at this
  exact this

end Erofs.Lz4
