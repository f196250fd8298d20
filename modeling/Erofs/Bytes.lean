/-!
# Bytes of an image

A record of the image is a run of bytes whose fields are numbers with
the least significant byte first. This file reads such fields. Reading
is total: a byte past the end counts as zero, and a decoder that must
not see one checks the length of its input first.
-/

-- Powers and comparisons are the core library's, whatever else is imported.
attribute [instance (high), default_instance (high)] instPowNat
attribute [instance (high)] ByteArray.instDecidableEq

namespace Erofs

/-- The byte of `b` at position `i`, and zero past the end. -/
def byteAt (b : ByteArray) (i : Nat) : UInt8 :=
  if h : i < b.size then b[i] else 0

/-- The number held by the `width` bytes from `offset` on, least
significant byte first. -/
def littleEndian (b : ByteArray) (offset : Nat) : (width : Nat) → Nat
  | 0 => 0
  | width + 1 => (byteAt b offset).toNat + 256 * littleEndian b (offset + 1) width

/-- The 16-bit field at `offset`. -/
def u16At (b : ByteArray) (offset : Nat) : UInt16 := (littleEndian b offset 2).toUInt16

/-- The 32-bit field at `offset`. -/
def u32At (b : ByteArray) (offset : Nat) : UInt32 := (littleEndian b offset 4).toUInt32

/-- The 64-bit field at `offset`. -/
def u64At (b : ByteArray) (offset : Nat) : UInt64 := (littleEndian b offset 8).toUInt64

/-- A run of `n` zero bytes. -/
def zeros (n : Nat) : ByteArray := ⟨Array.replicate n 0⟩

/-- The `length` bytes of `b` from `offset` on, or fewer where `b` ends
before that. -/
def slice (b : ByteArray) (offset length : Nat) : ByteArray :=
  b.extract offset (offset + length)

/-- The `length` bytes of `b` from `offset` on, with zeros for those past
the end. -/
def paddedSlice (b : ByteArray) (offset length : Nat) : ByteArray :=
  let present := slice b offset length
  present ++ zeros (length - present.size)

/-- Sizes and positions are 64-bit numbers; this is the first one that
does not fit. -/
def addressLimit : Nat := 2 ^ 64

/-- The number of units of `2 ^ bits` bytes that cover `size` bytes. -/
def unitsCovering (size bits : Nat) : Nat :=
  (size + (2 ^ bits - 1)) / 2 ^ bits

/-- Block addresses and lcluster numbers have 32 bits, so no file covers
more units than this. -/
def maxAddressableUnits : Nat := 2 ^ 32

theorem byteAt_of_lt {b : ByteArray} {i : Nat} (h : i < b.size) : byteAt b i = b[i] := by
  simp [byteAt, h]

theorem littleEndian_lt (b : ByteArray) (offset width : Nat) :
    littleEndian b offset width < 256 ^ width := by
  induction width generalizing offset with
  | zero => simp [littleEndian]
  | succ width ih =>
    have := ih (offset + 1)
    have := (byteAt b offset).toNat_lt
    rw [littleEndian, Nat.pow_succ]
    omega

theorem size_zeros (n : Nat) : (zeros n).size = n := by
  simp [zeros, ByteArray.size]

end Erofs
