import Erofs.Proofs.Bytes
/-!
# Arithmetic in words

A machine computes in words of a fixed number of bits, and cuts slices out
of strings of a fixed length. Each operation here has its exact value or
none at all: none if the value has too many bits or is negative, if a
shift is by a whole word or more, or if something outside a string is
asked for. So where such an operation has a value, a machine computes that
value and does not fault.
-/

namespace Erofs.Machine

variable {bits a b places : Nat}

/-- A value, if it has at most some bits. -/
def fit (bits n : Nat) : Option Nat := if n < 2 ^ bits then some n else none

/-- A sum, in words of some bits. -/
def add (bits a b : Nat) : Option Nat := fit bits (a + b)

/-- A difference, if it is not negative. -/
def sub (a b : Nat) : Option Nat := if b ≤ a then some (a - b) else none

/-- A product, in words of some bits. -/
def mul (bits a b : Nat) : Option Nat := fit bits (a * b)

/-- A quotient, unless the divisor is zero. -/
def div (a b : Nat) : Option Nat := if b = 0 then none else some (a / b)

/-- A shift to the left by less than a word that loses no bits. -/
def shiftLeft (bits a places : Nat) : Option Nat :=
  if places < bits then fit bits (a * 2 ^ places) else none

/-- A shift to the right by less than a word. -/
def shiftRight (bits a places : Nat) : Option Nat :=
  if places < bits then some (a / 2 ^ places) else none

/-- The lowest `places` bits, by a mask. -/
def lowest (bits a places : Nat) : Option Nat := do
  let unit ← shiftLeft bits 1 places
  let mask ← sub unit 1
  return a &&& mask

/-- The last multiple of `size`, a power of two, that is not past `a`, by a
mask. -/
def alignDown (bits a size : Nat) : Option Nat := do
  let mask ← sub size 1
  return a &&& (2 ^ bits - (mask + 1))

@[simp] theorem some_bind {α β : Type} (a : α) (next : α → Option β) :
    (some a >>= next) = next a := rfl

theorem fit_of_lt (h : a < 2 ^ bits) : fit bits a = some a := if_pos h

theorem add_of_lt (h : a + b < 2 ^ bits) : add bits a b = some (a + b) := fit_of_lt h

theorem sub_of_le (h : b ≤ a) : sub a b = some (a - b) := if_pos h

theorem mul_of_lt (h : a * b < 2 ^ bits) : mul bits a b = some (a * b) := fit_of_lt h

theorem div_of_pos (h : 0 < b) : div a b = some (a / b) := if_neg (Nat.ne_of_gt h)

theorem shiftLeft_of_lt (hplaces : places < bits) (h : a * 2 ^ places < 2 ^ bits) :
    shiftLeft bits a places = some (a * 2 ^ places) := by
  rw [shiftLeft, if_pos hplaces, fit_of_lt h]

/-- A single bit can be shifted to any place of a word. -/
theorem shiftLeft_one (h : places < bits) : shiftLeft bits 1 places = some (2 ^ places) := by
  rw [shiftLeft_of_lt h, Nat.one_mul]
  rw [Nat.one_mul]
  exact Nat.pow_lt_pow_right (by decide) h

theorem shiftRight_of_lt (h : places < bits) : shiftRight bits a places = some (a / 2 ^ places) :=
  if_pos h

theorem lowest_of_lt (h : places < bits) : lowest bits a places = some (a % 2 ^ places) := by
  rw [lowest, shiftLeft_one h, some_bind, sub_of_le (Nat.two_pow_pos places), some_bind,
    Nat.and_two_pow_sub_one_eq_mod]
  rfl

theorem alignDown_of_le (ha : a < 2 ^ bits) (hplaces : places ≤ bits) :
    alignDown bits a (2 ^ places) = some (a / 2 ^ places * 2 ^ places) := by
  have hpos := Nat.two_pow_pos places
  have hmask : 2 ^ places - 1 < 2 ^ bits :=
    Nat.lt_of_lt_of_le (by omega) (Nat.pow_le_pow_right (by decide) hplaces)
  rw [alignDown, sub_of_le (by omega), some_bind]
  refine congrArg some (Nat.eq_of_testBit_eq fun i => ?_)
  rw [Nat.testBit_and, Nat.testBit_two_pow_sub_succ hmask, Nat.testBit_two_pow_sub_one,
    Nat.testBit_mul_two_pow, Nat.testBit_div_two_pow]
  by_cases hi : i < places
  · simp [hi, Nat.not_le.mpr hi]
  · have hle := Nat.le_of_not_lt hi
    by_cases hbit : i < bits
    · simp [hi, hle, hbit, Nat.sub_add_cancel hle]
    · have hzero : a.testBit i = false :=
        Nat.testBit_lt_two_pow (Nat.lt_of_lt_of_le ha
          (Nat.pow_le_pow_right (by decide) (Nat.le_of_not_lt hbit)))
      simp [hi, hle, hzero, Nat.sub_add_cancel hle]

/-! ## Strings of bytes -/

/-- The `length` bytes from `offset` on, if they are all there. -/
def sliceAt (s : ByteArray) (offset length : Nat) : Option ByteArray := do
  let stop ← add 64 offset length
  if stop ≤ s.size then some (slice s offset length) else none

/-- What is read from the `width` bytes at `offset`, if they are all
there. -/
def field {α : Type} (s : ByteArray) (offset width : Nat) (value : α) : Option α :=
  if offset + width ≤ s.size then some value else none

/-- The byte at an offset. -/
def field8 (s : ByteArray) (offset : Nat) : Option UInt8 := field s offset 1 (byteAt s offset)

/-- The 16-bit field at an offset. -/
def field16 (s : ByteArray) (offset : Nat) : Option UInt16 := field s offset 2 (u16At s offset)

/-- The 32-bit field at an offset. -/
def field32 (s : ByteArray) (offset : Nat) : Option UInt32 := field s offset 4 (u32At s offset)

/-- The 64-bit field at an offset. -/
def field64 (s : ByteArray) (offset : Nat) : Option UInt64 := field s offset 8 (u64At s offset)

variable {s : ByteArray} {offset length : Nat}

theorem sliceAt_of_le (h : offset + length ≤ s.size) (hlimit : offset + length < 2 ^ 64) :
    sliceAt s offset length = some (slice s offset length) := by
  rw [sliceAt, add_of_lt hlimit, some_bind, if_pos h]

theorem field8_of_le (h : offset + 1 ≤ s.size) : field8 s offset = some (byteAt s offset) :=
  if_pos h

theorem field16_of_le (h : offset + 2 ≤ s.size) : field16 s offset = some (u16At s offset) :=
  if_pos h

theorem field32_of_le (h : offset + 4 ≤ s.size) : field32 s offset = some (u32At s offset) :=
  if_pos h

theorem field64_of_le (h : offset + 8 ≤ s.size) : field64 s offset = some (u64At s offset) :=
  if_pos h

end Erofs.Machine
