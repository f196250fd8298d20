/-!
# Text

How the lines of the journal and the messages of errors write numbers and
paths, and how names are shown. Bit patterns are written in base sixteen
and file modes in base eight, each with a mark of its base, and some with a
fixed width. A path component stands between double quotes, with escapes
for what would hide where it ends. A name in a directory is a string of
bytes and need not be text.
-/

namespace Erofs.Text

/-! ## Numbers -/

/-- The base-sixteen numeral of `n`, in lower case and after the mark
`0x`. -/
def hex (n : Nat) : String := "0x" ++ String.ofList (Nat.toDigits 16 n)

/-- The base-eight numeral of `n`, after the mark `0o`. -/
def octal (n : Nat) : String := "0o" ++ String.ofList (Nat.toDigits 8 n)

/-- A 32-bit word in base sixteen: eight digits, zeros in front, after
the mark `0x`. -/
def hexWord (w : UInt32) : String :=
  let digits := Nat.toDigits 16 w.toNat
  "0x" ++ String.ofList (List.replicate (8 - digits.length) '0' ++ digits)

/-! ## Quoted text -/

/-- The first and the last of the characters that are controls, spaces
other than the usual one, separators, marks of a format or kept for private
use. -/
def invisible : List (Nat × Nat) :=
  [(0, 0x1F), (0x7F, 0xA0), (0xAD, 0xAD), (0x600, 0x605), (0x61C, 0x61C), (0x6DD, 0x6DD),
    (0x70F, 0x70F), (0x890, 0x891), (0x8E2, 0x8E2), (0x1680, 0x1680), (0x180E, 0x180E),
    (0x2000, 0x200F), (0x2028, 0x202F), (0x205F, 0x2064), (0x2066, 0x206F), (0x3000, 0x3000),
    (0xE000, 0xF8FF), (0xFEFF, 0xFEFF), (0xFFF9, 0xFFFB), (0x110BD, 0x110BD), (0x110CD, 0x110CD),
    (0x13430, 0x1343F), (0x1BCA0, 0x1BCA3), (0x1D173, 0x1D17A), (0xE0001, 0xE0001),
    (0xE0020, 0xE007F), (0xF0000, 0xFFFFD), (0x100000, 0x10FFFD)]

/-- Whether a character shows on a line. -/
def isVisible (c : Char) : Bool :=
  !invisible.any fun (first, last) => first ≤ c.toNat && c.toNat ≤ last

/-- How a character is written between quotes. -/
def escaped (c : Char) : List Char :=
  if c = '"' then ['\\', '"']
  else if c = '\\' then ['\\', '\\']
  else if c = '\n' then ['\\', 'n']
  else if c = '\r' then ['\\', 'r']
  else if c = '\t' then ['\\', 't']
  else if c.toNat = 0 then ['\\', '0']
  else if isVisible c then [c]
  else ['\\', 'u', '\x7b'] ++ Nat.toDigits 16 c.toNat ++ ['\x7d']

/-- A text between quotes. -/
def quoted (s : String) : String :=
  String.ofList (['"'] ++ s.toList.flatMap escaped ++ ['"'])

/-! ## Names as text

To show a name, every well-formed UTF-8 sequence becomes its character, and
every longest run of bytes that starts such a sequence without finishing
it, like every byte that starts none, becomes one replacement character. -/

/-- What stands for bytes that are no text. -/
def replacement : Char := '\uFFFD'

/-- What the first byte of a sequence announces: how many bytes follow,
between which bounds the next one lies, and the leading bits of the
character. The bounds leave out overlong forms, surrogates and values
past the last character. -/
structure Lead where
  following : Nat
  low : UInt8
  high : UInt8
  bits : Nat

/-- Reads a first byte; `none` for a byte that starts no sequence. -/
def Lead.ofByte? (b : UInt8) : Option Lead :=
  let n := b.toNat
  if n < 0x80 then some ⟨0, 0x80, 0xBF, n⟩
  else if n < 0xC2 then none
  else if n < 0xE0 then some ⟨1, 0x80, 0xBF, n - 0xC0⟩
  else if n = 0xE0 then some ⟨2, 0xA0, 0xBF, 0⟩
  else if n = 0xED then some ⟨2, 0x80, 0x9F, 0xD⟩
  else if n < 0xF0 then some ⟨2, 0x80, 0xBF, n - 0xE0⟩
  else if n = 0xF0 then some ⟨3, 0x90, 0xBF, 0⟩
  else if n < 0xF4 then some ⟨3, 0x80, 0xBF, n - 0xF0⟩
  else if n = 0xF4 then some ⟨3, 0x80, 0x8F, 4⟩
  else none

/-- Reads the `following` bytes of a begun sequence, six bits each, the
first between `low` and `high`. A byte out of bounds is left unread. -/
def finishSequence (low high : UInt8) (bits : Nat) :
    (following : Nat) → List UInt8 → Char × List UInt8
  | 0, rest => (Char.ofNat bits, rest)
  | _ + 1, [] => (replacement, [])
  | following + 1, b :: rest =>
    if low ≤ b ∧ b ≤ high then
      finishSequence 0x80 0xBF (bits * 64 + b.toNat % 64) following rest
    else (replacement, b :: rest)

theorem length_finishSequence (low high : UInt8) (bits following : Nat) (bytes : List UInt8) :
    (finishSequence low high bits following bytes).2.length ≤ bytes.length := by
  induction following generalizing low high bits bytes with
  | zero => simp [finishSequence]
  | succ following ih =>
    cases bytes with
    | nil => simp [finishSequence]
    | cons b rest =>
      simp only [finishSequence]
      split
      · exact Nat.le_succ_of_le (ih ..)
      · exact Nat.le_refl _

/-- The first character of a string of bytes that starts with `b`, and
the bytes after it. -/
def firstChar (b : UInt8) (rest : List UInt8) : Char × List UInt8 :=
  match Lead.ofByte? b with
  | none => (replacement, rest)
  | some lead => finishSequence lead.low lead.high lead.bits lead.following rest

theorem length_firstChar (b : UInt8) (rest : List UInt8) :
    (firstChar b rest).2.length ≤ rest.length := by
  unfold firstChar
  split
  · exact Nat.le_refl _
  · exact length_finishSequence ..

/-- The characters that show a string of bytes. -/
def lossyChars : List UInt8 → List Char
  | [] => []
  | b :: rest => (firstChar b rest).1 :: lossyChars (firstChar b rest).2
termination_by bytes => bytes.length
decreasing_by exact Nat.lt_succ_of_le (length_firstChar ..)

/-- The text that shows a string of bytes. -/
def lossy (bytes : ByteArray) : String := String.ofList (lossyChars bytes.data.toList)

end Erofs.Text
