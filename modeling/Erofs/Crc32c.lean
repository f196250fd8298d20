/-!
# The CRC-32C register

The superblock is guarded by a cyclic redundancy check with the
Castagnoli polynomial, least significant bit first. The register starts
with all bits set and takes in one byte after another; what it holds at
the end is the checksum, without a final inversion.
-/

namespace Erofs.Crc32c

/-- The polynomial, its bits in reverse order. -/
def polynomial : UInt32 := 0x82F63B78

/-- The register after it has moved on by one bit. -/
def shift (register : UInt32) : UInt32 :=
  if register &&& 1 = 1 then (register >>> 1) ^^^ polynomial else register >>> 1

/-- The register after it has moved on by `n` bits. -/
def shifts : (n : Nat) → UInt32 → UInt32
  | 0, register => register
  | n + 1, register => shifts n (shift register)

/-- The register after it has taken in a byte. -/
def feed (register : UInt32) (byte : UInt8) : UInt32 := shifts 8 (register ^^^ byte.toUInt32)

/-- The register after it has taken in a string of bytes. -/
def feedAll (register : UInt32) (bytes : ByteArray) : UInt32 := bytes.data.foldl feed register

/-- The checksum of a string of bytes. -/
def checksum (bytes : ByteArray) : UInt32 := feedAll 0xFFFFFFFF bytes

/-- The checksum of strings of bytes that follow each other. -/
def checksumParts (parts : List ByteArray) : UInt32 := parts.foldl feedAll 0xFFFFFFFF

end Erofs.Crc32c
