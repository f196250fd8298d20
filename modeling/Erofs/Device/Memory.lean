import Erofs.Bytes
import Erofs.Device
/-!
# Images in memory

The image is a string of bytes of any length. A read that starts inside
it succeeds, and a last block that the image does not fill is filled up
with zeros.
-/

namespace Erofs

/-- An image in memory, read in blocks of `blockSize` bytes. -/
structure MemoryDevice where
  image : ByteArray
  blockSize : UInt32
  /-- No more than half of the address space is ever handed out. -/
  size_lt : image.size < 2 ^ 63

namespace MemoryDevice

/-- The number of blocks that the image starts. -/
def totalBlocks (d : MemoryDevice) : UInt64 :=
  let blockSize := d.blockSize.toUInt64
  (d.image.size.toUInt64 + blockSize - 1) / blockSize

/-- Hands over blocks of the image, filled up with zeros past its end. -/
def readBlocks (d : MemoryDevice) (first count room : Nat) : Except Error Transfer :=
  let start := first * d.blockSize.toNat
  let length := count * d.blockSize.toNat
  if addressLimit ≤ start then .error .blockAddressOutOfRange
  else if d.image.size ≤ start ∨ room < length then .error .pastEndOfImage
  else .ok ⟨length, paddedSlice d.image start length⟩

end MemoryDevice

instance : BlockDevice MemoryDevice where
  blockSize := MemoryDevice.blockSize
  totalBlocks := MemoryDevice.totalBlocks
  size d := d.image.size.toUInt64
  readBlocks d first count room := (d.readBlocks first count room, d)

end Erofs
