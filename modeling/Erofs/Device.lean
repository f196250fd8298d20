import Erofs.Error
/-!
# Devices

A device holds an image and hands it out in whole blocks. It may fail at
any call, and it may hand over less than it was asked for; what it
reports decides which. A device changes only by being used.
-/

namespace Erofs

/-- What a device hands over: the number of bytes it reports, and what
it put at the front of the room it was given. -/
structure Transfer where
  reported : Nat
  data : ByteArray

/-- A device that is read block by block. It may answer anew, each time it
is asked, how large it and its blocks are. -/
class BlockDevice (δ : Type) where
  /-- The size of a block in bytes. -/
  blockSize : δ → UInt32
  /-- The number of blocks, the last of which may be cut short. -/
  totalBlocks : δ → UInt64
  /-- The number of bytes; every block is whole unless the device knows
  better. -/
  size : δ → UInt64 := fun device => totalBlocks device * (blockSize device).toUInt64
  /-- Hands over `count` blocks from block `first` on to a caller that
  has `room` bytes for them. -/
  readBlocks : δ → (first count room : Nat) → Except Error Transfer × δ
  /-- Prepares the device for use; most need no preparation. -/
  attach : δ → Except Error Unit × δ := fun device => (.ok (), device)
  /-- Ends the use of the device. -/
  detach : δ → Except Error Unit × δ := fun device => (.ok (), device)

end Erofs
