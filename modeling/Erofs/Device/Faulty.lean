import Erofs.Bytes
import Erofs.Device
/-!
# Devices that fail on cue

A device for trying out how its users cope. It serves an image of its
own, with zeros past the end, records every call, fails from a chosen
call on, and at a chosen call reports one byte less than it was asked
for.
-/

namespace Erofs

/-- A call of a device. -/
structure DeviceCall where
  first : Nat
  count : Nat
  room : Nat
  deriving DecidableEq, Repr

/-- A device with chosen faults. Calls are numbered from zero. -/
structure FaultyDevice where
  image : ByteArray
  blockSize : UInt32
  totalBlocks : UInt64
  /-- What it reports when it fails. -/
  failure : Error
  /-- The number of the first call that fails. -/
  failFrom : Option Nat
  /-- The number of the call that falls short. -/
  shortAt : Option Nat
  /-- The calls so far. -/
  calls : Array DeviceCall

namespace FaultyDevice

/-- What the next call hands over. -/
def transfer (d : FaultyDevice) (first count room : Nat) : Except Error Transfer :=
  let number := d.calls.size
  let blockSize := d.blockSize.toNat
  let length := count * blockSize
  if d.failFrom.any (· ≤ number) then .error d.failure
  else
    let reported := if d.shortAt = some number then length - 1 else length
    .ok ⟨reported, slice (paddedSlice d.image (first * blockSize) length) 0 room⟩

end FaultyDevice

instance : BlockDevice FaultyDevice where
  blockSize := FaultyDevice.blockSize
  totalBlocks := FaultyDevice.totalBlocks
  readBlocks d first count room :=
    (d.transfer first count room, { d with calls := d.calls.push ⟨first, count, room⟩ })

end Erofs
