import Erofs.Bytes
import Erofs.Device
/-!
# Images in files

The length of a file is noted when it is opened. The file may change
behind the device's back: past the noted length there is nothing, and
bytes within it that the file no longer has make the read fail.
-/

namespace Erofs

/-- A file with an image, read in blocks of `blockSize` bytes: what the
file holds now, and how long it was when it was opened. -/
structure FileDevice where
  contents : ByteArray
  length : UInt64
  blockSize : UInt32

namespace FileDevice

/-- Opens a file that holds `contents`; `none` stands for a file that
does not exist. -/
def ofFile (contents? : Option ByteArray) (blockSize : UInt32) : Except Error FileDevice :=
  match contents? with
  | none => .error .deviceFailure
  | some contents => .ok ⟨contents, contents.size.toUInt64, blockSize⟩

/-- The line that opening a file leaves in the journal. -/
def opened (d : FileDevice) : Remark :=
  let length := d.length
  ⟨.debug, s!"[SB] image file length {length} bytes"⟩

/-- The file after its length was set to `length`: cut short, or filled
up with zeros. The device still goes by the length it noted. -/
def truncate (d : FileDevice) (length : Nat) : FileDevice :=
  { d with contents := paddedSlice d.contents 0 length }

/-- The number of blocks that the file started when it was opened. -/
def totalBlocks (d : FileDevice) : UInt64 :=
  let blockSize := d.blockSize.toUInt64
  (d.length + blockSize - 1) / blockSize

/-- Hands over blocks of the file, filled up with zeros past the noted
length. -/
def readBlocks (d : FileDevice) (first count room : Nat) : Except Error Transfer :=
  let start := first * d.blockSize.toNat
  let length := count * d.blockSize.toNat
  if addressLimit ≤ start then .error .blockAddressOutOfRange
  else if d.length.toNat ≤ start ∨ room < length then .error .pastEndOfImage
  else
    let available := min length (d.length.toNat - start)
    if available ≠ 0 ∧ d.contents.size < start + available then .error .deviceFailure
    else .ok ⟨length, paddedSlice (slice d.contents start available) 0 length⟩

end FileDevice

instance : BlockDevice FileDevice where
  blockSize := FileDevice.blockSize
  totalBlocks := FileDevice.totalBlocks
  size := FileDevice.length
  readBlocks d first count room := (d.readBlocks first count room, d)

end Erofs
