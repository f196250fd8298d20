/-!
# File types

The type of a file is written twice: in the top four bits of the mode of
its inode, and as a small code beside its name in a directory. This file
reads and writes both. Only the second has a code for a type that is not
known.
-/

namespace Erofs

/-- What a file is. -/
inductive FileType where
  | unknown | fifo | characterDevice | directory | blockDevice | regularFile | symlink | socket
  deriving DecidableEq, Repr

namespace FileType

/-- Every file type, in the order of their codes in a mode. -/
def all : List FileType :=
  [unknown, fifo, characterDevice, directory, blockDevice, regularFile, symlink, socket]

/-- The place of a type in `all`, at which it is counted. -/
def index : FileType → Fin 8
  | unknown => 0
  | fifo => 1
  | characterDevice => 2
  | directory => 3
  | blockDevice => 4
  | regularFile => 5
  | symlink => 6
  | socket => 7

/-- The name of a type. -/
def label : FileType → String
  | unknown => "Unknown"
  | fifo => "Fifo"
  | characterDevice => "CharacterDevice"
  | directory => "Directory"
  | blockDevice => "BlockDevice"
  | regularFile => "RegularFile"
  | symlink => "Symlink"
  | socket => "Socket"

/-- The bits of a mode that give the type. -/
def modeMask : UInt16 := 0o170000

/-- The type bits of a mode. -/
def modeBits : FileType → UInt16
  | unknown => 0
  | fifo => 0o010000
  | characterDevice => 0o020000
  | directory => 0o040000
  | blockDevice => 0o060000
  | regularFile => 0o100000
  | symlink => 0o120000
  | socket => 0o140000

/-- Reads the type bits of a mode; `none` if they stand for no type. -/
def ofMode? (mode : UInt16) : Option FileType :=
  match (mode &&& modeMask).toNat with
  | 0o010000 => some fifo
  | 0o020000 => some characterDevice
  | 0o040000 => some directory
  | 0o060000 => some blockDevice
  | 0o100000 => some regularFile
  | 0o120000 => some symlink
  | 0o140000 => some socket
  | _ => none

/-- The code of a type in a directory. -/
def entryCode : FileType → UInt8
  | unknown => 0
  | regularFile => 1
  | directory => 2
  | characterDevice => 3
  | blockDevice => 4
  | fifo => 5
  | socket => 6
  | symlink => 7

/-- Reads the code of a type in a directory. -/
def ofEntryCode (code : UInt8) : FileType :=
  match code.toNat with
  | 1 => regularFile
  | 2 => directory
  | 3 => characterDevice
  | 4 => blockDevice
  | 5 => fifo
  | 6 => socket
  | 7 => symlink
  | _ => unknown

/-- Whether files of the type stand for a device. -/
def isDevice : FileType → Bool
  | characterDevice | blockDevice => true
  | _ => false

/-- Only the unknown type has no bits of its own. -/
theorem ofMode?_modeBits (t : FileType) :
    ofMode? t.modeBits = if t = unknown then none else some t := by
  cases t <;> rfl

theorem ofEntryCode_entryCode (t : FileType) : ofEntryCode t.entryCode = t := by
  cases t <;> rfl

end FileType

end Erofs
