import Erofs.Directory
/-!
# Cursors

A cursor goes through a directory one entry at a time and reads a block
when it comes to it. After a failure it is at its end. It can be set back
to the start at any time.
-/

namespace Erofs

/-- A place in a directory: what is left of the block read last, and how
many blocks follow it. -/
structure Cursor where
  directory : Directory
  pending : Listing
  blocksLeft : Nat
  deriving DecidableEq

namespace Cursor

/-- The start of a directory. -/
def start (d : Directory) : Cursor := ⟨d, .empty, d.blockCount⟩

/-- The end of a directory. -/
def finish (d : Directory) : Cursor := ⟨d, .empty, 0⟩

/-- Sets the cursor back to the start. -/
def rewind (c : Cursor) : Cursor := start c.directory

/-- The next entry of a directory, if there is one, and the place after
it: from what is pending, or else from the last `left` blocks. -/
def advanceFrom (sb : Superblock) (d : Directory) :
    (pending : Listing) → (left : Nat) → Query (Option DirectoryEntry × Cursor)
  | ⟨e :: rest, fault?⟩, left => return (some e, ⟨d, ⟨rest, fault?⟩, left⟩)
  | ⟨[], some cause⟩, _ => Query.fail cause
  | ⟨[], none⟩, 0 => return (none, finish d)
  | ⟨[], none⟩, left + 1 => do
    let listing ← d.loadBlock sb (d.blockCount - (left + 1))
    advanceFrom sb d listing left
termination_by _ left => left

/-- The next entry, if there is one, and the place after it. -/
def advance (sb : Superblock) (c : Cursor) : Query (Option DirectoryEntry × Cursor) :=
  advanceFrom sb c.directory c.pending c.blocksLeft

/-- The next entry, or the cause why there is none; after that the cursor
is at the end. -/
def next (sb : Superblock) (c : Cursor) :
    Session (Except Error (Option DirectoryEntry) × Cursor) := do
  match ← (c.advance sb).attempt with
  | .ok (entry, c) => return (.ok entry, c)
  | .error cause => return (.error cause, finish c.directory)

end Cursor

end Erofs
