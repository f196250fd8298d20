import Erofs.Compression.OccupiedSize
import Erofs.Directory
import Erofs.Statistics
/-!
# The survey of a tree

The survey goes through the tree below the root, each directory in the
order of its entries and each subdirectory when its entry comes. An entry
that leads back to its directory or to the one above is passed over. A
failure costs the file or the rest of the directory that it concerns and
is recorded; only a root that cannot be read ends the survey. Directories
nest at most as deep as is allowed, which also bounds the survey where
they form a cycle.

All of it works on one path and on one accumulator (`Tour`). The name of an
entry is put at the end of the path, and the path is cut back to what it
was when the entry is done with.
-/

namespace Erofs

/-- What a survey changes as it goes. -/
structure Tour where
  /-- The path of the file that it is at. -/
  path : String
  /-- What it has added up so far. -/
  statistics : Statistics

namespace Tour

section

variable (t : Tour)

/-- Changes the statistics. -/
def update (change : Statistics → Statistics) : Tour :=
  { t with statistics := change t.statistics }

/-- Puts a name at the end of the path. -/
def enter (name : String) : Tour := { t with path := t.path ++ "/" ++ name }

/-- Cuts the path back to its first `length` characters. -/
def leave (length : Nat) : Tour := { t with path := String.ofList (t.path.toList.take length) }

/-- Records a failure at the path. -/
def recordError (nid : Nat) (cause : Error) : Session Tour := do
  let e : TreeError := ⟨nid, t.path, cause⟩
  Session.report e.met
  return t.update (·.addError e)

/-- Adds a regular file by its inode. -/
def addFile [Lz4.Compressor] (sb : Superblock) (i : Inode) : Session Tour := do
  match ← (i.occupiedSize sb).attempt with
  | .ok occupied => return t.update (·.addRegular i.size.toNat occupied i.isCompressed)
  | .error cause => t.recordError i.nid cause

end

/-- How a survey goes on in a subdirectory. -/
abbrev Descent := Inode → Tour → Session Tour

variable [Lz4.Compressor]

/-- Adds the file with the number `nid`, and what lies below it. -/
def addInode (sb : Superblock) (descend : Descent) (nid : Nat) (t : Tour) : Session Tour := do
  match ← (Inode.read sb nid).attempt with
  | .error cause => t.recordError nid cause
  | .ok i =>
    let t := t.update (·.count i.type)
    if i.isRegular then t.addFile sb i
    else if i.isDirectory then descend i t
    else return t

/-- Adds the file of an entry, and what lies below it. -/
def addEntry (sb : Superblock) (descend : Descent) (e : DirectoryEntry) (t : Tour) :
    Session Tour := do
  let saved := t.path.length
  let t ← addInode sb descend e.nid (t.enter e.nameText)
  return t.leave saved

/-- Adds the entries of a block of the directory `nid` below `parent`. -/
def addEntries (sb : Superblock) (descend : Descent) (nid parent : Nat) :
    List DirectoryEntry → Tour → Session Tour
  | [], t => return t
  | e :: rest, t => do
    let t ← if e.nid = nid ∨ e.nid = parent then pure t else addEntry sb descend e t
    addEntries sb descend nid parent rest t

/-- Adds the last `left` blocks of a directory. -/
def addBlocks (sb : Superblock) (descend : Descent) (d : Directory) (parent : Nat) :
    (left : Nat) → Tour → Session Tour
  | 0, t => return t
  | left + 1, t => do
    let nid := d.inode.nid
    match ← (d.loadBlock sb (d.blockCount - (left + 1))).attempt with
    | .error cause => t.recordError nid cause
    | .ok listing =>
      let t ← addEntries sb descend nid parent listing.entries t
      match listing.fault? with
      | some cause =>
        Session.reportFailure cause
        t.recordError nid cause
      | none => addBlocks sb descend d parent left t

/-- Adds the tree below a directory at some depth; `levels` says how many
more levels of directories are allowed, its own included. -/
def addTree (sb : Superblock) :
    (levels : Nat) → (depth parent : Nat) → Inode → Tour → Session Tour
  | 0, _, _, i, t => t.recordError i.nid .tooDeep
  | levels + 1, depth, parent, i, t =>
    let t := t.update (·.reach depth)
    match Directory.ofInode sb i with
    | .error cause => do
      Session.reportFailure cause
      t.recordError i.nid cause
    | .ok d => addBlocks sb (addTree sb levels (depth + 1) i.nid) d parent d.blockCount t

end Tour

namespace Statistics

variable [Lz4.Compressor] (sb : Superblock) (maxDepth : Nat) (s : Statistics)

/-- Adds the tree of an image, whose directories may nest to the depth
`maxDepth`. Fails if its root cannot be read. Either way the statistics are
handed back. -/
def collect : Session (Except Error Unit × Statistics) := do
  match ← (Inode.read sb sb.root).attempt with
  | .error cause => return (.error cause, s)
  | .ok root =>
    let t : Tour := ⟨"", s.count root.type⟩
    let t ← if root.isDirectory then Tour.addTree sb (maxDepth + 1) 0 root.nid root t else pure t
    Session.report t.statistics.finished
    return (.ok (), t.statistics)

/-- The statistics with the tree of an image added. -/
def survey : Session (Except Error Statistics) := do
  let (outcome, s) ← s.collect sb maxDepth
  return outcome.map fun () => s

end Statistics

end Erofs
