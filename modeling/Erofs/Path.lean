import Erofs.Directory
import Erofs.Text
/-!
# Paths

A path is resolved from the root, whether it starts with a slash or not.
Empty components and `.` are skipped; `..` is a name like any other,
since directories have an entry for it.
-/

namespace Erofs.Path

/-- Cuts a path at its slashes. -/
def pieces : List Char → List (List Char)
  | [] => [[]]
  | c :: rest =>
    match pieces rest with
    | [] => [[c]]
    | piece :: others => if c = '/' then [] :: piece :: others else (c :: piece) :: others

/-- The components of a path. -/
def components (path : String) : List String :=
  ((pieces path.toList).filter fun piece => !piece.isEmpty && piece != ['.']).map String.ofList

/-- The line that a component leaves in the journal when it is found. -/
def found (component : String) (nid : Nat) : Remark :=
  let component := Text.quoted component
  ⟨.trace, s!"[DIR] lookup {component} -> nid {nid}"⟩

variable (sb : Superblock)

/-- One step of a path. -/
def step (i : Inode) (component : String) : Query Inode := do
  if !i.isDirectory then Query.fail .notADirectory
  else
    let nid ← Directory.find sb i component.toUTF8
    Query.report (found component nid)
    Inode.read sb nid

/-- The inode that a path names. -/
def find (path : String) : Query Inode := do
  if path.isEmpty then Query.fail .emptyPath
  else
    let root ← Inode.read sb sb.root
    (components path).foldlM (step sb) root

end Erofs.Path
