import Erofs.Lz4.Fit
/-!
# The greedy compressor

A plan cuts a source into sequences. The greedy plan walks along the
source with a table of the last place where each hash of the next bytes
was seen, takes the first place that matches, and widens the match to
both sides. After many failures it takes longer steps. The greedy
compressor writes the block of that plan.
-/

namespace Erofs.Lz4

/-- A sequence: how many literal bytes it has, how far back its match
lies, and how long that is. -/
structure Sequence where
  literals : Nat
  distance : Nat
  matched : Nat
  deriving DecidableEq, Repr

/-- A source cut into sequences and the literal bytes after the last
one. -/
structure Plan where
  sequences : List Sequence
  tail : Nat
  deriving DecidableEq, Repr

/-- A source shorter than this is not searched. -/
def minSearched : Nat := 13

/-- A match starts at least this far from the end. -/
def searchMargin : Nat := 12

/-- A match ends at least this far from the end. -/
def matchMargin : Nat := 6

/-- The farthest distance of a match. -/
def maxDistance : Nat := 65535

/-- The number of places in the table. -/
def tableSize : Nat := 4096

/-- A source of at least this size is hashed by eight bytes and not by
four. -/
def wideHashSize : Nat := 65535

/-- The places seen last, by their hashes. -/
abbrev Table := Array Nat

/-- The number held by `width` bytes from `position` on, least
significant byte first. -/
def word (src : ByteArray) (position : Nat) : (width : Nat) → UInt64
  | 0 => 0
  | width + 1 => (byteAt src position).toUInt64 ||| (word src (position + 1) width <<< 8)

/-- The place of a position in the table: the top bits of a product that
mixes the bytes there. -/
def hash (src : ByteArray) (position : Nat) : Nat :=
  if src.size < wideHashSize then
    (((word src position 4).toUInt32 * 2654435761) >>> 20).toNat
  else
    (((word src position 8 <<< 24) * 889523592379) >>> 52).toNat

/-- Whether the shortest match at two positions is one. -/
def sameStart (src : ByteArray) (a b : Nat) : Bool := word src a minMatch == word src b minMatch

/-- Where a match that holds at `b` and repeats the bytes at `a` starts:
at most `bound` bytes earlier, as long as the bytes before agree. -/
def matchStart (src : ByteArray) (a b : Nat) : (bound : Nat) → Nat
  | 0 => b
  | bound + 1 =>
    if byteAt src (a - 1) = byteAt src (b - 1) then matchStart src (a - 1) (b - 1) bound else b

/-- Where a match that holds up to `b` and repeats the bytes up to `a`
ends: at most `bound` bytes later, as long as the bytes there agree. -/
def matchEnd (src : ByteArray) (a b : Nat) : (bound : Nat) → Nat
  | 0 => b
  | bound + 1 => if byteAt src a = byteAt src b then matchEnd src (a + 1) (b + 1) bound else b

theorem matchStart_le (src : ByteArray) (a b bound : Nat) : matchStart src a b bound ≤ b := by
  induction bound generalizing a b with
  | zero => exact Nat.le_refl b
  | succ bound ih =>
    simp only [matchStart]
    split
    · exact Nat.le_trans (ih ..) (Nat.sub_le b 1)
    · exact Nat.le_refl b

theorem le_matchEnd (src : ByteArray) (a b bound : Nat) : b ≤ matchEnd src a b bound := by
  induction bound generalizing a b with
  | zero => exact Nat.le_refl b
  | succ bound ih =>
    simp only [matchEnd]
    split
    · exact Nat.le_trans (Nat.le_succ b) (ih ..)
    · exact Nat.le_refl b

/-- A position and an earlier one that starts with the same bytes. -/
structure Candidate where
  position : Nat
  earlier : Nat

/-- Looks for a candidate from `position` on, and notes the positions it
passes in the table. Every 32 failures make the steps longer by one. -/
def search (src : ByteArray) (failures position : Nat) (table : Table) :
    Option Candidate × Table :=
  if src.size < position + searchMargin then (none, table)
  else
    let place := hash src position
    let earlier := table.getD place 0
    let table := table.setIfInBounds place position
    if position - earlier ≤ maxDistance ∧ sameStart src earlier position then
      (some ⟨position, earlier⟩, table)
    else search src (failures + 1) (position + (1 + failures / 32)) table
termination_by src.size + 1 - position

/-- The sequence that a candidate leads to, with the literal bytes from
`start` on before it. -/
def Candidate.sequence (src : ByteArray) (start : Nat) (c : Candidate) : Sequence :=
  let first := matchStart src c.earlier c.position (min c.earlier (c.position - start))
  let sure := c.position + minMatch
  let last := matchEnd src (c.earlier + minMatch) sure (src.size - matchMargin - sure)
  { literals := first - start, distance := c.position - c.earlier, matched := last - first }

/-- A match is never empty. -/
theorem Candidate.matched_pos (src : ByteArray) (start : Nat) (c : Candidate) :
    0 < (c.sequence src start).matched := by
  have h₁ := matchStart_le src c.earlier c.position (min c.earlier (c.position - start))
  have h₂ := le_matchEnd src (c.earlier + minMatch) (c.position + minMatch)
    (src.size - matchMargin - (c.position + minMatch))
  simp only [Candidate.sequence, minMatch] at *
  omega

/-- Plans the source from `start` on, after the sequences `before`, of
which the last comes first. The first byte of all is not searched
for. -/
def planFrom (src : ByteArray) (start : Nat) (table : Table) (before : List Sequence) : Plan :=
  if src.size < start + searchMargin then ⟨before.reverse, src.size - start⟩
  else
    match search src 0 (max start 1) table with
    | (none, _) => ⟨before.reverse, src.size - start⟩
    | (some candidate, table) =>
      let found := candidate.sequence src start
      let next := start + found.literals + found.matched
      planFrom src next (table.setIfInBounds (hash src (next - 2)) (next - 2)) (found :: before)
termination_by src.size - start
decreasing_by
  have := candidate.matched_pos src start
  simp only [searchMargin] at *
  omega

/-- The greedy plan of a source. -/
def plan (src : ByteArray) : Plan :=
  if src.size < minSearched then ⟨[], src.size⟩
  else planFrom src 0 (Array.replicate tableSize 0) []

/-- The half of a token that starts a length. -/
def half (length : Nat) : Nat := min length nibbleLimit

/-- The bytes in which a length goes on after half a token. -/
def lengthBytes (length : Nat) : List UInt8 :=
  if length < nibbleLimit then []
  else List.replicate ((length - nibbleLimit) / 255) 255 ++
    [((length - nibbleLimit) % 255).toUInt8]

/-- A token: how the lengths of some literal bytes and of a match start. -/
def tokenOf (literals matched : Nat) : UInt8 := (16 * half literals + half matched).toUInt8

/-- How a sequence is written. The length of a match is counted from the
shortest one. -/
def sequenceBytes (literals : List UInt8) (distance matched : Nat) : List UInt8 :=
  tokenOf literals.length (matched - minMatch) ::
    (lengthBytes literals.length ++ (literals ++
      ((distance % 256).toUInt8 :: (distance / 256).toUInt8 :: lengthBytes (matched - minMatch))))

/-- How the literal bytes at the end are written. -/
def tailBytes (tail : List UInt8) : List UInt8 :=
  tokenOf tail.length 0 :: (lengthBytes tail.length ++ tail)

/-- The bytes of a source from `start` on. -/
def literalsAt (src : ByteArray) (start length : Nat) : List UInt8 :=
  (slice src start length).data.toList

/-- Writes some sequences of a source from `start` on, and its last `tail`
bytes, after `out`. -/
def writeFrom (src : ByteArray) (tail : Nat) : (start : Nat) → List Sequence → ByteArray → ByteArray
  | start, [], out => out ++ ⟨(tailBytes (literalsAt src start tail)).toArray⟩
  | start, s :: rest, out =>
    writeFrom src tail (start + s.literals + s.matched) rest
      (out ++ ⟨(sequenceBytes (literalsAt src start s.literals) s.distance s.matched).toArray⟩)

/-- **The greedy compressor** writes a source as its greedy plan cuts it. -/
@[reducible] def Compressor.greedy : Compressor where
  block src := writeFrom src (plan src).tail 0 (plan src).sequences .empty

end Erofs.Lz4
