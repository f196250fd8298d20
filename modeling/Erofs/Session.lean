import Erofs.Bytes
import Erofs.Error
/-!
# Sessions and queries

What reading an image does is a sequence of requests for byte ranges and
of remarks for the journal. It is written down as such, apart from the
device, the cache and the counters that serve it. A session is told when
a read fails and may go on. A query stops at its first failure, so it
cannot answer from a read that failed; `Query.attempt` makes it a
session that hands over either the answer or the cause. `Session.onImage`
says what a session answers on an image whose every byte can be read.
-/

namespace Erofs

/-- Whether a read goes through the block cache or past it. -/
inductive Route where
  | cached | direct
  deriving DecidableEq, Repr

/-- A sequence of reads and remarks that ends in an answer and is told
about each failed read. -/
inductive Session (α : Type) : Type where
  /-- The answer. -/
  | done (answer : α)
  /-- A line for the journal, then the rest. -/
  | note (remark : Remark) (rest : Session α)
  /-- A request for `length` bytes from `offset` on; the rest depends on
  what comes back. -/
  | read (route : Route) (offset length : Nat) (rest : Except Error ByteArray → Session α)

/-- A sequence of reads and remarks that ends in an answer or in a
failure. A failed read ends it. -/
inductive Query (α : Type) : Type where
  /-- The answer. -/
  | done (answer : α)
  /-- The failure. -/
  | fail (cause : Error)
  /-- A line for the journal, then the rest. -/
  | note (remark : Remark) (rest : Query α)
  /-- A request for `length` bytes from `offset` on; the rest depends on
  those bytes. -/
  | read (route : Route) (offset length : Nat) (rest : ByteArray → Query α)

variable {α β : Type}

namespace Session

/-- One session, then another that depends on its answer. -/
def bind : Session α → (α → Session β) → Session β
  | done a, next => next a
  | note remark rest, next => note remark (rest.bind next)
  | read route offset length rest, next =>
    read route offset length fun bytes => (rest bytes).bind next

instance : Monad Session where
  pure := done
  bind := bind

/-- A session that only writes a line into the journal. -/
def report (remark : Remark) : Session Unit := note remark (done ())

/-- Writes the line that a failure leaves in the journal, if it leaves
one. -/
def reportFailure (cause : Error) : Session Unit := cause.remark?.elim (done ()) report

end Session

namespace Query

/-- One query, then another that depends on its answer. -/
def bind : Query α → (α → Query β) → Query β
  | done a, next => next a
  | fail cause, _ => fail cause
  | note remark rest, next => note remark (rest.bind next)
  | read route offset length rest, next =>
    read route offset length fun bytes => (rest bytes).bind next

instance : Monad Query where
  pure := done
  bind := bind

/-- A query that only writes a line into the journal. -/
def report (remark : Remark) : Query Unit := note remark (done ())

/-- The `length` bytes from `offset` on. -/
def bytes (offset length : Nat) : Query ByteArray := read .cached offset length done

/-- The `length` bytes from `offset` on, past the cache. -/
def bytesDirect (offset length : Nat) : Query ByteArray := read .direct offset length done

/-- A computation that reads nothing, as a query. -/
def ofExcept : Except Error α → Query α
  | .ok a => done a
  | .error cause => fail cause

instance : MonadLift (Except Error) Query where
  monadLift := ofExcept

/-- The session that runs a query and hands over its answer, or the
cause of its failure after the line which that cause leaves in the
journal. -/
def attempt : Query α → Session (Except Error α)
  | done a => .done (.ok a)
  | fail cause => (Session.reportFailure cause).bind fun () => .done (.error cause)
  | note remark rest => .note remark rest.attempt
  | read route offset length rest => .read route offset length fun
    | .ok bytes => (rest bytes).attempt
    | .error cause => .done (.error cause)

end Query

/-- A range is accepted if it fits in 64 bits and ends within the `size`
bytes there are. -/
def checkRange (size offset length : Nat) : Except Error Unit :=
  if addressLimit ≤ offset + length then .error .rangeOverflow
  else if size < offset + length then .error .rangePastEnd
  else .ok ()

/-- The `length` bytes of an image from `offset` on, all of them or
none. -/
def imageRange (image : ByteArray) (offset length : Nat) : Except Error ByteArray :=
  (checkRange image.size offset length).map fun () => slice image offset length

/-- What a session answers on an image, and the journal after it. -/
def Session.onImage (image : ByteArray) : Session α → Journal → α × Journal
  | done a, journal => (a, journal)
  | note remark rest, journal => rest.onImage image (journal.push remark)
  | read _ offset length rest, journal =>
    (rest (imageRange image offset length)).onImage image journal

/-- What a query answers on an image. -/
def Query.onImage (image : ByteArray) (q : Query α) : Except Error α :=
  (q.attempt.onImage image #[]).1

end Erofs
