import Erofs.Proofs.Machine.Word
import Erofs.Proofs.Query
/-!
# Programs that may fault

A program is a query whose answer is missing if an operation of it had no
value. It matches a query on an image if it asks for the same ranges,
leaves the same remarks, ends in the same way, and has no fault on the way
(`Matches`). Matching is put together along the program (`matches_bind`):
what is known of the answer to its first part may be used to show that the
rest does not fault. Parts that read nothing are computations
(`Computation`), which are compared by equations.
-/

namespace Erofs.Machine

variable {α β : Type}

/-! ## Computations -/

/-- A computation that may fail, or have no value because of a fault. -/
abbrev Computation (α : Type) : Type := ExceptT Error Option α

/-- A computation without a fault. -/
def exact (e : Except Error α) : Computation α := ExceptT.mk (some e)

@[simp] theorem pure_eq_exact (a : α) : (pure a : Computation α) = exact (.ok a) := rfl

@[simp] theorem throw_eq_exact (cause : Error) :
    (throw cause : Computation α) = exact (.error cause) := rfl

@[simp] theorem exact_ok_bind (a : α) (next : α → Computation β) :
    (exact (.ok a) >>= next) = next a := rfl

@[simp] theorem exact_error_bind (cause : Error) (next : α → Computation β) :
    (exact (.error cause) >>= next) = exact (.error cause) := rfl

@[simp] theorem liftM_some (a : α) : (liftM (some a) : Computation α) = exact (.ok a) := rfl

@[simp] theorem liftM_except (e : Except Error α) : (liftM e : Computation α) = exact e := rfl

/-- What follows an operation that has a value goes on with it. -/
theorem value_bind {o : Option α} {a : α} (h : o = some a) (next : α → Computation β) :
    ((liftM o : Computation α) >>= next) = next a := by
  rw [h]
  rfl

/-- **One computation after another** has no fault if neither has. -/
theorem bind_eq_exact {x : Computation α} {e : Except Error α} {f : α → Computation β}
    {g : α → Except Error β} (hx : x = exact e) (hf : ∀ a, e = .ok a → f a = exact (g a)) :
    (x >>= f) = exact (e >>= g) := by
  subst hx
  cases e with
  | error cause => rfl
  | ok a => exact hf a rfl

/-! ## Programs -/

/-- A query whose answer is missing after a fault. -/
def Program (α : Type) : Type := Query (Option α)

namespace Program

/-- One program, then another that depends on its answer; after a fault
there is nothing more. -/
def bind (p : Program α) (next : α → Program β) : Program β :=
  Query.bind p fun
    | some a => next a
    | none => .done none

instance : Monad Program where
  pure a := Query.done (some a)
  bind := bind

/-- A computation, as a program. -/
def ofComputation (c : Computation α) : Program α :=
  match c.run with
  | none => Query.done none
  | some (.ok a) => Query.done (some a)
  | some (.error cause) => Query.fail cause

instance : MonadLift (ExceptT Error Option) Program where
  monadLift := ofComputation

/-- A query, as a program. -/
def ofQuery (q : Query α) : Program α := q.bind fun a => .done (some a)

instance : MonadLift Query Program where
  monadLift := ofQuery

/-- A program does on an image what a query does, without a fault. -/
inductive Matches (image : ByteArray) : Query (Option α) → Query α → Prop
  /-- They have the same answer. -/
  | done (a : α) : Matches image (Query.done (some a)) (.done a)
  /-- They fail for the same reason. -/
  | fail (cause : Error) : Matches image (Query.fail cause) (.fail cause)
  /-- They leave the same remark and go on. -/
  | note {p : Query (Option α)} {q : Query α} (remark : Remark) :
      Matches image p q → Matches image (Query.note remark p) (.note remark q)
  /-- They ask for the same range and go on with its bytes. -/
  | read {p : ByteArray → Query (Option α)} {q : ByteArray → Query α} (route : Route)
      (offset length : Nat) :
      (∀ bytes, imageRange image offset length = .ok bytes → Matches image (p bytes) (q bytes)) →
      Matches image (Query.read route offset length p) (.read route offset length q)

variable {image : ByteArray}

/-- **One program after another** matches one query after another, if both
parts match. The second part only needs to for answers of the image. -/
theorem matches_bind {p : Program α} {q : Query α} {f : α → Program β} {g : α → Query β}
    (hp : Matches image p q)
    (hf : ∀ a, q.onImage image = .ok a → Matches image (f a) (g a)) :
    Matches image (p >>= f : Program β) (q >>= g) := by
  induction hp with
  | done a => exact hf a rfl
  | fail cause => exact .fail cause
  | note remark _ ih =>
    refine .note remark (ih fun a ha => hf a ?_)
    rwa [Query.onImage_note]
  | read route offset length _ ih =>
    refine .read route offset length fun bytes hbytes => ih bytes hbytes fun a ha => hf a ?_
    simp only [Query.onImage, Query.attempt, Session.onImage, hbytes]
    exact ha

theorem matches_pure (a : α) : Matches image (pure a : Program α) (pure a) := .done a

theorem matches_query (q : Query α) : Matches image (liftM q : Program α) q := by
  induction q with
  | done a => exact .done a
  | fail cause => exact .fail cause
  | note remark rest ih => exact .note remark ih
  | read route offset length rest ih => exact .read route offset length fun bytes _ => ih bytes

theorem matches_exact (e : Except Error α) :
    Matches image (liftM (exact e) : Program α) (liftM e) := by
  cases e with
  | ok a => exact .done a
  | error cause => exact .fail cause

theorem matches_except (e : Except Error α) :
    Matches image (liftM e : Program α) (liftM e) := by
  cases e with
  | ok a => exact .done a
  | error cause => exact .fail cause

/-- A computation without a fault matches what it computes. -/
theorem matches_of_exact {c : Computation α} {e : Except Error α} (h : c = exact e) :
    Matches image (liftM c : Program α) (liftM e) :=
  h ▸ matches_exact e

/-- A choice on a condition that does not fault. -/
theorem matches_ite {c : Prop} [Decidable c] {p p' : Program α} {q q' : Query α}
    (ht : c → Matches image p q) (he : ¬c → Matches image p' q') :
    Matches image (if c then p else p' : Program α) (if c then q else q') := by
  by_cases h : c
  · rw [if_pos h, if_pos h]
    exact ht h
  · rw [if_neg h, if_neg h]
    exact he h

/-- An operation that has a value does not change what follows. -/
theorem matches_value {o : Option α} {a : α} {f : α → Program β} {q : Query β} (ho : o = some a)
    (hf : Matches image (f a) q) : Matches image ((liftM o : Program α) >>= f : Program β) q := by
  subst ho
  exact hf

/-- An operation that has a value may be the last one. -/
theorem matches_some {o : Option α} {a : α} (ho : o = some a) :
    Matches image (liftM o : Program α) (pure a) := by
  subst ho
  exact .done a

/-- A remark does not change what follows. -/
theorem matches_report {remark : Remark} {p : Unit → Program β} {q : Unit → Query β}
    (h : Matches image (p ()) (q ())) :
    Matches image ((liftM (Query.report remark) : Program Unit) >>= p : Program β)
      (Query.report remark >>= q) :=
  .note remark h

end Program

end Erofs.Machine
