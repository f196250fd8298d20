import Erofs.Session
/-!
# What queries answer

What a query answers on an image is put together from what its parts
answer: the journal carries nothing from one part to the next, and a
failure is the last thing that happens. So a query on an image is read
as a computation that may fail, by `onImage_bind` and one equation for
each kind of request.
-/

namespace Erofs

variable {α β : Type} {image : ByteArray}

/-- A sequence of two computations succeeds if both do. -/
theorem bind_eq_ok {e : Except Error α} {next : α → Except Error β} {b : β} :
    (e >>= next) = .ok b ↔ ∃ a, e = .ok a ∧ next a = .ok b := by
  cases e with
  | error cause => simp [bind, Except.bind]
  | ok a => simp [bind, Except.bind]

theorem Session.onImage_bind (s : Session α) (next : α → Session β) (journal : Journal) :
    (s.bind next).onImage image journal =
      (next (s.onImage image journal).1).onImage image (s.onImage image journal).2 := by
  induction s generalizing journal with
  | done => rfl
  | note remark rest ih => exact ih _
  | read route offset length rest ih => exact ih _ _

/-- The first of three sessions may be put with the second. -/
theorem Session.bind_assoc {γ : Type} (s : Session α) (next : α → Session β)
    (last : β → Session γ) : (s >>= next) >>= last = s >>= fun a => next a >>= last := by
  induction s with
  | done a => rfl
  | note remark rest ih => exact congrArg (note remark) ih
  | read route offset length rest ih => exact congrArg (read route offset length) (funext ih)

namespace Query

/-- The first of three queries may be put with the second. -/
theorem bind_assoc {γ : Type} (q : Query α) (next : α → Query β) (last : β → Query γ) :
    (q >>= next) >>= last = q >>= fun a => next a >>= last := by
  induction q with
  | done a => rfl
  | fail cause => rfl
  | note remark rest ih => exact congrArg (note remark) ih
  | read route offset length rest ih => exact congrArg (read route offset length) (funext ih)

/-- A query after another is attempted if the first succeeds. -/
theorem attempt_bind (q : Query α) (next : α → Query β) :
    (q >>= next).attempt = do
      match ← q.attempt with
      | .ok a => (next a).attempt
      | .error cause => return .error cause := by
  induction q with
  | done a => rfl
  | fail cause =>
    show (fail cause : Query β).attempt = _
    rw [attempt, attempt, Session.reportFailure]
    cases cause.remark? <;> rfl
  | note remark rest ih => exact congrArg (Session.note remark) ih
  | read route offset length rest ih =>
    show attempt (.read route offset length fun bytes => rest bytes >>= next) = _
    rw [attempt, attempt]
    refine congrArg (Session.read route offset length) (funext fun result => ?_)
    cases result with
    | error cause => rfl
    | ok bytes => exact ih bytes

/-- What is in the journal before does not matter to the answer. -/
theorem onImage_attempt (q : Query α) (journal : Journal) :
    (q.attempt.onImage image journal).1 = q.onImage image := by
  suffices h : ∀ j₁ j₂, (q.attempt.onImage image j₁).1 = (q.attempt.onImage image j₂).1 from h _ _
  induction q with
  | done => intros; rfl
  | fail cause =>
    intro j₁ j₂
    simp only [attempt, Session.onImage_bind]
    rfl
  | note remark rest ih => intro j₁ j₂; exact ih _ _
  | read route offset length rest ih =>
    intro j₁ j₂
    simp only [attempt, Session.onImage]
    cases imageRange image offset length with
    | ok bytes => exact ih _ _ _
    | error cause => rfl

/-- **One query after another.** The second is asked only if the first
has an answer, and is told that answer alone. -/
theorem onImage_bind (q : Query α) (next : α → Query β) :
    (q >>= next).onImage image = (q.onImage image).bind fun a => (next a).onImage image := by
  change (q.bind next).onImage image = _
  induction q with
  | done => rfl
  | fail cause =>
    simp only [bind, onImage, attempt, Session.onImage_bind]
    rfl
  | note remark rest ih =>
    simp only [onImage, attempt, Session.onImage, bind] at *
    rw [onImage_attempt, onImage_attempt]
    exact ih
  | read route offset length rest ih =>
    simp only [onImage, attempt, Session.onImage, bind]
    cases imageRange image offset length with
    | ok bytes => exact ih _
    | error cause => rfl

/-- A sequence of two queries succeeds if both do. -/
theorem onImage_bind_eq_ok {q : Query α} {next : α → Query β} {b : β} :
    (q >>= next).onImage image = .ok b ↔
      ∃ a, q.onImage image = .ok a ∧ (next a).onImage image = .ok b := by
  rw [onImage_bind]
  cases q.onImage image <;> simp [Except.bind]

/-- What follows an answer that is known. -/
theorem onImage_bind_of_ok {q : Query α} {next : α → Query β} {a : α}
    (h : q.onImage image = .ok a) : (q >>= next).onImage image = (next a).onImage image := by
  rw [onImage_bind, h]
  rfl

@[simp] theorem onImage_pure (a : α) : (pure a : Query α).onImage image = .ok a := rfl

@[simp] theorem onImage_done (a : α) : (done a).onImage image = .ok a := rfl

@[simp] theorem onImage_fail (cause : Error) :
    (fail cause : Query α).onImage image = .error cause := by
  simp only [onImage, attempt, Session.onImage_bind]
  rfl

@[simp] theorem onImage_note (remark : Remark) (rest : Query α) :
    (note remark rest).onImage image = rest.onImage image :=
  onImage_attempt rest _

@[simp] theorem onImage_report (remark : Remark) : (report remark).onImage image = .ok () := rfl

@[simp] theorem onImage_liftM (e : Except Error α) : (liftM e : Query α).onImage image = e := by
  cases e with
  | ok a => rfl
  | error cause => exact onImage_fail cause

@[simp] theorem onImage_bytes (offset length : Nat) :
    (bytes offset length).onImage image = imageRange image offset length := by
  simp only [onImage, bytes, attempt, Session.onImage]
  cases imageRange image offset length <;> rfl

@[simp] theorem onImage_bytesDirect (offset length : Nat) :
    (bytesDirect offset length).onImage image = imageRange image offset length := by
  simp only [onImage, bytesDirect, attempt, Session.onImage]
  cases imageRange image offset length <;> rfl

/-- A remark between two queries changes no answer. -/
theorem onImage_report_bind (remark : Remark) (next : Unit → Query β) :
    (report remark >>= next).onImage image = (next ()).onImage image :=
  onImage_bind_of_ok (onImage_report remark)

end Query

end Erofs
