/-!
# The journal

Reading an image leaves a journal: one line of text for each thing worth
telling, with a severity. Nothing is dropped while reading. Whoever shows
the journal chooses the least severity that is shown, so that the choice
cannot change what is read.
-/

namespace Erofs

/-- How much a line of the journal matters, the gravest first. -/
inductive Severity where
  | error | warn | info | debug | trace
  deriving DecidableEq, Repr

namespace Severity

/-- Its place in the order, the gravest at zero. -/
def rank : Severity → Nat
  | error => 0
  | warn => 1
  | info => 2
  | debug => 3
  | trace => 4

/-- The word that opens a line of the journal. -/
def label : Severity → String
  | error => "ERROR"
  | warn => "WARN"
  | info => "INFO"
  | debug => "DEBUG"
  | trace => "TRACE"

end Severity

/-- A line of the journal. -/
structure Remark where
  severity : Severity
  text : String
  deriving DecidableEq, Repr

/-- The line as it is shown. -/
def Remark.line (r : Remark) : String := r.severity.label ++ " " ++ r.text

/-- The lines left by reading, the oldest first. -/
abbrev Journal := Array Remark

/-- The lines that are at least as grave as `threshold`, as they are
shown. -/
def Journal.lines (journal : Journal) (threshold : Severity) : Array String :=
  (journal.filter fun r => r.severity.rank ≤ threshold.rank).map Remark.line

end Erofs
