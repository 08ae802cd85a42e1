/-!
How much a record weighs. A log of some severity holds the records of that severity and of every
graver one.
-/
namespace InfixTree

inductive Severity where
  | info
  | debug
  | trace
  deriving DecidableEq, Repr

namespace Severity

def name : Severity → String
  | info => "INFO"
  | debug => "DEBUG"
  | trace => "TRACE"

def rank : Severity → Nat
  | info => 1
  | debug => 2
  | trace => 3

/-- Whether a log that goes down to `level` shows records of severity `s`. -/
def shownAt (s level : Severity) : Bool := s.rank ≤ level.rank

end Severity

end InfixTree
