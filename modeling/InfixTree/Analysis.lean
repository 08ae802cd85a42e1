import InfixTree.Expr.Depth
import InfixTree.Expr.Form
import InfixTree.Expr.Json
import InfixTree.Parse
import InfixTree.Token.Scan

/-!
A line from its text to its tree, with the records of the whole way, and the lines that show the
tree.
-/
namespace InfixTree

inductive Failure where
  | scan (error : ScanError)
  | parse (error : ParseError)
  deriving DecidableEq, Repr

def Failure.message : Failure → String
  | scan error => error.message
  | parse error => error.message

namespace Analysis

inductive Record where
  | started (bytes : Nat)
  | scan (record : Scan.Record)
  | parse (record : Parse.Record)
  | finished (nodes : Nat)
  deriving DecidableEq, Repr

namespace Record

def severity : Record → Severity
  | started _ => .info
  | scan record => record.severity
  | parse record => record.severity
  | finished _ => .debug

/-- The part of the program that a record comes from. -/
def origin : Record → String
  | started _ | finished _ => "shunt"
  | scan _ => "shunt_lexer::lexer"
  | parse _ => "shunt_parser::parser"

def message : Record → String
  | started bytes => s!"analyzing {bytes} byte(s) of input"
  | scan record => record.message
  | parse record => record.message
  | finished nodes => s!"parsed tree with {nodes} node(s)"

def line (record : Record) : String :=
  s!"{record.severity.name} {record.origin}: {record.message}"

end Record

def run (mode : Mode) (line : String) : Traced Record Failure Expr := do
  Traced.emit (.started line.utf8ByteSize)
  let tokens ← (Scan.run line).within .scan .scan
  let tree ← (Parse.run mode tokens).within .parse .parse
  Traced.emit (.finished tree.nodeCount)
  pure tree

/-- The records that a log going down to `level` shows. -/
def log (level : Severity) (records : List Record) : List String :=
  (records.filter (·.severity.shownAt level)).map Record.line

end Analysis

/-- The tree of a line. -/
def analyze (mode : Mode) (line : String) : Except Failure Expr := (Analysis.run mode line).outcome

def joinWords (words : List String) : String := " ".intercalate words

/-- The lines that show a tree: its precedence form, its plain form and its depth view. -/
def Expr.lines (e : Expr) : List String := e.precedenceForm :: e.plainForm :: e.depthView

end InfixTree
