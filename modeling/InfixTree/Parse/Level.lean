import InfixTree.Expr
import InfixTree.Fixity
import InfixTree.Parse.Error
import InfixTree.Severity
import InfixTree.Trace

/-!
One level of a line: the whole line, or what stands between two parentheses. A level holds the
trees read so far that no operator has taken yet, the operators that wait for their right operand,
and the application that is still open. Both stacks have their newest entry first.

An identifier opens an application, which takes every operand that follows directly. The next
operator and the end of the level close it.
-/
namespace InfixTree

/-- Whether operators of equal precedence, one of them non-associative, may stand in a chain. -/
inductive Mode where
  | lenient
  | strict
  deriving DecidableEq, Repr

namespace Parse

inductive Record where
  | entering (index : Nat)
  | unknownOperator (spelling : String)
  | reducing (spelling : String)
  | pushing (spelling : String) (fixity : Fixity)
  | applying (callee : String) (arguments : Nat)
  | leavingAtClosing (index : Nat)
  | leavingAtEnd
  | missingOperand (spelling : String) (location : Location)
  | unmatchedClosing (location : Location)
  deriving DecidableEq, Repr

abbrev Run (α : Type) := Traced Record ParseError α

/-- An operator that waits for its right operand. -/
structure Pending where
  spelling : String
  location : Location
  deriving DecidableEq, Repr

def Pending.fixity (p : Pending) : Fixity := .lookup p.spelling

structure Application where
  callee : String
  args : List Expr
  deriving DecidableEq, Repr

structure Level where
  output : List Expr
  operators : List Pending
  application : Option Application
  deriving DecidableEq, Repr

/-- Gives the operator the two newest trees. -/
def reduce (op : Pending) : List Expr → Run (List Expr)
  | right :: left :: output => do
    Traced.emit (.reducing op.spelling)
    pure (.binary left op.spelling right :: output)
  | _ => do
    Traced.emit (.missingOperand op.spelling op.location)
    Traced.fail (.unbalanced (some op.location))

/-- Reduces, newest first, the operators that go before the incoming one. -/
def reduceBefore (mode : Mode) (incoming : Pending) :
    List Pending → List Expr → Run (List Pending × List Expr)
  | [], output => pure ([], output)
  | top :: below, output =>
    if mode = .strict ∧ top.fixity.clashes incoming.fixity then
      Traced.fail (.nonAssociativeChain top.spelling incoming.spelling incoming.location)
    else if top.fixity.reducesBefore incoming.fixity then do
      let output ← reduce top output
      reduceBefore mode incoming below output
    else pure (top :: below, output)

def reduceAll : List Pending → List Expr → Run (List Expr)
  | [], output => pure output
  | top :: below, output => do
    let output ← reduce top output
    reduceAll below output

namespace Level

def empty : Level := ⟨[], [], none⟩

/-- An operand goes to the open application, or stands for itself. -/
def operand (e : Expr) (l : Level) : Level :=
  match l.application with
  | some app => { l with application := some { app with args := app.args ++ [e] } }
  | none => { l with output := e :: l.output }

/-- An identifier is an operand of the open application, or opens one. -/
def identifier (name : String) (l : Level) : Level :=
  match l.application with
  | some _ => l.operand (.identifier name)
  | none => { l with application := some ⟨name, []⟩ }

def closeApplication (l : Level) : Run Level :=
  match l.application with
  | none => pure l
  | some ⟨callee, args⟩ => do
    unless args.isEmpty do Traced.emit (.applying callee args.length)
    pure { l with output := .apply (.identifier callee) args :: l.output, application := none }

def operator (mode : Mode) (incoming : Pending) (l : Level) : Run Level := do
  let l ← l.closeApplication
  unless Fixity.isKnown incoming.spelling do Traced.emit (.unknownOperator incoming.spelling)
  let (operators, output) ← reduceBefore mode incoming l.operators l.output
  Traced.emit (.pushing incoming.spelling incoming.fixity)
  pure { l with output := output, operators := incoming :: operators }

/-- Ends the level at `closing`, or at the end of the line: one tree must be left. -/
def finish (closing : Option Location) (l : Level) : Run Expr := do
  let l ← l.closeApplication
  let output ← reduceAll l.operators l.output
  match output with
  | [e] => pure e
  | _ => Traced.fail (.unbalanced closing)

end Level

end Parse

end InfixTree
