import InfixTree.Parse.Level

/-!
From tokens to a tree. The tokens are read once, from the left. An opening parenthesis begins a new
level, and the levels around it wait until it ends; a closing one ends the level, whose tree is
then an operand of the level around it. Where no level waits, a closing parenthesis ends the
reading, and the rest of the tokens is left alone.
-/
namespace InfixTree

namespace Parse

/-- Between two tokens: the index of the next one, the level it belongs to and the levels around
that one, innermost first. -/
structure State where
  index : Nat
  level : Level
  around : List Level
  deriving DecidableEq, Repr

/-- What a token leads to: a state, or the tree of a level that no other is around. -/
inductive Move where
  | next (s : State)
  | stop (e : Expr)
  deriving DecidableEq, Repr

namespace State

def start (index : Nat) : State := ⟨index, .empty, []⟩

/-- The same levels but for the current one, after its token. -/
def advance (s : State) (level : Level) : State := ⟨s.index + 1, level, s.around⟩

def step (mode : Mode) (s : State) (token : Token) : Run Move :=
  match token.kind with
  | .number value => pure (.next (s.advance (s.level.operand (.number value))))
  | .identifier name => pure (.next (s.advance (s.level.identifier name)))
  | .operator spelling => do
    let level ← s.level.operator mode ⟨spelling, token.location⟩
    pure (.next (s.advance level))
  | .opening => do
    Traced.emit (.entering (s.index + 1))
    pure (.next ⟨s.index + 1, .empty, s.level :: s.around⟩)
  | .closing => do
    let e ← s.level.finish (some token.location)
    Traced.emit (.leavingAtClosing s.index)
    match s.around with
    | [] => pure (.stop e)
    | below :: around => pure (.next ⟨s.index + 1, below.operand (.parenthesized e), around⟩)

/-- The line has ended; a level that another is around lacks its closing parenthesis. -/
def finish (s : State) : Run Expr := do
  let e ← s.level.finish none
  Traced.emit .leavingAtEnd
  match s.around with
  | [] => pure e
  | _ :: _ => Traced.fail (.expectedClosing none none)

end State

/-- The tree of the outermost level, with the index at which that level ends. -/
def read (mode : Mode) (s : State) : List Token → Run (Expr × Nat)
  | [] => do
    let e ← s.finish
    pure (e, s.index)
  | token :: rest => do
    match ← s.step mode token with
    | .next s => read mode s rest
    | .stop e => pure (e, s.index)

/-- The level that begins at the token of index `start`, which may lie past the last one. -/
def runFrom (mode : Mode) (tokens : List Token) (start : Nat) : Run (Expr × Nat) := do
  Traced.emit (.entering start)
  read mode (.start start) (tokens.drop start)

/-- The whole line as one level, which no closing parenthesis may end early. -/
def run (mode : Mode) (tokens : List Token) : Run Expr := do
  let (e, next) ← runFrom mode tokens 0
  match tokens[next]? with
  | none => pure e
  | some stray =>
    Traced.emit (.unmatchedClosing stray.location)
    Traced.fail (.unbalanced (some stray.location))

def associativityText : Associativity → String
  | .left => "Left"
  | .right => "Right"
  | .nonAssoc => "NonAssoc"

/-- The form in which records show a fixity. -/
def fixityText (f : Fixity) : String :=
  s!"OperatorDefinition \x7b precedence: {f.precedence}, associativity: {associativityText f.associativity} \x7d"

def Record.severity : Record → Severity
  | unknownOperator _ | missingOperand .. | unmatchedClosing _ => .debug
  | _ => .trace

def Record.message : Record → String
  | entering index => s!"entering level at token {index}"
  | unknownOperator spelling => s!"operator '{spelling}' not in table, using default definition"
  | reducing spelling => s!"reduce '{spelling}'"
  | pushing spelling fixity => s!"push operator '{spelling}' ({fixityText fixity})"
  | applying callee arguments => s!"application of '{callee}' to {arguments} argument(s)"
  | leavingAtClosing index => s!"leaving level at ')' {index}"
  | leavingAtEnd => "leaving level at end of input"
  | missingOperand spelling location =>
    s!"operator '{spelling}' at {location.text} is missing an operand"
  | unmatchedClosing location => s!"unmatched ')' at {location.text}"

end Parse

def parse (mode : Mode) (tokens : List Token) : Except ParseError Expr :=
  (Parse.run mode tokens).outcome

/-- The tree of the level that begins at `start`, and the index of the token that ends it. -/
def parseFrom (mode : Mode) (tokens : List Token) (start : Nat) :
    Except ParseError (Expr × Nat) :=
  (Parse.runFrom mode tokens start).outcome

end InfixTree
