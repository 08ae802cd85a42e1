import InfixTree.Severity
import InfixTree.Text.Piece
import InfixTree.Text.Quoted
import InfixTree.Token
import InfixTree.Trace

/-!
From a line to its tokens. `items` gives every token and every error in the line; an error spoils
only its own piece. `tokenize` stops at the first error.
-/
namespace InfixTree

inductive ScanError where
  | unexpectedCharacter (character : Char) (location : Location)
  | numberOutOfRange (digits : String) (location : Location)
  deriving DecidableEq, Repr

def ScanError.message : ScanError → String
  | unexpectedCharacter c location =>
    s!"unexpected character '{c}' at {location.text}"
  | numberOutOfRange digits location =>
    s!"number literal '{digits}' at {location.text} is out of range"

abbrev Item := Except ScanError Token

namespace Text

def Piece.item (p : Piece) (location : Location) : Option Item :=
  let lexeme := String.ofList p.chars
  match p.shape with
  | .blank => none
  | .opening => some (.ok ⟨.opening, lexeme, location⟩)
  | .closing => some (.ok ⟨.closing, lexeme, location⟩)
  | .digits =>
    match word? p.chars with
    | some value => some (.ok ⟨.number value, lexeme, location⟩)
    | none => some (.error (.numberOutOfRange lexeme location))
  | .symbols => some (.ok ⟨.operator lexeme, lexeme, location⟩)
  | .word => some (.ok ⟨.identifier lexeme, lexeme, location⟩)
  | .stray => some (.error (.unexpectedCharacter p.first location))

/-- The items of pieces that follow one another from `location` on. -/
def itemsFrom (location : Location) : List Piece → List Item
  | [] => []
  | p :: rest => (p.item location).toList ++ itemsFrom (location.advance p.chars) rest

end Text

def items (line : String) : List Item := Text.itemsFrom .start (Text.cut line.toList)

namespace Scan

inductive Record where
  | token (token : Token)
  | failed (error : ScanError)
  | finished (tokens bytes : Nat)
  deriving DecidableEq, Repr

/-- The form in which records show what a token stands for. -/
def kindText : Kind → String
  | .opening => "LParen"
  | .closing => "RParen"
  | .number value => s!"Number({value})"
  | .operator spelling => s!"Operator({Text.quoted spelling})"
  | .identifier name => s!"Identifier({Text.quoted name})"

def Record.severity : Record → Severity
  | token _ => .trace
  | failed _ => .debug
  | finished .. => .debug

def Record.message : Record → String
  | token t => s!"token {kindText t.kind} at {t.location.text}"
  | failed error => s!"lex error: {error.message}"
  | finished tokens bytes => s!"tokenized {tokens} tokens from {bytes} bytes"

def collect : List Item → Traced Record ScanError (List Token)
  | [] => pure []
  | .ok t :: rest => do
    Traced.emit (.token t)
    let tokens ← collect rest
    pure (t :: tokens)
  | .error e :: _ => do
    Traced.emit (.failed e)
    Traced.fail e

/-- Tokenizing, with a record of every token, and of the error that ends it or of its end. -/
def run (line : String) : Traced Record ScanError (List Token) := do
  let tokens ← collect (items line)
  Traced.emit (.finished tokens.length line.utf8ByteSize)
  pure tokens

end Scan

def tokenize (line : String) : Except ScanError (List Token) := (Scan.run line).outcome

end InfixTree
