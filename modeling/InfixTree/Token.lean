import InfixTree.Location
import InfixTree.Text.Decimal

/-!
Tokens: what a piece of the line stands for, how it was written and where. Two tokens are alike
when they stand for the same thing, wherever they were found and however they were written.
-/
namespace InfixTree

inductive Kind where
  | opening
  | closing
  | number (value : UInt64)
  | operator (spelling : String)
  | identifier (name : String)
  deriving DecidableEq, Repr

structure Token where
  kind : Kind
  lexeme : String
  location : Location
  deriving DecidableEq, Repr

namespace Kind

def text : Kind → String
  | opening => "("
  | closing => ")"
  | number value => String.ofList (Text.decimal value.toNat)
  | operator spelling => spelling
  | identifier name => name

/-- The word for the kind in messages, without what the token says. -/
def describe : Kind → String
  | opening => "'('"
  | closing => "')'"
  | number _ => "number"
  | operator _ => "operator"
  | identifier _ => "identifier"

/-- The kind with what the token says, as messages name a token they did not expect. -/
def mention : Kind → String
  | opening => opening.describe
  | closing => closing.describe
  | kind => s!"{kind.describe} '{kind.text}'"

end Kind

def Token.alike (t u : Token) : Bool := t.kind == u.kind

end InfixTree
