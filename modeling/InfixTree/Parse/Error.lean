import InfixTree.Token

/-!
Why a line has no tree. The two first causes may have no place in the line: then the line ended
too early.
-/
namespace InfixTree

inductive ParseError where
  | expectedClosing (found : Option Kind) (location : Option Location)
  | unbalanced (location : Option Location)
  | nonAssociativeChain (left right : String) (location : Location)
  deriving DecidableEq, Repr

namespace ParseError

def place : Option Location → String
  | none => ""
  | some location => s!" at {location.text}"

def message : ParseError → String
  | expectedClosing none _ => "expected ')' but found end of input"
  | expectedClosing (some kind) location =>
    s!"expected ')' but found {kind.mention}{place location}"
  | unbalanced location => s!"unbalanced expression{place location}"
  | nonAssociativeChain left right location =>
    s!"cannot chain non-associative operators '{left}' and '{right}' at {location.text}"

end ParseError

end InfixTree
