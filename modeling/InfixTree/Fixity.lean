/-!
How tightly an operator holds its operands, and which of two neighbours of equal precedence holds
them first. The table gives the operators that have a fixity of their own; every other spelling
has the fallback, which holds tighter than all of them.
-/
namespace InfixTree

inductive Associativity where
  | left
  | right
  | nonAssoc
  deriving DecidableEq, Repr

structure Fixity where
  precedence : Nat
  associativity : Associativity
  deriving DecidableEq, Repr

structure Operator where
  spelling : String
  fixity : Fixity
  deriving DecidableEq, Repr

namespace Fixity

/-- Whether an operator that waits for its right operand takes what has been read so far when
`incoming` follows. Of equal precedence it does so only before a left-associative one. -/
def reducesBefore (waiting incoming : Fixity) : Bool :=
  waiting.precedence > incoming.precedence ||
    (incoming.associativity == .left && waiting.precedence == incoming.precedence)

/-- Two operators that may not stand in one chain where chains are checked. -/
def clashes (f g : Fixity) : Bool :=
  f.precedence == g.precedence && (f.associativity == .nonAssoc || g.associativity == .nonAssoc)

def fallback : Fixity := ⟨10, .left⟩

/-- The operators of the table, in the order in which they are listed. -/
def table : List Operator :=
  [⟨".", 9, .right⟩, ⟨"!!", 9, .left⟩, ⟨"^", 8, .right⟩, ⟨"^^", 8, .right⟩, ⟨"**", 8, .right⟩,
    ⟨"*", 7, .left⟩, ⟨"/", 7, .left⟩, ⟨"+", 6, .left⟩, ⟨"-", 6, .left⟩, ⟨"<>", 6, .right⟩,
    ⟨":", 5, .right⟩, ⟨"++", 5, .right⟩, ⟨"==", 4, .nonAssoc⟩, ⟨"/=", 4, .nonAssoc⟩,
    ⟨"!=", 4, .nonAssoc⟩, ⟨"<", 4, .nonAssoc⟩, ⟨"<=", 4, .nonAssoc⟩, ⟨">", 4, .nonAssoc⟩,
    ⟨">=", 4, .nonAssoc⟩, ⟨"<$>", 4, .left⟩, ⟨"<$", 4, .left⟩, ⟨"<*>", 4, .left⟩,
    ⟨"*>", 4, .left⟩, ⟨"<*", 4, .left⟩, ⟨"&&", 3, .right⟩, ⟨"||", 2, .right⟩, ⟨">>", 1, .left⟩,
    ⟨">>=", 1, .left⟩, ⟨"=<<", 1, .right⟩, ⟨"$", 0, .right⟩, ⟨"$!", 0, .right⟩]

def find? (spelling : String) : Option Fixity :=
  (table.find? (·.spelling == spelling)).map (·.fixity)

def isKnown (spelling : String) : Bool := (find? spelling).isSome

def lookup (spelling : String) : Fixity := (find? spelling).getD fallback

theorem lookup_of_not_isKnown {spelling : String} (h : isKnown spelling = false) :
    lookup spelling = fallback := by
  simp_all [isKnown, lookup]

theorem lookup_of_mem {op : Operator} (h : op ∈ table) : lookup op.spelling = op.fixity := by
  have all : ∀ op ∈ table, lookup op.spelling = op.fixity := by decide +kernel
  exact all op h

end Fixity

end InfixTree
