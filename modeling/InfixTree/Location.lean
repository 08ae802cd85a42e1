/-!
Where a piece of text starts. Lines and columns count characters from 1, the offset counts UTF-8
bytes from 0; a line feed alone begins a line, so a carriage return or a tab takes one column.
-/
namespace InfixTree

structure Location where
  line : Nat
  column : Nat
  offset : Nat
  deriving DecidableEq, Repr

namespace Location

def start : Location := ⟨1, 1, 0⟩

def next (l : Location) (c : Char) : Location :=
  if c = '\n' then ⟨l.line + 1, 1, l.offset + c.utf8Size⟩
  else ⟨l.line, l.column + 1, l.offset + c.utf8Size⟩

def advance (l : Location) (text : List Char) : Location := text.foldl next l

/-- The form messages use: the offset is left out. -/
def text (l : Location) : String := s!"{l.line}:{l.column}"

@[simp] theorem advance_nil (l : Location) : l.advance [] = l := rfl

@[simp] theorem advance_cons (l : Location) (c : Char) (cs : List Char) :
    l.advance (c :: cs) = (l.next c).advance cs := rfl

theorem advance_append (l : Location) (cs ds : List Char) :
    l.advance (cs ++ ds) = (l.advance cs).advance ds := by
  simp [advance]

end Location

end InfixTree
