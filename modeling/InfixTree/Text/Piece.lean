import InfixTree.Text.Letter

/-!
A line cut into pieces. The first character of a piece settles its shape, and the shape settles
which characters the piece runs on over; every run is as long as it can be. Blanks, parentheses and
characters that start no shape stand alone.
-/
namespace InfixTree.Text

def blankRanges : List (Nat × Nat) :=
  [(0x09, 0x0D), (0x20, 0x20), (0x85, 0x85), (0xA0, 0xA0), (0x1680, 0x1680), (0x2000, 0x200A),
    (0x2028, 0x2029), (0x202F, 0x202F), (0x205F, 0x205F), (0x3000, 0x3000)]

def isBlank (c : Char) : Bool := blankRanges.any fun r => r.1 ≤ c.toNat && c.toNat ≤ r.2

/-- The characters that operators are made of. -/
def symbols : List Char :=
  ['!', '.', '^', '*', '/', '+', '-', ':', '=', '<', '>', '&', '|', '$', '#', '¤', '%', '?', '@',
    '£', '€', '¥', '~', '§', '½', '¶']

def isSymbol (c : Char) : Bool := symbols.contains c

/-- The characters an identifier may have after its first. -/
def isWordRest (c : Char) : Bool := isLetter c || c.isDigit || c == '_'

inductive Shape where
  | blank
  | opening
  | closing
  | digits
  | symbols
  | word
  | stray
  deriving DecidableEq, Repr

def Shape.ofFirst (c : Char) : Shape :=
  if isBlank c then .blank
  else if c = '(' then .opening
  else if c = ')' then .closing
  else if c.isDigit then .digits
  else if isSymbol c then .symbols
  else if isLetter c then .word
  else .stray

def Shape.runsOn : Shape → Char → Bool
  | .digits, c => c.isDigit
  | .symbols, c => isSymbol c
  | .word, c => isWordRest c
  | _, _ => false

structure Piece where
  first : Char
  rest : List Char
  deriving DecidableEq, Repr

def Piece.chars (p : Piece) : List Char := p.first :: p.rest

def Piece.shape (p : Piece) : Shape := .ofFirst p.first

def cut : List Char → List Piece
  | [] => []
  | c :: text =>
    let run := (Shape.ofFirst c).runsOn
    ⟨c, text.takeWhile run⟩ :: cut (text.dropWhile run)
termination_by text => text.length
decreasing_by exact Nat.lt_succ_of_le (List.dropWhile_suffix _).length_le

@[simp] theorem cut_nil : cut [] = [] := by
  rw [cut]

theorem cut_cons (c : Char) (text : List Char) :
    cut (c :: text) = ⟨c, text.takeWhile (Shape.ofFirst c).runsOn⟩ ::
      cut (text.dropWhile (Shape.ofFirst c).runsOn) := by
  rw [cut]

/-- Cutting loses nothing. -/
theorem chars_cut (text : List Char) : (cut text).flatMap Piece.chars = text := by
  fun_induction cut text with
  | case1 => rfl
  | case2 c text run rest => simp [Piece.chars, rest, List.takeWhile_append_dropWhile]

end InfixTree.Text
