import InfixTree.Expr

/-!
The two written forms of a tree. The precedence form puts every application and every operator
with its operands into braces; the plain form is the line again, with one blank between pieces and
no bracket that is not in the tree.
-/
namespace InfixTree.Expr

mutual

def precedenceChars : Expr → List Char
  | .number value => Text.decimal value.toNat
  | .identifier name => name.toList
  | .application callee args => '{' :: (callee.precedenceChars ++ (precedenceArgs args ++ ['}']))
  | .parenthesized inner => '(' :: (inner.precedenceChars ++ [')'])
  | .binary left operator right =>
    '{' :: (left.precedenceChars ++ (operator.toList ++ (right.precedenceChars ++ ['}'])))

def precedenceArgs : List Expr → List Char
  | [] => []
  | a :: rest => ' ' :: (a.precedenceChars ++ precedenceArgs rest)

end

mutual

def plainChars : Expr → List Char
  | .number value => Text.decimal value.toNat
  | .identifier name => name.toList
  | .application callee args => callee.plainChars ++ plainArgs args
  | .parenthesized inner => '(' :: (inner.plainChars ++ [')'])
  | .binary left operator right =>
    left.plainChars ++ (' ' :: (operator.toList ++ (' ' :: right.plainChars)))

def plainArgs : List Expr → List Char
  | [] => []
  | a :: rest => ' ' :: (a.plainChars ++ plainArgs rest)

end

def precedenceForm (e : Expr) : String := String.ofList e.precedenceChars

def plainForm (e : Expr) : String := String.ofList e.plainChars

theorem precedenceArgs_eq_flatMap (args : List Expr) :
    precedenceArgs args = args.flatMap fun a => ' ' :: a.precedenceChars := by
  induction args with
  | nil => rfl
  | cons a rest ih => simp [precedenceArgs, ih]

theorem plainArgs_eq_flatMap (args : List Expr) :
    plainArgs args = args.flatMap fun a => ' ' :: a.plainChars := by
  induction args with
  | nil => rfl
  | cons a rest ih => simp [plainArgs, ih]

end InfixTree.Expr
