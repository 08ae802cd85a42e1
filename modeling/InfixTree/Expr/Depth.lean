import InfixTree.Expr

/-!
A tree seen by depth. A sweep shows the pieces of the plain form that lie at one depth and leaves
every other column blank. Operands lie one deeper than their operator or application, parentheses
take no depth, and a leaf is shown by the sweep before its own depth, so a line that is one leaf
is never shown.
-/
namespace InfixTree.Expr

/-- Hidden text keeps its width. -/
def veil (shown : Bool) (text : List Char) : List Char :=
  if shown then text else text.map fun _ => ' '

mutual

def sweepChars (sweep depth : Nat) : Expr → List Char
  | .number value => veil (depth == sweep + 1) (Text.decimal value.toNat)
  | .identifier name => veil (depth == sweep + 1) name.toList
  | .application callee args =>
    callee.sweepChars sweep (depth + 1) ++ sweepArgs sweep (depth + 1) args
  | .parenthesized inner =>
    veil (depth == sweep) ['('] ++ (inner.sweepChars sweep depth ++ veil (depth == sweep) [')'])
  | .binary left operator right =>
    left.sweepChars sweep (depth + 1) ++
      (' ' :: (veil (depth == sweep) operator.toList ++
        (' ' :: right.sweepChars sweep (depth + 1))))

def sweepArgs (sweep depth : Nat) : List Expr → List Char
  | [] => []
  | a :: rest => ' ' :: (a.sweepChars sweep depth ++ sweepArgs sweep depth rest)

end

def depthLine (e : Expr) (sweep : Nat) : String := String.ofList (e.sweepChars sweep 0)

def sweepCount : Nat := 12

def depthView (e : Expr) : List String := (List.range sweepCount).map e.depthLine

@[simp] theorem length_veil (shown : Bool) (text : List Char) :
    (veil shown text).length = text.length := by
  cases shown <;> simp [veil]

@[simp] theorem length_depthView (e : Expr) : e.depthView.length = sweepCount := by
  simp [depthView]

end InfixTree.Expr
