import InfixTree.Token

/-!
Expression trees. A tree keeps the parentheses of its line as nodes of their own, so that a line
can be written again from its tree.
-/
namespace InfixTree

inductive Expr where
  | number (value : UInt64)
  | identifier (name : String)
  | application (callee : Expr) (args : List Expr)
  | parenthesized (inner : Expr)
  | binary (left : Expr) (operator : String) (right : Expr)
  deriving Repr

namespace Expr

/-- Induction on trees: the step for an application may use every argument. -/
@[induction_eliminator]
theorem induct {motive : Expr → Prop} (number : ∀ value, motive (.number value))
    (identifier : ∀ name, motive (.identifier name))
    (application : ∀ callee args, motive callee → (∀ a ∈ args, motive a) →
      motive (.application callee args))
    (parenthesized : ∀ inner, motive inner → motive (.parenthesized inner))
    (binary : ∀ left operator right, motive left → motive right →
      motive (.binary left operator right)) (e : Expr) : motive e :=
  @Expr.rec motive (fun args => ∀ a ∈ args, motive a) number identifier application
    parenthesized binary (by simp) (fun _ _ first rest => by simpa using ⟨first, rest⟩) e

mutual

def decEq : (d e : Expr) → Decidable (d = e)
  | .number m, .number n => decidable_of_iff (m = n) (by simp)
  | .identifier s, .identifier t => decidable_of_iff (s = t) (by simp)
  | .application f as, .application g bs =>
    match decEq f g, decEqAll as bs with
    | isTrue hf, isTrue ha => isTrue (by rw [hf, ha])
    | isFalse hf, _ => isFalse (by simp [hf])
    | _, isFalse ha => isFalse (by simp [ha])
  | .parenthesized d, .parenthesized e =>
    match decEq d e with
    | isTrue h => isTrue (by rw [h])
    | isFalse h => isFalse (by simp [h])
  | .binary l o r, .binary m p s =>
    match decEq l m, decEq r s, instDecidableEqString o p with
    | isTrue hl, isTrue hr, isTrue ho => isTrue (by rw [hl, hr, ho])
    | isFalse hl, _, _ => isFalse (by simp [hl])
    | _, isFalse hr, _ => isFalse (by simp [hr])
    | _, _, isFalse ho => isFalse (by simp [ho])
  | .number _, .identifier _ | .number _, .application .. | .number _, .parenthesized _
  | .number _, .binary .. | .identifier _, .number _ | .identifier _, .application ..
  | .identifier _, .parenthesized _ | .identifier _, .binary .. | .application .., .number _
  | .application .., .identifier _ | .application .., .parenthesized _
  | .application .., .binary .. | .parenthesized _, .number _ | .parenthesized _, .identifier _
  | .parenthesized _, .application .. | .parenthesized _, .binary .. | .binary .., .number _
  | .binary .., .identifier _ | .binary .., .application .. | .binary .., .parenthesized _ =>
    isFalse nofun

def decEqAll : (as bs : List Expr) → Decidable (as = bs)
  | [], [] => isTrue rfl
  | a :: as, b :: bs =>
    match decEq a b, decEqAll as bs with
    | isTrue h, isTrue hs => isTrue (by rw [h, hs])
    | isFalse h, _ => isFalse (by simp [h])
    | _, isFalse hs => isFalse (by simp [hs])
  | [], _ :: _ | _ :: _, [] => isFalse nofun

end

instance : DecidableEq Expr := decEq

/-- Nothing to apply to leaves the callee as it is. -/
def apply (callee : Expr) : List Expr → Expr
  | [] => callee
  | args => .application callee args

def isLeaf : Expr → Bool
  | .number _ | .identifier _ => true
  | _ => false

mutual

def nodeCount : Expr → Nat
  | .number _ | .identifier _ => 1
  | .application callee args => 1 + callee.nodeCount + nodeCounts args
  | .parenthesized inner => 1 + inner.nodeCount
  | .binary left _ right => 1 + left.nodeCount + right.nodeCount

def nodeCounts : List Expr → Nat
  | [] => 0
  | a :: rest => a.nodeCount + nodeCounts rest

end

theorem nodeCounts_eq_foldr (args : List Expr) :
    nodeCounts args = args.foldr (fun a total => a.nodeCount + total) 0 := by
  induction args with
  | nil => rfl
  | cons a rest ih => simp [nodeCounts, ih]

end Expr

end InfixTree
