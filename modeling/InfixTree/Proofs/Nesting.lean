import InfixTree.Proofs.Levels
import InfixTree.Proofs.Spelling

/-!
The levels of a line and of a tree. A level of a line runs from its beginning, or from an opening
parenthesis, to the closing parenthesis that has none to close inside it. A level of a tree is the
tree itself, or what one of its parentheses hold. Both are listed in the order in which they open,
each with its own operators: those of the levels inside it are left out.
-/
namespace InfixTree

namespace Expr

mutual

/-- The operators of the tree that no parentheses of it hold. -/
def ownOperators : Expr → List String
  | .number _ | .identifier _ | .parenthesized _ => []
  | .application callee args => callee.ownOperators ++ ownOperatorsAll args
  | .binary left operator right => left.ownOperators ++ operator :: right.ownOperators

def ownOperatorsAll : List Expr → List String
  | [] => []
  | a :: rest => a.ownOperators ++ ownOperatorsAll rest

end

mutual

/-- What the parentheses of the tree hold, in the order in which they open. -/
def groups : Expr → List Expr
  | .number _ | .identifier _ => []
  | .application callee args => callee.groups ++ groupsAll args
  | .parenthesized inner => inner :: inner.groups
  | .binary left _ right => left.groups ++ right.groups

def groupsAll : List Expr → List Expr
  | [] => []
  | a :: rest => a.groups ++ groupsAll rest

end

def levels (e : Expr) : List (List String) := (e :: e.groups).map ownOperators

theorem ownOperatorsAll_eq_flatMap (args : List Expr) :
    ownOperatorsAll args = args.flatMap ownOperators := by
  induction args with
  | nil => rfl
  | cons a rest ih => simp [ownOperatorsAll, ih]

theorem groupsAll_eq_flatMap (args : List Expr) : groupsAll args = args.flatMap groups := by
  induction args with
  | nil => rfl
  | cons a rest ih => simp [groupsAll, ih]

end Expr

namespace Nesting

/-- Every parenthesis has its other half. -/
inductive Balanced : List Kind → Prop where
  | nil : Balanced []
  | plain {k : Kind} {ks : List Kind} (solid : k ≠ .opening ∧ k ≠ .closing)
      (rest : Balanced ks) : Balanced (k :: ks)
  | group {xs ks : List Kind} (inside : Balanced xs) (rest : Balanced ks) :
      Balanced (.opening :: (xs ++ .closing :: ks))

/-- The operators that follow in a level, up to its end. The number counts the groups inside it
that are open. -/
def operatorsFrom : Nat → List Kind → List String
  | _, [] => []
  | depth, .opening :: ks => operatorsFrom (depth + 1) ks
  | 0, .closing :: _ => []
  | depth + 1, .closing :: ks => operatorsFrom depth ks
  | 0, .operator o :: ks => o :: operatorsFrom 0 ks
  | depth, _ :: ks => operatorsFrom depth ks

/-- What follows each opening parenthesis. -/
def openings : List Kind → List (List Kind)
  | [] => []
  | .opening :: ks => ks :: openings ks
  | _ :: ks => openings ks

/-- The operators of each level that begins in the line. -/
def levels (line : List Kind) : List (List String) :=
  (line :: openings line).map (operatorsFrom 0)

example : levels [.number 1, .operator "+", .opening, .number 2, .operator "*", .closing,
    .operator "-"] = [["+", "-"], ["*"]] := by decide +kernel

/-- A level passes over the groups inside it. -/
theorem operatorsFrom_of_balanced {xs : List Kind} (balanced : Balanced xs) (depth : Nat)
    (rest : List Kind) : operatorsFrom (depth + 1) (xs ++ rest) = operatorsFrom (depth + 1) rest := by
  induction balanced generalizing depth rest with
  | nil => rfl
  | @plain k ks solid _ ih =>
    cases k with
    | opening => exact absurd rfl solid.1
    | closing => exact absurd rfl solid.2
    | _ => simp [operatorsFrom, ih]
  | @group xs ks _ _ ihInside ih =>
    simp [operatorsFrom, ihInside, ih]

theorem operatorsFrom_group {xs : List Kind} (balanced : Balanced xs) (rest : List Kind) :
    operatorsFrom 0 (.opening :: (xs ++ .closing :: rest)) = operatorsFrom 0 rest := by
  rw [operatorsFrom, operatorsFrom_of_balanced balanced, operatorsFrom]

theorem operatorsFrom_append {xs : List Kind} (balanced : Balanced xs) (rest : List Kind) :
    operatorsFrom 0 (xs ++ rest) = operatorsFrom 0 xs ++ operatorsFrom 0 rest := by
  induction balanced generalizing rest with
  | nil => rfl
  | @plain k ks solid _ ih =>
    cases k with
    | opening => exact absurd rfl solid.1
    | closing => exact absurd rfl solid.2
    | _ => simp [operatorsFrom, ih]
  | @group xs ks inside _ _ ih =>
    rw [List.cons_append, List.append_assoc, List.cons_append, operatorsFrom_group inside,
      operatorsFrom_group inside, ih]

/-- The operators of each level that an opening parenthesis begins. -/
def groupLevels (line : List Kind) : List (List String) := (openings line).map (operatorsFrom 0)

theorem groupLevels_group {xs : List Kind} (balanced : Balanced xs) (rest : List Kind) :
    groupLevels (.opening :: (xs ++ .closing :: rest)) =
      operatorsFrom 0 xs :: groupLevels (xs ++ .closing :: rest) := by
  simp [groupLevels, openings, operatorsFrom_append balanced, operatorsFrom]

theorem groupLevels_append {xs : List Kind} (balanced : Balanced xs) (rest : List Kind) :
    groupLevels (xs ++ rest) = groupLevels xs ++ groupLevels rest := by
  have closing : ∀ ks, groupLevels (.closing :: ks) = groupLevels ks := fun ks => rfl
  induction balanced generalizing rest with
  | nil => rfl
  | @plain k ks solid _ ih =>
    cases k with
    | opening => exact absurd rfl solid.1
    | closing => exact absurd rfl solid.2
    | _ => exact ih rest
  | @group xs ks inside _ ihInside ih =>
    rw [List.cons_append, List.append_assoc, List.cons_append, groupLevels_group inside,
      groupLevels_group inside, ihInside, ihInside, closing, closing, ih]
    simp

end Nesting

theorem Parse.Takes.balanced {mode : Mode} {l m : Parse.Level} {ts : List Token}
    (taken : Parse.Takes mode l ts m) : Nesting.Balanced (kinds ts) := by
  induction taken with
  | nil => exact .nil
  | number kind _ ih =>
    rw [kinds_cons, kind]
    exact .plain (by simp) ih
  | identifier kind _ ih =>
    rw [kinds_cons, kind]
    exact .plain (by simp) ih
  | operator kind _ _ ih =>
    rw [kinds_cons, kind]
    exact .plain (by simp) ih
  | group opens _ _ closes _ ihInside ih =>
    rw [kinds_cons, kinds_append, kinds_cons, opens, closes]
    exact .group ihInside ih

end InfixTree
