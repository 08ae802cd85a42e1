import InfixTree.Proofs.Spelling

/-!
Infix lines, told by the kinds of their tokens alone: operands with an operator between each two,
on every level of parentheses. What a tree spells is such a line as soon as its applications are
well made, however its operators group.
-/
namespace InfixTree.Grammar

mutual

inductive IsLevel : List Kind → Prop where
  | single {xs : List Kind} (operand : IsOperand xs) : IsLevel xs
  | chain {xs ys : List Kind} (operand : IsOperand xs) (operator : String) (rest : IsLevel ys) :
      IsLevel (xs ++ .operator operator :: ys)

inductive IsOperand : List Kind → Prop where
  | number (value : UInt64) : IsOperand [.number value]
  | application (callee : String) {xs : List Kind} (args : IsAtoms xs) :
      IsOperand (.identifier callee :: xs)
  | group {xs : List Kind} (inner : IsLevel xs) : IsOperand (.opening :: (xs ++ [.closing]))

inductive IsAtoms : List Kind → Prop where
  | nil : IsAtoms []
  | cons {xs ys : List Kind} (atom : IsAtom xs) (rest : IsAtoms ys) : IsAtoms (xs ++ ys)

inductive IsAtom : List Kind → Prop where
  | identifier (name : String) : IsAtom [.identifier name]
  | number (value : UInt64) : IsAtom [.number value]
  | group {xs : List Kind} (inner : IsLevel xs) : IsAtom (.opening :: (xs ++ [.closing]))

end

theorem isLevel_append {xs ys : List Kind} (left : IsLevel xs) (operator : String)
    (right : IsLevel ys) : IsLevel (xs ++ .operator operator :: ys) := by
  match left with
  | .single operand => exact .chain operand operator right
  | @IsLevel.chain first rest operand o tail =>
    have := IsLevel.chain operand o (isLevel_append tail operator right)
    simpa using this

/-- An operator alone is no operand, an application is no atom; every tree is a level. -/
theorem spelling_derives (e : Expr) (applied : e.Applied) :
    IsLevel e.spelling ∧ (e.operator? = none → IsOperand e.spelling) ∧
      (e.isAtom → IsAtom e.spelling) := by
  induction e with
  | number value =>
    exact ⟨.single (.number value), fun _ => .number value, fun _ => .number value⟩
  | identifier name =>
    have operand : IsOperand [.identifier name] := .application name .nil
    exact ⟨.single operand, fun _ => operand, fun _ => .identifier name⟩
  | application callee args _ ih =>
    obtain ⟨⟨name, rfl⟩, -, atoms⟩ := Expr.applied_application.mp applied
    have all : IsAtoms (Expr.spellings args) := by
      clear applied
      induction args with
      | nil => exact .nil
      | cons a rest tail =>
        have first := atoms a (by simp)
        exact .cons ((ih a (by simp) first.2).2.2 first.1)
          (tail (fun b hb => ih b (by simp [hb])) (fun b hb => atoms b (by simp [hb])))
    have operand : IsOperand (Expr.application (.identifier name) args).spelling :=
      .application name all
    exact ⟨.single operand, fun _ => operand, by simp [Expr.isAtom]⟩
  | parenthesized inner ih =>
    have level := (ih (by simpa using applied)).1
    exact ⟨.single (.group level), fun _ => .group level, fun _ => .group level⟩
  | binary left operator right ihl ihr =>
    obtain ⟨hl, hr⟩ := Expr.applied_binary.mp applied
    exact ⟨isLevel_append (ihl hl).1 operator (ihr hr).1, by simp [Expr.operator?],
      by simp [Expr.isAtom]⟩

theorem isLevel_spelling {e : Expr} (applied : e.Applied) : IsLevel e.spelling :=
  (spelling_derives e applied).1

end InfixTree.Grammar
