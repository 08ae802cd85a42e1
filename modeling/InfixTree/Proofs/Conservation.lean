import InfixTree.Proofs.Contents
import InfixTree.Proofs.Nesting
import Mathlib.Data.List.Forall2

/-!
What a tree has of the tokens it was read from, whatever their order was. Operands, groups and
their parentheses stand in the tree as they stood in the line; operators may have moved, but none
has left its level.
-/
namespace InfixTree

def Kind.isOperator : Kind → Bool
  | .operator _ => true
  | _ => false

namespace Expr

/-- What the tree spells, its operators left out. -/
def operandSpelling (e : Expr) : List Kind := e.spelling.filter fun k => !k.isOperator

def isApplication : Expr → Bool
  | .application .. => true
  | _ => false

def isParenthesized : Expr → Bool
  | .parenthesized _ => true
  | _ => false

end Expr

namespace Parse

/-- A list that a tree has from its operands in their order, and nothing from its operators. -/
structure Inorder {α : Type} (f : Expr → List α) : Prop where
  application : ∀ callee args, f (.application callee args) = f callee ++ args.flatMap f
  binary : ∀ l o r, f (.binary l o r) = f l ++ f r

theorem inorder_operandSpelling : Inorder Expr.operandSpelling := by
  constructor
  · intro callee args
    simp [Expr.operandSpelling, Expr.spelling, Expr.spellings_eq_flatMap, List.filter_flatMap]
    rfl
  · intro l o r
    simp [Expr.operandSpelling, Expr.spelling, Kind.isOperator]

def groupLevels (e : Expr) : List (List String) := e.groups.map Expr.ownOperators

theorem inorder_groupLevels : Inorder groupLevels := by
  constructor
  · intro callee args
    simp [groupLevels, Expr.groups, Expr.groupsAll_eq_flatMap, List.map_flatMap]
    rfl
  · intro l o r
    simp [groupLevels, Expr.groups]

theorem additive_ownOperators : Additive Expr.ownOperators id :=
  ⟨fun callee args => by rw [Expr.ownOperators, Expr.ownOperatorsAll_eq_flatMap],
    fun _ _ _ => rfl⟩

namespace Level

/-- The lists of the trees of the level, oldest first. -/
def inorder {α : Type} (f : Expr → List α) (l : Level) : List α :=
  l.closed.output.reverse.flatMap f

section Inorder

variable {α : Type} {f : Expr → List α}

theorem inorder_operand (inorder : Inorder f) (l : Level) (e : Expr) :
    (l.operand e).inorder f = l.inorder f ++ f e := by
  rcases l with ⟨output, operators, _ | ⟨callee, args⟩⟩
  · simp [Level.inorder, operand, closed]
  · simp [Level.inorder, operand, closed, flatMap_apply inorder.application]

theorem inorder_identifier (inorder : Inorder f) (l : Level) (name : String) :
    (l.identifier name).inorder f = l.inorder f ++ f (.identifier name) := by
  cases h : l.application with
  | some app =>
    have same : l.identifier name = l.operand (.identifier name) := by simp [identifier, h]
    rw [same]
    exact inorder_operand inorder l (.identifier name)
  | none => simp [Level.inorder, identifier, closed, h, Expr.apply]

end Inorder

end Level

theorem Reduces.inorder {α : Type} {f : Expr → List α} (inorder : Inorder f)
    {operators operators' : List Pending} {output output' : List Expr}
    (reduces : Reduces operators output operators' output') :
    output'.reverse.flatMap f = output.reverse.flatMap f := by
  induction reduces with
  | refl => rfl
  | step _ ih => simp [ih, inorder.binary]

namespace Level

theorem inorder_operator {α : Type} {f : Expr → List α} (inorder : Inorder f) {mode : Mode}
    {l k : Level} {p : Pending} (pushed : (l.operator mode p).outcome = .ok k) :
    k.inorder f = l.inorder f := by
  obtain ⟨operators, output, reduced, rfl⟩ := operator_eq_ok_iff.mp pushed
  exact (reduces_of_reduceBefore reduced).inorder inorder

theorem Yields.inorder {α : Type} {f : Expr → List α} (inorder : Inorder f) {l : Level} {e : Expr}
    (yields : l.Yields e) : f e = l.inorder f := by
  simpa [Level.inorder] using yields.reduces.inorder inorder

end Level

variable {mode : Mode}

/-- The operands of a level stand in the order of their tokens. -/
theorem operandSpelling_of_takes {l m : Level} {ts : List Token} (taken : Takes mode l ts m) :
    m.inorder Expr.operandSpelling =
      l.inorder Expr.operandSpelling ++ (kinds ts).filter fun k => !k.isOperator := by
  induction taken with
  | nil l => simp
  | @number l m t ts value kind _ ih =>
    rw [ih, l.inorder_operand inorder_operandSpelling, kinds_cons, kind, List.append_assoc]
    rfl
  | @identifier l m t ts name kind _ ih =>
    rw [ih, l.inorder_identifier inorder_operandSpelling, kinds_cons, kind, List.append_assoc]
    rfl
  | @operator l k m t ts spelling kind pushed _ ih =>
    rw [ih, Level.inorder_operator inorder_operandSpelling pushed, kinds_cons, kind]
    rfl
  | @group l k m t u inner ts e opens _ yields closes _ ihInside ih =>
    have inside : e.operandSpelling = (kinds inner).filter fun k => !k.isOperator :=
      (yields.inorder inorder_operandSpelling).trans ihInside
    have group : (Expr.parenthesized e).operandSpelling =
        .opening :: (e.operandSpelling ++ [.closing]) := by
      simp [Expr.operandSpelling, Expr.spelling, Kind.isOperator]
    rw [ih, l.inorder_operand inorder_operandSpelling, group, inside, kinds_cons, kinds_append,
      kinds_cons, opens, closes]
    simp [Kind.isOperator]

/-- From one level to the other so many operators of its own and so many groups have been added. -/
structure Keeps (l m : Level) (own : List String) (groups : List (List String)) : Prop where
  own : (m.holding Expr.ownOperators id).Perm (l.holding Expr.ownOperators id ++ own)
  groups : ∃ added, m.inorder groupLevels = l.inorder groupLevels ++ added ∧
    List.Forall₂ List.Perm added groups

namespace Keeps

variable {l k m : Level}

theorem refl (l : Level) : Keeps l l [] [] := ⟨by simp, [], by simp, .nil⟩

theorem trans {own own' : List String} {groups groups' : List (List String)}
    (first : Keeps l k own groups) (second : Keeps k m own' groups') :
    Keeps l m (own ++ own') (groups ++ groups') := by
  obtain ⟨added, before, within⟩ := first.groups
  obtain ⟨added', after, within'⟩ := second.groups
  refine ⟨?_, added ++ added', by rw [after, before, List.append_assoc],
    List.rel_append within within'⟩
  have step := first.own.append_right own'
  rw [List.append_assoc] at step
  exact second.own.trans step

theorem operand (l : Level) {e : Expr} {groups : List (List String)} (none : e.ownOperators = [])
    (within : List.Forall₂ List.Perm (groupLevels e) groups) : Keeps l (l.operand e) [] groups := by
  refine ⟨?_, groupLevels e, l.inorder_operand inorder_groupLevels e, within⟩
  rw [← none]
  exact l.holding_operand additive_ownOperators e

theorem identifier (l : Level) (name : String) : Keeps l (l.identifier name) [] [] :=
  ⟨l.holding_identifier additive_ownOperators name, [],
    l.inorder_identifier inorder_groupLevels name, .nil⟩

theorem operator {p : Pending} (pushed : (l.operator mode p).outcome = .ok k) :
    Keeps l k [p.spelling] [] := by
  refine ⟨Level.holding_operator additive_ownOperators pushed, [], ?_, .nil⟩
  rw [Level.inorder_operator inorder_groupLevels pushed, List.append_nil]

/-- The tree that a level leaves has its operators and its groups. -/
theorem yields {own : List String} {groups : List (List String)} {e : Expr}
    (keeps : Keeps .empty m own groups) (yields : m.Yields e) :
    e.ownOperators.Perm own ∧ List.Forall₂ List.Perm (groupLevels e) groups := by
  obtain ⟨added, collected, within⟩ := keeps.groups
  constructor
  · exact (yields.holding_perm additive_ownOperators).trans keeps.own
  · rw [yields.inorder inorder_groupLevels, collected]
    exact within

end Keeps

/-- The operators that a level takes stay in it, and those of each group inside it stay there. -/
theorem keeps_of_takes {l m : Level} {ts : List Token} (taken : Takes mode l ts m) :
    Keeps l m (Nesting.operatorsFrom 0 (kinds ts)) (Nesting.groupLevels (kinds ts)) := by
  induction taken with
  | nil l => exact .refl l
  | @number l m t ts value kind _ ih =>
    rw [kinds_cons, kind]
    exact (Keeps.operand l rfl .nil).trans ih
  | @identifier l m t ts name kind _ ih =>
    rw [kinds_cons, kind]
    exact (Keeps.identifier l name).trans ih
  | @operator l k m t ts spelling kind pushed _ ih =>
    rw [kinds_cons, kind]
    exact (Keeps.operator pushed).trans ih
  | @group l k m t u inner ts e opens inside yields closes _ ihInside ih =>
    obtain ⟨own, within⟩ := ihInside.yields yields
    have balanced := inside.balanced
    have group : Keeps l (l.operand (.parenthesized e)) []
        (Nesting.operatorsFrom 0 (kinds inner) :: Nesting.groupLevels (kinds inner)) :=
      Keeps.operand l rfl (.cons own within)
    rw [kinds_cons, kinds_append, kinds_cons, opens, closes, Nesting.operatorsFrom_group balanced,
      Nesting.groupLevels_group balanced, Nesting.groupLevels_append balanced]
    exact group.trans ih

end Parse

namespace Expr

/-- Every token of a tree is a node of its own, but for the second parenthesis of a group; and an
application is a node without a token. -/
theorem length_spelling (e : Expr) :
    e.spelling.length + e.nodes.countP isApplication =
      e.nodeCount + e.nodes.countP isParenthesized := by
  induction e with
  | number value => rfl
  | identifier name => rfl
  | application callee args ihf ih =>
    have all : (spellings args).length + (nodesAll args).countP isApplication =
        nodeCounts args + (nodesAll args).countP isParenthesized := by
      clear ihf
      induction args with
      | nil => rfl
      | cons a rest tail =>
        have first := ih a (by simp)
        have others := tail fun b hb => ih b (by simp [hb])
        simp only [spellings, nodesAll, nodeCounts, List.length_append, List.countP_append]
        omega
    simp only [spelling, nodes, nodeCount, List.length_append, List.countP_append,
      List.countP_singleton, isApplication, isParenthesized, Bool.false_eq_true, ↓reduceIte]
    omega
  | parenthesized inner ih =>
    simp only [spelling, nodes, nodeCount, List.length_append, List.length_cons, List.length_nil,
      List.countP_append, List.countP_singleton, isApplication, isParenthesized,
      Bool.false_eq_true, ↓reduceIte]
    omega
  | binary left operator right ihl ihr =>
    simp only [spelling, nodes, nodeCount, List.length_append, List.length_cons, List.countP_append,
      List.countP_singleton, isApplication, isParenthesized, Bool.false_eq_true, ↓reduceIte]
    omega

end Expr

/-- The tree has the operands of the tokens in their order, and on every level their operators. -/
structure Conserves (e : Expr) (taken : List Kind) : Prop where
  operands : e.operandSpelling = taken.filter fun k => !k.isOperator
  levels : List.Forall₂ List.Perm e.levels (Nesting.levels taken)
  applied : e.Applied

theorem Parse.conserves_of_takes {mode : Mode} {m : Parse.Level} {ts : List Token} {e : Expr}
    (taken : Parse.Takes mode .empty ts m) (yields : m.Yields e) : Conserves e (kinds ts) := by
  obtain ⟨own, within⟩ := (Parse.keeps_of_takes taken).yields yields
  refine ⟨?_, .cons own within, Parse.applied_of_takes taken yields⟩
  rw [yields.inorder Parse.inorder_operandSpelling, Parse.operandSpelling_of_takes taken]
  rfl

/-- Reading from any token on, no token is lost, doubled or made up, whether or not operands and
operators take turns. -/
theorem parseFrom_conserves_tokens {mode : Mode} {tokens : List Token} {start stop : Nat} {e : Expr}
    (parsed : parseFrom mode tokens start = .ok (e, stop)) :
    start ≤ stop ∧ stop ≤ tokens.length ∧ Conserves e (kinds (tokens.extract start stop)) ∧
      (stop : Int) - start = e.nodeCount + e.nodes.countP Expr.isParenthesized -
        e.nodes.countP Expr.isApplication := by
  obtain ⟨taken, rest, m, split, takes, yields, rfl, -⟩ := Parse.parseFrom_eq_ok_iff.mp parsed
  have slice : tokens.extract start (start + taken.length) = taken := by
    simp [List.extract, split]
  have perm := Parse.spelling_perm_of_takes takes yields
  have size := perm.length_eq
  have nodes := e.length_spelling
  have some : e.spelling.length ≠ 0 := by simpa using e.spelling_ne_nil
  have lengths := congrArg List.length split
  simp only [List.length_drop, List.length_append, length_kinds] at lengths size
  rw [slice]
  exact ⟨by omega, by omega, Parse.conserves_of_takes takes yields, by omega⟩

/-- Tokens made by hand: the inside of a group in which four operators have no operand between
them, with an operator and identifiers that no line spells. -/
def scattered : List Token :=
  let token (kind : Kind) : Token := ⟨kind, "", .start⟩
  [.opening, .number 0, .number 1, .identifier "", .identifier "(", .operator "+", .operator "$",
    .operator "a b", .operator "*", .opening, .number 2, .number 3, .operator "<", .closing,
    .number 4, .closing, .operator "-"].map token

def gatheredTree : Expr :=
  .binary (.binary (.number 0) "a b" (.binary (.number 1) "+"
      (.application (.identifier "") [.identifier "("]))) "$"
    (.binary (.parenthesized (.binary (.number 2) "<" (.number 3))) "*" (.number 4))

theorem parseFrom_conserves_scattered :
    parseFrom .strict scattered 1 = .ok (gatheredTree, 15) ∧ 1 ≤ 15 ∧ 15 ≤ scattered.length ∧
      Conserves gatheredTree (kinds (scattered.extract 1 15)) ∧
      ((15 : Nat) : Int) - (1 : Nat) = gatheredTree.nodeCount +
        gatheredTree.nodes.countP Expr.isParenthesized -
          gatheredTree.nodes.countP Expr.isApplication := by
  have parsed : parseFrom .strict scattered 1 = .ok (gatheredTree, 15) := by decide +kernel
  exact ⟨parsed, parseFrom_conserves_tokens parsed⟩

end InfixTree
