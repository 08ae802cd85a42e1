import InfixTree.Proofs.Levels
import InfixTree.Proofs.Spelling
import Mathlib.Data.List.Forall2

/-!
What parsing looks at. Of a token that is its kind, and of an operator its fixity; names, numbers
and spellings are passed on to the tree, and lexemes and places do not reach it. So the readings of
two lines whose tokens differ in no more than that go through the same steps, and end in alike trees
or in alike errors.
-/
namespace InfixTree

/-- What the names, the numbers and the operators of a line are replaced by. -/
structure Renaming where
  name : String → String
  number : UInt64 → UInt64
  operator : String → String

namespace Renaming

def same : Renaming := ⟨id, id, id⟩

def kind (r : Renaming) : Kind → Kind
  | .opening => .opening
  | .closing => .closing
  | .number value => .number (r.number value)
  | .operator spelling => .operator (r.operator spelling)
  | .identifier name => .identifier (r.name name)

mutual

def tree (r : Renaming) : Expr → Expr
  | .number value => .number (r.number value)
  | .identifier name => .identifier (r.name name)
  | .application callee args => .application (r.tree callee) (r.trees args)
  | .parenthesized inner => .parenthesized (r.tree inner)
  | .binary left operator right => .binary (r.tree left) (r.operator operator) (r.tree right)

def trees (r : Renaming) : List Expr → List Expr
  | [] => []
  | a :: rest => r.tree a :: r.trees rest

end

theorem trees_eq_map (r : Renaming) (args : List Expr) : r.trees args = args.map r.tree := by
  induction args with
  | nil => rfl
  | cons a rest ih => simp [trees, ih]

theorem kind_same (k : Kind) : same.kind k = k := by
  cases k <;> rfl

theorem tree_same (e : Expr) : same.tree e = e := by
  induction e with
  | number value => rfl
  | identifier name => rfl
  | application callee args ihf ih =>
    have all : args.map same.tree = args.map id := List.map_congr_left ih
    rw [tree, ihf, trees_eq_map, all, List.map_id]
  | parenthesized inner ih => rw [tree, ih]
  | binary left operator right ihl ihr =>
    rw [tree, ihl, ihr]
    rfl

theorem tree_apply (r : Renaming) (callee : Expr) (args : List Expr) :
    r.tree (.apply callee args) = .apply (r.tree callee) (args.map r.tree) := by
  cases args with
  | nil => rfl
  | cons a rest => simp [Expr.apply, tree, trees, trees_eq_map]

end Renaming

section Alike

variable (r : Renaming) (places : Location → Location → Prop)

/-- The second token is the first one renamed, at a place that belongs to the first one's. -/
structure Token.Follows (t u : Token) : Prop where
  kind : u.kind = r.kind t.kind
  fixity : ∀ spelling, t.kind = .operator spelling →
    Fixity.lookup (r.operator spelling) = .lookup spelling
  place : places t.location u.location

/-- The errors that parsing raises, of two readings that end at the same token. -/
inductive ParseError.Follows : ParseError → ParseError → Prop where
  | expectedClosing : Follows (.expectedClosing none none) (.expectedClosing none none)
  | unfinished : Follows (.unbalanced none) (.unbalanced none)
  | unbalanced {l m : Location} (place : places l m) :
      Follows (.unbalanced (some l)) (.unbalanced (some m))
  | nonAssociativeChain (left right : String) {l m : Location} (place : places l m) :
      Follows (.nonAssociativeChain left right l)
        (.nonAssociativeChain (r.operator left) (r.operator right) m)

namespace Parse

structure Pending.Follows (p q : Pending) : Prop where
  spelling : q.spelling = r.operator p.spelling
  fixity : q.fixity = p.fixity
  place : places p.location q.location

structure Level.Follows (l m : Level) : Prop where
  output : m.output = l.output.map r.tree
  operators : List.Forall₂ (Pending.Follows r places) l.operators m.operators
  application : m.application =
    l.application.map fun app => ⟨r.name app.callee, app.args.map r.tree⟩

/-- Two runs that end in related values or in errors that belong together. -/
inductive Outcomes {α β : Type} (related : α → β → Prop) :
    Except ParseError α → Except ParseError β → Prop where
  | ok {a : α} {b : β} (values : related a b) : Outcomes related (.ok a) (.ok b)
  | error {e f : ParseError} (errors : ParseError.Follows r places e f) :
      Outcomes related (.error e) (.error f)

end Parse

end Alike

namespace Parse

variable {r : Renaming} {places : Location → Location → Prop} {mode : Mode}

theorem Outcomes.bind {α β γ δ : Type} {related : α → β → Prop} {related' : γ → δ → Prop}
    {x : Except ParseError α} {y : Except ParseError β} {f : α → Except ParseError γ}
    {g : β → Except ParseError δ} (first : Outcomes r places related x y)
    (next : ∀ a b, related a b → Outcomes r places related' (f a) (g b)) :
    Outcomes r places related' (x.bind f) (y.bind g) := by
  cases first with
  | ok values => exact next _ _ values
  | error errors => exact .error errors

theorem Outcomes.map {α β γ δ : Type} {related : α → β → Prop} {related' : γ → δ → Prop}
    {x : Except ParseError α} {y : Except ParseError β} {f : α → γ} {g : β → δ}
    (first : Outcomes r places related x y) (next : ∀ a b, related a b → related' (f a) (g b)) :
    Outcomes r places related' (x.map f) (y.map g) := by
  cases first with
  | ok values => exact .ok (next _ _ values)
  | error errors => exact .error errors

section Level

variable {p q : Pending} {operators operators' : List Pending} {l m : Level}

theorem reduce_follows (follows : p.Follows r places q) (output : List Expr) :
    Outcomes r places (fun out out' => out' = out.map r.tree) (reduce p output).outcome
      (reduce q (output.map r.tree)).outcome := by
  match output with
  | [] => exact .error (.unbalanced follows.place)
  | [_] => exact .error (.unbalanced follows.place)
  | right :: left :: under =>
    rw [List.map_cons, List.map_cons, reduce_outcome, reduce_outcome, follows.spelling]
    exact .ok rfl

theorem reduceAll_follows (follows : List.Forall₂ (Pending.Follows r places) operators operators')
    (output : List Expr) :
    Outcomes r places (fun out out' => out' = out.map r.tree) (reduceAll operators output).outcome
      (reduceAll operators' (output.map r.tree)).outcome := by
  induction follows generalizing output with
  | nil => exact .ok rfl
  | cons top _ ih =>
    rw [reduceAll_cons_outcome, reduceAll_cons_outcome]
    apply (reduce_follows top output).bind
    intro out out' same
    rw [same]
    exact ih out

theorem reduceBefore_follows (incoming : p.Follows r places q)
    (follows : List.Forall₂ (Pending.Follows r places) operators operators') (output : List Expr) :
    Outcomes r places
      (fun left left' => List.Forall₂ (Pending.Follows r places) left.1 left'.1 ∧
        left'.2 = left.2.map r.tree)
      (reduceBefore mode p operators output).outcome
      (reduceBefore mode q operators' (output.map r.tree)).outcome := by
  induction follows generalizing output with
  | nil => exact .ok ⟨.nil, rfl⟩
  | cons top below ih =>
    rw [reduceBefore_cons_outcome, reduceBefore_cons_outcome, top.fixity, incoming.fixity]
    split
    · rw [top.spelling, incoming.spelling]
      exact .error (.nonAssociativeChain _ _ incoming.place)
    · split
      · apply (reduce_follows top output).bind
        intro out out' same
        rw [same]
        exact ih out
      · exact .ok ⟨.cons top below, rfl⟩

theorem Level.Follows.closed (follows : l.Follows r places m) :
    m.closed.output = l.closed.output.map r.tree := by
  rcases l with ⟨output, operators, _ | ⟨callee, args⟩⟩
  · rw [closed_of_none follows.application]
    exact follows.output
  · have opened := follows.application
    rw [Option.map_some] at opened
    rw [Level.closed, opened]
    simp [Level.closed, follows.output, Renaming.tree_apply, Renaming.tree]

theorem Level.Follows.finish (follows : l.Follows r places m) {closing closing' : Option Location}
    (errors : ParseError.Follows r places (.unbalanced closing) (.unbalanced closing')) :
    Outcomes r places (fun e e' => e' = r.tree e) (l.finish closing).outcome
      (m.finish closing').outcome := by
  rw [finish_outcome, finish_outcome, follows.closed]
  apply (reduceAll_follows follows.operators _).bind
  intro out out' same
  rw [same]
  match out with
  | [] => exact .error errors
  | [e] => exact .ok rfl
  | _ :: _ :: _ => exact .error errors

theorem Level.Follows.operator (follows : l.Follows r places m) (incoming : p.Follows r places q) :
    Outcomes r places (Level.Follows r places) (l.operator mode p).outcome
      (m.operator mode q).outcome := by
  rw [operator_outcome, operator_outcome, follows.closed]
  apply (reduceBefore_follows incoming follows.operators _).map
  intro left left' same
  exact ⟨same.2, .cons incoming same.1, rfl⟩

theorem Level.Follows.operand (follows : l.Follows r places m) (e : Expr) :
    (l.operand e).Follows r places (m.operand (r.tree e)) := by
  have opened := follows.application
  rcases l with ⟨output, operators, _ | ⟨callee, args⟩⟩
  · rw [Option.map_none] at opened
    refine ⟨?_, ?_, ?_⟩ <;> simp [Level.operand, opened, follows.output, follows.operators]
  · rw [Option.map_some] at opened
    refine ⟨?_, ?_, ?_⟩ <;> simp [Level.operand, opened, follows.output, follows.operators]

theorem Level.Follows.identifier (follows : l.Follows r places m) (name : String) :
    (l.identifier name).Follows r places (m.identifier (r.name name)) := by
  have opened := follows.application
  rcases l with ⟨output, operators, _ | ⟨callee, args⟩⟩
  · rw [Option.map_none] at opened
    refine ⟨?_, ?_, ?_⟩ <;> simp [Level.identifier, opened, follows.output, follows.operators]
  · have others : m.identifier (r.name name) = m.operand (r.tree (.identifier name)) := by
      simp [Level.identifier, opened, Renaming.tree]
    rw [others]
    exact follows.operand (.identifier name)

end Level

theorem read_follows {i : Nat} {l m : Level} {around around' : List Level} {ts us : List Token}
    (level : l.Follows r places m) (waiting : List.Forall₂ (Level.Follows r places) around around')
    (tokens : List.Forall₂ (Token.Follows r places) ts us) :
    Outcomes r places (fun a b => b = (r.tree a.1, a.2)) (read mode ⟨i, l, around⟩ ts).outcome
      (read mode ⟨i, m, around'⟩ us).outcome := by
  induction tokens generalizing i l m around around' with
  | nil =>
    cases waiting with
    | nil =>
      rw [read_end_outer, read_end_outer]
      exact (level.finish .unfinished).map fun e e' same => by rw [same]
    | cons below _ =>
      rw [read_end_inner, read_end_inner]
      exact (level.finish .unfinished).bind fun _ _ _ => .error .expectedClosing
  | @cons t u ts us here _ ih =>
    cases kind : t.kind with
    | number value =>
      have kind' : u.kind = .number (r.number value) := by rw [here.kind, kind, Renaming.kind]
      rw [read_number kind, read_number kind']
      exact ih (level.operand (.number value)) waiting
    | identifier name =>
      have kind' : u.kind = .identifier (r.name name) := by rw [here.kind, kind, Renaming.kind]
      rw [read_identifier kind, read_identifier kind']
      exact ih (level.identifier name) waiting
    | operator spelling =>
      have kind' : u.kind = .operator (r.operator spelling) := by
        rw [here.kind, kind, Renaming.kind]
      rw [read_operator kind, read_operator kind']
      have incoming : Pending.Follows r places ⟨spelling, t.location⟩
          ⟨r.operator spelling, u.location⟩ := ⟨rfl, here.fixity spelling kind, here.place⟩
      exact (level.operator incoming).bind fun k k' follows => ih follows waiting
    | opening =>
      have kind' : u.kind = .opening := by rw [here.kind, kind, Renaming.kind]
      rw [read_opening kind, read_opening kind']
      exact ih ⟨rfl, .nil, rfl⟩ (.cons level waiting)
    | closing =>
      have kind' : u.kind = .closing := by rw [here.kind, kind, Renaming.kind]
      have finished := level.finish (.unbalanced here.place)
      cases waiting with
      | nil =>
        rw [read_closing_outer kind, read_closing_outer kind']
        exact finished.map fun e e' same => by rw [same]
      | cons below beyond =>
        rw [read_closing_inner kind, read_closing_inner kind']
        apply finished.bind
        intro e e' same
        rw [same]
        exact ih (below.operand (.parenthesized e)) beyond

end Parse

section Alike

variable {r : Renaming} {places : Location → Location → Prop} {mode : Mode} {ts us : List Token}

theorem parseFrom_follows (tokens : List.Forall₂ (Token.Follows r places) ts us) (start : Nat) :
    Parse.Outcomes r places (fun a b => b = (r.tree a.1, a.2)) (parseFrom mode ts start)
      (parseFrom mode us start) := by
  rw [Parse.parseFrom_eq_read, Parse.parseFrom_eq_read]
  exact Parse.read_follows ⟨rfl, .nil, rfl⟩ .nil (List.forall₂_drop start tokens)

theorem parse_follows (tokens : List.Forall₂ (Token.Follows r places) ts us) :
    Parse.Outcomes r places (fun e e' => e' = r.tree e) (parse mode ts) (parse mode us) := by
  rw [Parse.parse_eq_bind, Parse.parse_eq_bind]
  apply (parseFrom_follows tokens 0).bind
  intro a b same
  rw [same]
  cases stray : ts[a.2]? with
  | none =>
    have past : us[a.2]? = none := by
      rw [List.getElem?_eq_none_iff, ← tokens.length_eq]
      exact List.getElem?_eq_none_iff.mp stray
    rw [past]
    exact .ok rfl
  | some t =>
    obtain ⟨bound, rfl⟩ := List.getElem?_eq_some_iff.mp stray
    have bound' : a.2 < us.length := by
      rw [← tokens.length_eq]
      exact bound
    rw [List.getElem?_eq_getElem bound']
    exact .error (.unbalanced (tokens.get bound bound').place)

/-- The tree of a line, and whether it has one, depends on the kinds of its tokens alone. -/
theorem parse_of_kinds (same : kinds ts = kinds us) :
    (parse mode ts).toOption = (parse mode us).toOption := by
  have alike : List.Forall₂ (fun t u : Token => t.kind = u.kind) ts us := by
    rw [← List.forall₂_map_right_iff, ← List.forall₂_map_left_iff, List.forall₂_eq_eq_eq]
    exact same
  have follows : List.Forall₂ (Token.Follows .same fun _ _ => True) ts us := by
    apply alike.imp
    intro t u kind
    exact ⟨by rw [Renaming.kind_same, kind], fun _ _ => rfl, trivial⟩
  have outcomes : Parse.Outcomes .same (fun _ _ => True) (fun e e' => e' = Renaming.same.tree e)
      (parse mode ts) (parse mode us) := parse_follows follows
  generalize parse mode ts = first at outcomes ⊢
  generalize parse mode us = second at outcomes ⊢
  cases outcomes with
  | ok values => rw [values, Renaming.tree_same]
  | error _ => rfl

end Alike

/-- The two places are those of one token of a line, before and after its places were changed. -/
def SamePlace (ts us : List Token) (l m : Location) : Prop :=
  ∃ (i : Nat) (t u : Token), ts[i]? = some t ∧ us[i]? = some u ∧ t.location = l ∧ u.location = m

theorem follows_of_kinds {r : Renaming} {ts us : List Token}
    (renamed : kinds us = (kinds ts).map r.kind)
    (fixities : ∀ spelling, .operator spelling ∈ kinds ts →
      Fixity.lookup (r.operator spelling) = .lookup spelling) :
    List.Forall₂ (Token.Follows r (SamePlace ts us)) ts us := by
  have length : us.length = ts.length := by
    have lengths := congrArg List.length renamed
    rw [List.length_map, length_kinds, length_kinds] at lengths
    exact lengths
  rw [List.forall₂_iff_get]
  refine ⟨length.symm, ?_⟩
  intro i before after
  have here : ts[i]? = some ts[i] := List.getElem?_eq_getElem before
  have there : us[i]? = some us[i] := List.getElem?_eq_getElem after
  refine ⟨?_, ?_, i, ts[i], us[i], here, there, rfl, rfl⟩
  · have same := congrArg (·[i]?) renamed
    simp only [kinds, List.getElem?_map, here, there, Option.map_some, Option.some.injEq] at same
    exact same
  · intro spelling kind
    apply fixities
    rw [← kind]
    exact List.mem_map_of_mem (List.getElem_mem before)

/-- When names and numbers are changed at will and operators to ones of the same fixity, and lexemes
and places too, then reading the line from any token on, or all of it, gives the tree with the same
changes and ends at the same token, or it fails with the same error of the same token. -/
theorem parsing_commutes_with_renaming {r : Renaming} {ts us : List Token}
    (renamed : kinds us = (kinds ts).map r.kind)
    (fixities : ∀ spelling, .operator spelling ∈ kinds ts →
      Fixity.lookup (r.operator spelling) = .lookup spelling) (mode : Mode) :
    (∀ start, Parse.Outcomes r (SamePlace ts us) (fun a b => b = (r.tree a.1, a.2))
      (parseFrom mode ts start) (parseFrom mode us start)) ∧
      Parse.Outcomes r (SamePlace ts us) (fun e e' => e' = r.tree e) (parse mode ts)
        (parse mode us) := by
  have tokens := follows_of_kinds renamed fixities
  constructor
  · intro start
    exact parseFrom_follows tokens start
  · exact parse_follows tokens

/-- `( f 1 <?> 2 < 3 == a`, where strict mode meets a chain, with an operator that no table has. -/
def openChain : List Token :=
  let token (kind : Kind) : Token := ⟨kind, "", .start⟩
  [token .opening, token (.identifier "f"), token (.number 1), token (.operator "<?>"),
    token (.number 2), token (.operator "<"), token (.number 3),
    ⟨.operator "==", "==", ⟨1, 17, 16⟩⟩, token (.identifier "a")]

def renamedChain : List Token :=
  let token (kind : Kind) : Token := ⟨kind, "?", ⟨2, 1, 9⟩⟩
  [token .opening, token (.identifier ""), token (.number 2), token (.operator ""),
    token (.number 3), token (.operator ">="), token (.number 4),
    ⟨.operator "/=", "/=", ⟨3, 5, 12⟩⟩, token (.identifier "")]

def chainRenaming : Renaming where
  name _ := ""
  number n := n + 1
  operator s := if s = "<" then ">=" else if s = "==" then "/=" else ""

theorem parsing_commutes_on_open_chain :
    kinds renamedChain = (kinds openChain).map chainRenaming.kind ∧
      (∀ spelling, .operator spelling ∈ kinds openChain →
        Fixity.lookup (chainRenaming.operator spelling) = .lookup spelling) ∧
      parseFrom .strict openChain 1 = .error (.nonAssociativeChain "<" "==" ⟨1, 17, 16⟩) ∧
      Parse.Outcomes chainRenaming (SamePlace openChain renamedChain)
        (fun a b => b = (chainRenaming.tree a.1, a.2)) (parseFrom .strict openChain 1)
        (parseFrom .strict renamedChain 1) := by
  have renamed : kinds renamedChain = (kinds openChain).map chainRenaming.kind := by rfl
  have fixities : ∀ spelling, .operator spelling ∈ kinds openChain →
      Fixity.lookup (chainRenaming.operator spelling) = .lookup spelling := by
    intro spelling member
    have known : spelling = "<?>" ∨ spelling = "<" ∨ spelling = "==" := by
      simpa [kinds, openChain] using member
    obtain rfl | rfl | rfl := known <;> rfl
  exact ⟨renamed, fixities, by rfl, (parsing_commutes_with_renaming renamed fixities .strict).1 1⟩

end InfixTree
