import InfixTree.Expr
import InfixTree.Fixity
import InfixTree.Text.Piece

/-!
What a tree spells: the kinds of the tokens of its line, in order. Beside it stand the conditions
under which a tree is a reading of what it spells. `Applied` and `Grouped` are checked at every
node, so they hold of a tree exactly when they hold of its parts and at its root.
-/
namespace InfixTree

def kinds (tokens : List Token) : List Kind := tokens.map (·.kind)

@[simp] theorem kinds_nil : kinds [] = [] := rfl

@[simp] theorem kinds_cons (t : Token) (rest : List Token) :
    kinds (t :: rest) = t.kind :: kinds rest := rfl

@[simp] theorem kinds_append (ts us : List Token) : kinds (ts ++ us) = kinds ts ++ kinds us := by
  simp [kinds]

@[simp] theorem length_kinds (ts : List Token) : (kinds ts).length = ts.length := by
  simp [kinds]

theorem kinds_eq_nil {ts : List Token} (h : kinds ts = []) : ts = [] := by
  simpa [kinds] using h

theorem kinds_eq_cons {ts : List Token} {k : Kind} {ks : List Kind} (h : kinds ts = k :: ks) :
    ∃ t us, ts = t :: us ∧ t.kind = k ∧ kinds us = ks := by
  cases ts with
  | nil => simp at h
  | cons t us =>
    obtain ⟨here, rest⟩ := List.cons.inj h
    exact ⟨t, us, rfl, here, rest⟩

theorem kinds_eq_append {ts : List Token} {ks ls : List Kind} (h : kinds ts = ks ++ ls) :
    ∃ us vs, ts = us ++ vs ∧ kinds us = ks ∧ kinds vs = ls := by
  obtain ⟨us, vs, split, hu, hv⟩ := List.map_eq_append_iff.mp h
  exact ⟨us, vs, split, hu, hv⟩

namespace Text

/-- A letter followed by letters, digits and underscores. -/
def isName (s : String) : Bool :=
  match s.toList with
  | [] => false
  | c :: rest => isLetter c && rest.all isWordRest

/-- Characters that operators are made of, and at least one. -/
def isRun (s : String) : Bool := !s.toList.isEmpty && s.toList.all isSymbol

theorem isSymbol_of_isRun {spelling : String} (run : isRun spelling) :
    ∀ c ∈ spelling.toList, isSymbol c := by
  rw [isRun, Bool.and_eq_true, List.all_eq_true] at run
  exact run.2

theorem ne_nil_of_isRun {spelling : String} (run : isRun spelling) : spelling.toList ≠ [] := by
  simp_all [isRun]

end Text

/-- Whether some line spells the kind. -/
def Kind.isWritable : Kind → Bool
  | operator spelling => Text.isRun spelling
  | identifier name => Text.isName name
  | opening | closing | number _ => true

namespace Expr

mutual

def spelling : Expr → List Kind
  | .number value => [.number value]
  | .identifier name => [.identifier name]
  | .application callee args => callee.spelling ++ spellings args
  | .parenthesized inner => .opening :: (inner.spelling ++ [.closing])
  | .binary left operator right => left.spelling ++ .operator operator :: right.spelling

def spellings : List Expr → List Kind
  | [] => []
  | a :: rest => a.spelling ++ spellings rest

end

mutual

/-- The tree and all trees in it, each behind those it is made of. -/
def nodes : Expr → List Expr
  | .number value => [.number value]
  | .identifier name => [.identifier name]
  | .application callee args => callee.nodes ++ nodesAll args ++ [.application callee args]
  | .parenthesized inner => inner.nodes ++ [.parenthesized inner]
  | .binary left operator right => left.nodes ++ right.nodes ++ [.binary left operator right]

def nodesAll : List Expr → List Expr
  | [] => []
  | a :: rest => a.nodes ++ nodesAll rest

end

theorem spellings_eq_flatMap (args : List Expr) : spellings args = args.flatMap spelling := by
  induction args with
  | nil => rfl
  | cons a rest ih => simp [spellings, ih]

theorem nodesAll_eq_flatMap (args : List Expr) : nodesAll args = args.flatMap nodes := by
  induction args with
  | nil => rfl
  | cons a rest ih => simp [nodesAll, ih]

theorem spelling_ne_nil (e : Expr) : e.spelling ≠ [] := by
  induction e with
  | application callee args ih _ => simp [spelling, ih]
  | _ => simp [spelling]

/-- What may stand behind an identifier as its argument. -/
def isAtom : Expr → Bool
  | .number _ | .identifier _ | .parenthesized _ => true
  | .application .. | .binary .. => false

/-- The operator of a tree that is one with its two operands, without parentheses around it. -/
def operator? : Expr → Option String
  | .binary _ operator _ => some operator
  | _ => none

/-- At an application: an identifier is applied, to atoms, and at least to one. -/
def appliedHere : Expr → Bool
  | .application (.identifier _) args => !args.isEmpty && args.all isAtom
  | .application .. => false
  | _ => true

/-- At an operator: what its left operand ends in goes before it, and it waits for what its right
operand begins with. -/
def groupedHere : Expr → Bool
  | .binary left operator right =>
    (left.operator?.all fun l => (Fixity.lookup l).reducesBefore (.lookup operator)) &&
      right.operator?.all fun r => !(Fixity.lookup operator).reducesBefore (.lookup r)
  | _ => true

def EveryNode (holds : Expr → Bool) (e : Expr) : Prop := ∀ n ∈ e.nodes, holds n

instance (holds : Expr → Bool) (e : Expr) : Decidable (EveryNode holds e) :=
  inferInstanceAs (Decidable (∀ n ∈ e.nodes, holds n))

def Applied (e : Expr) : Prop := e.EveryNode appliedHere

instance (e : Expr) : Decidable e.Applied := inferInstanceAs (Decidable (e.EveryNode appliedHere))

def Grouped (e : Expr) : Prop := e.EveryNode groupedHere

instance (e : Expr) : Decidable e.Grouped := inferInstanceAs (Decidable (e.EveryNode groupedHere))

/-- The tree is made of the tokens of the line, in their order, and groups as fixities say. -/
structure Reads (e : Expr) (line : List Kind) : Prop where
  spelled : e.spelling = line
  applied : e.Applied
  grouped : e.Grouped

/-- Whether some line spells every identifier and every operator of the tree. -/
def Writable (e : Expr) : Prop := ∀ k ∈ e.spelling, k.isWritable

instance (e : Expr) : Decidable e.Writable :=
  inferInstanceAs (Decidable (∀ k ∈ e.spelling, k.isWritable))

section EveryNode

variable {holds : Expr → Bool}

theorem everyNode_number {v : UInt64} : EveryNode holds (.number v) ↔ holds (.number v) :=
  List.forall_mem_singleton

theorem everyNode_identifier {n : String} :
    EveryNode holds (.identifier n) ↔ holds (.identifier n) :=
  List.forall_mem_singleton

theorem everyNode_application {f : Expr} {args : List Expr} :
    EveryNode holds (.application f args) ↔
      f.EveryNode holds ∧ (∀ a ∈ args, a.EveryNode holds) ∧ holds (.application f args) := by
  simp only [EveryNode, nodes, nodesAll_eq_flatMap, List.mem_append, List.mem_flatMap,
    List.mem_singleton]
  constructor
  · intro every
    exact ⟨fun n hn => every n (by simp [hn]),
      fun a ha n hn => every n (Or.inl (Or.inr ⟨a, ha, hn⟩)), every _ (Or.inr rfl)⟩
  · rintro ⟨callee, all, here⟩ n ((hn | ⟨a, ha, hn⟩) | rfl)
    · exact callee n hn
    · exact all a ha n hn
    · exact here

theorem everyNode_parenthesized {e : Expr} :
    EveryNode holds (.parenthesized e) ↔ e.EveryNode holds ∧ holds (.parenthesized e) :=
  List.forall_mem_append.trans (and_congr .rfl List.forall_mem_singleton)

theorem everyNode_binary {l r : Expr} {o : String} :
    EveryNode holds (.binary l o r) ↔
      l.EveryNode holds ∧ r.EveryNode holds ∧ holds (.binary l o r) :=
  List.forall_mem_append.trans
    ((and_congr List.forall_mem_append List.forall_mem_singleton).trans and_assoc)

end EveryNode

@[simp] theorem applied_number {v : UInt64} : (Expr.number v).Applied :=
  everyNode_number.mpr rfl

@[simp] theorem applied_identifier {n : String} : (Expr.identifier n).Applied :=
  everyNode_identifier.mpr rfl

@[simp] theorem applied_application {f : Expr} {args : List Expr} :
    (Expr.application f args).Applied ↔
      (∃ n, f = .identifier n) ∧ args ≠ [] ∧ ∀ a ∈ args, a.isAtom ∧ a.Applied := by
  rw [Applied, everyNode_application]
  cases f with
  | identifier n =>
    have leaf : (Expr.identifier n).EveryNode appliedHere := applied_identifier
    have here : appliedHere (.application (.identifier n) args) ↔
        args ≠ [] ∧ ∀ a ∈ args, a.isAtom := by simp [appliedHere]
    rw [here]
    constructor
    · rintro ⟨_, all, some, atoms⟩
      exact ⟨⟨n, rfl⟩, some, fun a ha => ⟨atoms a ha, all a ha⟩⟩
    · rintro ⟨_, some, both⟩
      exact ⟨leaf, fun a ha => (both a ha).2, some, fun a ha => (both a ha).1⟩
  | _ => simp [appliedHere]

@[simp] theorem applied_parenthesized {e : Expr} : (Expr.parenthesized e).Applied ↔ e.Applied :=
  everyNode_parenthesized.trans (and_iff_left rfl)

@[simp] theorem applied_binary {l r : Expr} {o : String} :
    (Expr.binary l o r).Applied ↔ l.Applied ∧ r.Applied :=
  everyNode_binary.trans (and_congr .rfl (and_iff_left rfl))

@[simp] theorem grouped_number {v : UInt64} : (Expr.number v).Grouped :=
  everyNode_number.mpr rfl

@[simp] theorem grouped_identifier {n : String} : (Expr.identifier n).Grouped :=
  everyNode_identifier.mpr rfl

@[simp] theorem grouped_application {f : Expr} {args : List Expr} :
    (Expr.application f args).Grouped ↔ f.Grouped ∧ ∀ a ∈ args, a.Grouped :=
  everyNode_application.trans (and_congr .rfl (and_iff_left rfl))

@[simp] theorem grouped_parenthesized {e : Expr} : (Expr.parenthesized e).Grouped ↔ e.Grouped :=
  everyNode_parenthesized.trans (and_iff_left rfl)

theorem grouped_binary {l r : Expr} {o : String} :
    (Expr.binary l o r).Grouped ↔ l.Grouped ∧ r.Grouped ∧
      (∀ p ∈ l.operator?, (Fixity.lookup p).reducesBefore (.lookup o)) ∧
        ∀ p ∈ r.operator?, (Fixity.lookup o).reducesBefore (.lookup p) = false := by
  simp [Grouped, everyNode_binary, groupedHere, Option.all_eq_true]

section Writable

@[simp] theorem writable_number {v : UInt64} : (Expr.number v).Writable :=
  List.forall_mem_singleton.mpr rfl

@[simp] theorem writable_identifier {n : String} :
    (Expr.identifier n).Writable ↔ Text.isName n :=
  List.forall_mem_singleton

@[simp] theorem writable_application {f : Expr} {args : List Expr} :
    (Expr.application f args).Writable ↔ f.Writable ∧ ∀ a ∈ args, a.Writable := by
  simp only [Writable, spelling, spellings_eq_flatMap, List.forall_mem_append, List.mem_flatMap]
  constructor
  · rintro ⟨callee, all⟩
    exact ⟨callee, fun a ha k hk => all k ⟨a, ha, hk⟩⟩
  · rintro ⟨callee, all⟩
    exact ⟨callee, fun k ⟨a, ha, hk⟩ => all a ha k hk⟩

@[simp] theorem writable_parenthesized {e : Expr} :
    (Expr.parenthesized e).Writable ↔ e.Writable := by
  have marks : Kind.opening.isWritable ∧ Kind.closing.isWritable := ⟨rfl, rfl⟩
  simp only [Writable, spelling, List.forall_mem_cons, List.forall_mem_append, marks,
    List.not_mem_nil, false_imp_iff, implies_true, true_and, and_true]

@[simp] theorem writable_binary {l r : Expr} {o : String} :
    (Expr.binary l o r).Writable ↔ l.Writable ∧ Text.isRun o ∧ r.Writable := by
  simp only [Writable, spelling, List.forall_mem_append, List.forall_mem_cons]
  rfl

end Writable

end Expr

end InfixTree
