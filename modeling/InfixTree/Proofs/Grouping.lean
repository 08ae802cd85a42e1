import InfixTree.Proofs.Grammar
import InfixTree.Proofs.Precedence

/-!
Every infix line is spelled by a tree whose operators group as their fixities say. The tree grows
with the line: the next operator and its operand are attached at the right edge, above what goes
before the operator and below what waits for it.
-/
namespace InfixTree.Expr

/-- The operators of the tree that stand on its right edge, from the root down. -/
def edge : Expr → List String
  | .binary _ operator right => operator :: right.edge
  | _ => []

def attach (operator : String) (operand : Expr) : Expr → Expr
  | .binary l o r =>
    if (Fixity.lookup o).reducesBefore (.lookup operator) then
      .binary (.binary l o r) operator operand
    else .binary l o (attach operator operand r)
  | e => .binary e operator operand

theorem spelling_attach (o : String) (x e : Expr) :
    (attach o x e).spelling = e.spelling ++ .operator o :: x.spelling := by
  induction e with
  | binary l p r _ ih =>
    simp only [attach]
    split
    · simp [spelling]
    · simp [spelling, ih]
  | _ => simp [attach, spelling]

theorem applied_attach {o : String} {x e : Expr} (he : e.Applied) (hx : x.Applied) :
    (attach o x e).Applied := by
  induction e with
  | binary l p r _ ih =>
    simp only [attach]
    obtain ⟨hl, hr⟩ := applied_binary.mp he
    split
    · simp [hl, hr, hx]
    · simp [hl, ih hr]
  | _ => exact applied_binary.mpr ⟨he, hx⟩

theorem operator?_attach (o : String) (x e : Expr) :
    (attach o x e).operator? = some o ∨ (attach o x e).operator? = e.operator? := by
  cases e with
  | binary l p r =>
    simp only [attach]
    split
    · exact Or.inl rfl
    · exact Or.inr rfl
  | _ => exact Or.inl rfl

theorem grouped_attach {o : String} {x e : Expr} (he : e.Grouped) (hx : x.Grouped)
    (operand : x.operator? = none) : (attach o x e).Grouped := by
  induction e with
  | binary l p r _ ih =>
    simp only [attach]
    obtain ⟨hl, hr, left, right⟩ := grouped_binary.mp he
    split
    · rename_i before
      exact grouped_binary.mpr ⟨he, hx, by simpa [operator?] using before, by simp [operand]⟩
    · rename_i waits
      refine grouped_binary.mpr ⟨hl, ih hr, left, ?_⟩
      intro q hq
      rcases operator?_attach o x r with new | old
      · rw [new] at hq
        obtain rfl := Option.some.inj hq
        simpa using waits
      · exact right q (by rwa [old] at hq)
  | _ =>
    exact grouped_binary.mpr ⟨he, hx, by simp [operator?], by simp [operand]⟩

/-- Everything on the right edge goes before an operator that the root goes before. -/
theorem edge_reduces {e : Expr} {f : Fixity} (grouped : e.Grouped)
    (root : ∀ q ∈ e.operator?, (Fixity.lookup q).reducesBefore f) :
    ∀ q ∈ e.edge, (Fixity.lookup q).reducesBefore f := by
  induction e with
  | binary l p r _ ih =>
    obtain ⟨-, hr, -, right⟩ := grouped_binary.mp grouped
    have here : (Fixity.lookup p).reducesBefore f := root p rfl
    intro q hq
    rcases List.mem_cons.mp hq with rfl | below
    · exact here
    · exact ih hr (fun q hq => Fixity.reducesBefore_of_waits here (right q hq)) q below
  | _ => simp [edge]

theorem Reads.attach {e x : Expr} {ks xs : List Kind} (he : e.Reads ks) (o : String)
    (hx : x.Reads xs) (operand : x.operator? = none) :
    (attach o x e).Reads (ks ++ .operator o :: xs) :=
  ⟨by rw [spelling_attach, he.spelled, hx.spelled], applied_attach he.applied hx.applied,
    grouped_attach he.grouped hx.grouped operand⟩

theorem Reads.parenthesized {e : Expr} {ks : List Kind} (he : e.Reads ks) :
    (Expr.parenthesized e).Reads (.opening :: (ks ++ [.closing])) :=
  ⟨by simp [spelling, he.spelled], by simpa using he.applied, by simpa using he.grouped⟩

theorem reads_apply (callee : String) {args : List Expr}
    (atoms : ∀ a ∈ args, a.isAtom ∧ a.Reads a.spelling) :
    (apply (.identifier callee) args).Reads (.identifier callee :: spellings args) := by
  cases args with
  | nil => exact ⟨rfl, applied_identifier, grouped_identifier⟩
  | cons a rest =>
    refine ⟨rfl, applied_application.mpr ⟨⟨callee, rfl⟩, by simp, fun b hb => ?_⟩,
      grouped_application.mpr ⟨grouped_identifier, fun b hb => (atoms b hb).2.grouped⟩⟩
    exact ⟨(atoms b hb).1, (atoms b hb).2.applied⟩

theorem operator?_apply (callee : String) (args : List Expr) :
    (apply (.identifier callee) args).operator? = none := by
  cases args <;> rfl

end InfixTree.Expr

namespace InfixTree.Grammar

open InfixTree.Expr

mutual

theorem IsLevel.extend {xs : List Kind} (level : IsLevel xs) {e : Expr} {ks : List Kind}
    (he : e.Reads ks) (o : String) : ∃ u : Expr, u.Reads (ks ++ .operator o :: xs) := by
  match level with
  | .single operand =>
    obtain ⟨x, hx, plain⟩ := operand.tree
    exact ⟨attach o x e, he.attach o hx plain⟩
  | .chain operand p rest =>
    obtain ⟨x, hx, plain⟩ := operand.tree
    simpa using rest.extend (he.attach o hx plain) p

theorem IsLevel.tree {xs : List Kind} (level : IsLevel xs) : ∃ u : Expr, u.Reads xs := by
  match level with
  | .single operand =>
    obtain ⟨x, hx, _⟩ := operand.tree
    exact ⟨x, hx⟩
  | .chain operand p rest =>
    obtain ⟨x, hx, _⟩ := operand.tree
    exact rest.extend hx p

theorem IsOperand.tree {xs : List Kind} (operand : IsOperand xs) :
    ∃ x : Expr, x.Reads xs ∧ x.operator? = none := by
  match operand with
  | .number value => exact ⟨.number value, ⟨rfl, applied_number, grouped_number⟩, rfl⟩
  | .application callee args =>
    obtain ⟨as, atoms, rfl⟩ := args.trees
    exact ⟨apply (.identifier callee) as, reads_apply callee atoms, operator?_apply callee as⟩
  | .group inner =>
    obtain ⟨u, hu⟩ := inner.tree
    exact ⟨.parenthesized u, hu.parenthesized, rfl⟩

theorem IsAtoms.trees {xs : List Kind} (atoms : IsAtoms xs) :
    ∃ as : List Expr, (∀ a ∈ as, a.isAtom ∧ a.Reads a.spelling) ∧ spellings as = xs := by
  match atoms with
  | .nil => exact ⟨[], by simp, rfl⟩
  | .cons atom rest =>
    obtain ⟨a, atomic, ha⟩ := atom.tree
    obtain ⟨as, all, rfl⟩ := rest.trees
    refine ⟨a :: as, ?_, by rw [spellings, ha.spelled]⟩
    intro b hb
    rcases List.mem_cons.mp hb with rfl | later
    · exact ⟨atomic, rfl, ha.applied, ha.grouped⟩
    · exact all b later

theorem IsAtom.tree {xs : List Kind} (atom : IsAtom xs) :
    ∃ a : Expr, a.isAtom ∧ a.Reads xs := by
  match atom with
  | .identifier name =>
    exact ⟨.identifier name, rfl, ⟨rfl, applied_identifier, grouped_identifier⟩⟩
  | .number value => exact ⟨.number value, rfl, ⟨rfl, applied_number, grouped_number⟩⟩
  | .group inner =>
    obtain ⟨u, hu⟩ := inner.tree
    exact ⟨.parenthesized u, rfl, hu.parenthesized⟩

end

end InfixTree.Grammar
