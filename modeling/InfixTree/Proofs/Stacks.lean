import InfixTree.Proofs.Chains
import InfixTree.Proofs.Levels

/-!
How the two stacks of a level hold a tree before it is complete. The operators on its right edge
still wait, each on top of its left operand; an operator that goes after all of them finds the
tree in one piece, because their reductions build it from the top of the stacks down.
-/
namespace InfixTree.Parse

/-- The stacks in the last two places are those in the first two with the tree on top. -/
inductive Holds : Expr → List Pending → List Expr → List Pending → List Expr → Prop where
  | operand {e : Expr} {operators : List Pending} {output : List Expr}
      (plain : e.operator? = none) : Holds e operators output operators (e :: output)
  | binary {l r : Expr} {p : Pending} {operators operators' : List Pending}
      {output output' : List Expr}
      (right : Holds r (p :: operators) (l :: output) operators' output') :
      Holds (.binary l p.spelling r) operators output operators' output'

section ReduceBefore

variable {mode : Mode} {p top : Pending} {below : List Pending} {output : List Expr}

theorem reduceBefore_nil : (reduceBefore mode p [] output).outcome = .ok ([], output) := rfl

theorem reduceBefore_of_waits (waits : top.fixity.reducesBefore p.fixity = false)
    (apart : mode = .strict → top.fixity.clashes p.fixity = false) :
    (reduceBefore mode p (top :: below) output).outcome = .ok (top :: below, output) := by
  have calm : ¬ (mode = .strict ∧ top.fixity.clashes p.fixity) := by
    rintro ⟨strict, clash⟩
    simp [apart strict] at clash
  simp [reduceBefore, calm, waits]

theorem reduceBefore_of_reduces {l r : Expr} (reduces : top.fixity.reducesBefore p.fixity)
    (apart : mode = .strict → top.fixity.clashes p.fixity = false) :
    (reduceBefore mode p (top :: below) (r :: l :: output)).outcome =
      (reduceBefore mode p below (.binary l top.spelling r :: output)).outcome := by
  have calm : ¬ (mode = .strict ∧ top.fixity.clashes p.fixity) := by
    rintro ⟨strict, clash⟩
    simp [apart strict] at clash
  simp [reduceBefore, calm, reduces, Except.bind]

theorem reduceBefore_of_clash (clash : top.fixity.clashes p.fixity) :
    (reduceBefore .strict p (top :: below) output).outcome =
      .error (.nonAssociativeChain top.spelling p.spelling p.location) := by
  simp [reduceBefore, clash]

end ReduceBefore

theorem reduceBefore_of_holds {mode : Mode} {p : Pending} {e : Expr}
    {operators operators' : List Pending} {output output' : List Expr}
    (holds : Holds e operators output operators' output')
    (reduces : ∀ q ∈ e.edge, (Fixity.lookup q).reducesBefore p.fixity)
    (apart : mode = .strict → ∀ q ∈ e.edge, (Fixity.lookup q).clashes p.fixity = false) :
    (reduceBefore mode p operators' output').outcome =
      (reduceBefore mode p operators (e :: output)).outcome := by
  induction holds with
  | operand => rfl
  | @binary l r q operators operators' output output' right ih =>
    rw [ih (fun k hk => reduces k (by simp [Expr.edge, hk]))
      (fun strict k hk => apart strict k (by simp [Expr.edge, hk]))]
    exact reduceBefore_of_reduces (reduces q.spelling (by simp [Expr.edge]))
      (fun strict => apart strict q.spelling (by simp [Expr.edge]))

theorem reduceAll_of_holds {e : Expr} {operators operators' : List Pending}
    {output output' : List Expr} (holds : Holds e operators output operators' output') :
    (reduceAll operators' output').outcome = (reduceAll operators (e :: output)).outcome := by
  induction holds with
  | operand => rfl
  | binary _ ih => rw [ih, reduceAll_cons_outcome, reduce_outcome, Except.bind]

theorem yields_of_holds {l : Level} {e : Expr}
    (holds : Holds e [] [] l.operators l.closed.output) : l.Yields e := by
  rw [Level.Yields, reduceAll_of_holds holds]
  rfl

end InfixTree.Parse
