import InfixTree.Fixity

/-!
What follows from the comparisons of fixities alone, whatever the table holds. `reducesBefore`
orders operators as a strict weak order would: both it and its negation are transitive.
-/
namespace InfixTree.Fixity

theorem reducesBefore_iff {f g : Fixity} :
    f.reducesBefore g ↔
      g.precedence < f.precedence ∨ (g.associativity = .left ∧ f.precedence = g.precedence) := by
  simp [reducesBefore]

theorem reducesBefore_eq_false_iff {f g : Fixity} :
    f.reducesBefore g = false ↔
      f.precedence ≤ g.precedence ∧ (g.associativity = .left → f.precedence ≠ g.precedence) := by
  simp [reducesBefore]

theorem clashes_eq_false_iff {f g : Fixity} :
    f.clashes g = false ↔
      (f.precedence = g.precedence → f.associativity ≠ .nonAssoc ∧ g.associativity ≠ .nonAssoc) := by
  simp [clashes]

theorem reducesBefore_trans {f g h : Fixity} (first : f.reducesBefore g)
    (second : g.reducesBefore h) : f.reducesBefore h := by
  rw [reducesBefore_iff] at *
  rcases first with higher | ⟨_, same⟩ <;> rcases second with lower | ⟨left, level⟩
  · exact Or.inl (by omega)
  · exact Or.inl (by omega)
  · exact Or.inl (by omega)
  · exact Or.inr ⟨left, by omega⟩

theorem not_reducesBefore_trans {f g h : Fixity} (first : f.reducesBefore g = false)
    (second : g.reducesBefore h = false) : f.reducesBefore h = false := by
  rw [reducesBefore_eq_false_iff] at *
  refine ⟨by omega, fun left same => ?_⟩
  have := second.2 left
  omega

/-- An operator that waits on one which goes before the incoming one goes before it as well. -/
theorem reducesBefore_of_waits {f g h : Fixity} (reduces : f.reducesBefore h)
    (waits : f.reducesBefore g = false) : g.reducesBefore h := by
  cases back : g.reducesBefore h with
  | true => rfl
  | false => rw [not_reducesBefore_trans waits back] at reduces; contradiction

/-- An operator waits for all that go before one it waits for. -/
theorem waits_of_reducesBefore {f g h : Fixity} (reduces : g.reducesBefore h)
    (waits : f.reducesBefore h = false) : f.reducesBefore g = false := by
  cases first : f.reducesBefore g with
  | true => rw [reducesBefore_trans first reduces] at waits; contradiction
  | false => rfl

/-- Of the operators that the incoming one makes reduce, only the lowest can clash with it: one
above it that did would clash with the one below already. -/
theorem not_clashes_of_waits {f g h : Fixity} (reduces : f.reducesBefore h)
    (waits : f.reducesBefore g = false) (apart : f.clashes g = false) : g.clashes h = false := by
  rw [reducesBefore_iff] at reduces
  rw [reducesBefore_eq_false_iff] at waits
  rw [clashes_eq_false_iff] at apart ⊢
  intro same
  have left : h.associativity = .left := by
    rcases reduces with higher | ⟨left, _⟩
    · omega
    · exact left
  exact ⟨(apart (by omega)).2, by simp [left]⟩

/-- An operator does not clash with the left operand of one that it waits for. -/
theorem not_clashes_of_reducesBefore {f g h : Fixity} (reduces : g.reducesBefore h)
    (waits : f.reducesBefore h = false) : f.clashes g = false := by
  rw [reducesBefore_iff] at reduces
  rw [reducesBefore_eq_false_iff] at waits
  rw [clashes_eq_false_iff]
  intro same
  rcases reduces with higher | ⟨left, level⟩
  · omega
  · have := waits.2 left
    omega

/-- Among operators that wait for one another, neighbours that do not clash keep all apart. -/
theorem not_clashes_trans {f g h : Fixity} (first : f.reducesBefore g = false)
    (second : g.reducesBefore h = false) (apart : f.clashes g = false)
    (next : g.clashes h = false) : f.clashes h = false := by
  rw [reducesBefore_eq_false_iff] at first second
  rw [clashes_eq_false_iff] at apart next ⊢
  intro same
  exact ⟨(apart (by omega)).1, (next (by omega)).2⟩

end InfixTree.Fixity
