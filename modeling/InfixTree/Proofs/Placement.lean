import InfixTree.Proofs.Matching
import InfixTree.Proofs.Passage
import InfixTree.Proofs.Reductions

/-!
Where in the line a reading has found what it holds. Every operator that waits in a level was read
from a token of that level, and no parenthesis has been left open since; every level that waits around
others ends at the opening parenthesis that the next one stands behind. So the levels that a state
has are the groups around the token that it comes to.
-/
namespace InfixTree

namespace Nesting

/-! ### Stretches of a line -/

theorem extract_append {α : Type} (whole : List α) {a b c : Nat} (first : a ≤ b) (second : b ≤ c) :
    whole.extract a b ++ whole.extract b c = whole.extract a c := by
  have length : c - a = (b - a) + (c - b) := by omega
  have place : a + (b - a) = b := by omega
  rw [List.extract, List.extract, List.extract, length, List.take_add, List.drop_drop, place]

theorem extract_of_here {α : Type} {whole : List α} {n : Nat} {a : α} (here : whole[n]? = some a) :
    whole.extract n (n + 1) = [a] := by
  obtain ⟨inside, rfl⟩ := List.getElem?_eq_some_iff.mp here
  rw [List.extract, List.drop_eq_getElem_cons inside, Nat.add_sub_cancel_left, List.take_succ_cons,
    List.take_zero]

theorem extract_self {α : Type} (whole : List α) (n : Nat) : whole.extract n n = [] := by
  simp [List.extract]

/-- From a token to a later one, with the first of them split off. -/
theorem extract_cons {α : Type} {whole : List α} {n m : Nat} {a : α} (here : whole[n]? = some a)
    (before : n < m) : whole.extract n m = a :: whole.extract (n + 1) m := by
  rw [← extract_append whole (Nat.le_succ n) before, extract_of_here here, List.singleton_append]

theorem Balanced.append {xs ys : List Kind} (first : Balanced xs) (second : Balanced ys) :
    Balanced (xs ++ ys) := by
  induction first with
  | nil => exact second
  | plain solid _ ih => exact .plain solid ih
  | group inside _ _ ih =>
    rw [List.cons_append, List.append_assoc]
    exact .group inside ih

/-- Where as many groups have ended as have begun, none is left for a closing parenthesis. -/
theorem not_balanced_before_closing {before after : List Kind}
    (few : before.count .opening ≤ before.count .closing) :
    ¬ Balanced (before ++ .closing :: after) := by
  intro balanced
  have front := balanced.count_take_le (before.length + 1)
  simp only [List.take_append, List.take_of_length_le, Nat.le_succ, Nat.add_sub_cancel_left,
    List.take_succ_cons, List.take_zero, List.count_append, List.count_cons, List.count_nil,
    beq_self_eq_true, reduceCtorEq, beq_iff_eq, if_true, if_false] at front
  omega

/-- A balanced stretch taken off the end of one leaves a balanced one. -/
theorem Balanced.of_append {xs ys : List Kind} (both : Balanced (xs ++ ys))
    (second : Balanced ys) : Balanced xs := by
  generalize same : xs ++ ys = whole at both
  induction both generalizing xs with
  | nil =>
    obtain ⟨rfl, -⟩ := List.append_eq_nil_iff.mp same
    exact .nil
  | plain solid _ ih =>
    rcases List.append_eq_cons_iff.mp same with ⟨rfl, -⟩ | ⟨front, rfl, rest⟩
    · exact .nil
    · exact .plain solid (ih rest.symm)
  | @group zs ks inside _ _ ih =>
    rcases List.append_eq_cons_iff.mp same with ⟨rfl, -⟩ | ⟨front, rfl, rest⟩
    · exact .nil
    · rcases List.append_eq_append_iff.mp rest with ⟨middle, rfl, tail⟩ | ⟨middle, rfl, tail⟩
      · rcases List.cons_eq_append_iff.mp tail with ⟨rfl, begins⟩ | ⟨behind, rfl, rfl⟩
        · -- The stretch that is taken off would begin with the closing parenthesis.
          have begun : Balanced ([] ++ .closing :: ks) := by rwa [begins] at second
          exact absurd begun (not_balanced_before_closing (Nat.le_refl 0))
        · exact .group inside (ih rfl)
      · -- It would begin inside the group, and reach over its end.
        have total := inside.count_eq
        have front := inside.count_take_le front.length
        rw [List.count_append, List.count_append] at total
        rw [List.take_left] at front
        rw [tail] at second
        exact absurd second (not_balanced_before_closing (by omega))

theorem balanced_of_plain {whole : List Kind} {n : Nat} {k : Kind} (here : whole[n]? = some k)
    (solid : k ≠ .opening ∧ k ≠ .closing) : Balanced (whole.extract n (n + 1)) := by
  rw [extract_of_here here]
  exact .plain solid .nil

theorem balanced_of_group {whole : List Kind} {o n : Nat} (opens : whole[o]? = some .opening)
    (closes : whole[n]? = some .closing) (before : o < n)
    (inside : Balanced (whole.extract (o + 1) n)) : Balanced (whole.extract o (n + 1)) := by
  rw [extract_cons opens (Nat.lt_succ_of_lt before),
    ← extract_append whole before (Nat.le_succ n), extract_of_here closes]
  exact .group inside .nil

theorem matched_of_extract {whole : List Kind} {a b n : Nat} (balanced : Balanced (whole.extract a b))
    (above : a ≤ n) (below : n < b) (closes : whole[n]? = some .closing) :
    ∃ i, a ≤ i ∧ Matched whole i n := by
  have bound := (List.getElem?_eq_some_iff.mp closes).1
  have split : whole.drop a = whole.extract a b ++ (whole.drop a).drop (b - a) :=
    (List.take_append_drop _ _).symm
  refine matched_within balanced split above ?_ closes
  simp only [List.extract, List.length_take, List.length_drop]
  omega

/-! ### The group of a token -/

/-- The parenthesis at `o` is the last that is open in front of `n`. -/
structure Innermost (whole : List Kind) (o n : Nat) : Prop where
  opens : whole[o]? = some .opening
  before : o < n
  inside : Balanced (whole.extract (o + 1) n)

/-- The innermost group around the two places is the same one, or there is none around either, and
no group ends or begins between them without the other. -/
structure SameGroup (whole : List Kind) (i j : Nat) : Prop where
  between : Balanced (whole.extract (i + 1) j)
  innermost : ∀ o, Innermost whole o i ↔ Innermost whole o j

theorem sameGroup_of_balanced {whole : List Kind} {i j : Nat} {k : Kind} (before : i < j)
    (here : whole[i]? = some k) (solid : k ≠ .opening ∧ k ≠ .closing)
    (between : Balanced (whole.extract (i + 1) j)) : SameGroup whole i j := by
  have stretch : Balanced (whole.extract i j) := by
    rw [extract_cons here before]
    exact .plain solid between
  refine ⟨between, fun o => ⟨?_, ?_⟩⟩
  · rintro ⟨opens, above, inside⟩
    refine ⟨opens, by omega, ?_⟩
    rw [← extract_append whole above (Nat.le_of_lt before)]
    exact inside.append stretch
  · rintro ⟨opens, above, inside⟩
    rcases Nat.lt_trichotomy o i with outside | same | within
    · refine ⟨opens, outside, ?_⟩
      rw [← extract_append whole outside (Nat.le_of_lt before)] at inside
      exact inside.of_append stretch
    · rw [same, here] at opens
      exact absurd (Option.some.inj opens) solid.1
    · rw [← extract_append whole within (Nat.le_of_lt above), extract_cons opens above] at between
      exact absurd inside (not_balanced_behind_opening between)

end Nesting

open Nesting

namespace Parse

/-- The operator was read from the token `i`, in the group that the token `n` is in front of. -/
structure StandsAt (tokens : List Token) (start n : Nat) (p : Pending) (i : Nat) : Prop where
  behind : start ≤ i
  before : i < n
  token : ∃ t, tokens[i]? = some t ∧ t.kind = .operator p.spelling ∧ t.location = p.location
  level : Balanced ((kinds tokens).extract (i + 1) n)

/-- Each operator of the level was read from a token of its group. -/
def Sourced (tokens : List Token) (start n : Nat) (l : Level) : Prop :=
  ∀ p ∈ l.operators, ∃ i, StandsAt tokens start n p i

/-- In front of the token `n` the line has these levels open, the innermost first. -/
inductive Placed (tokens : List Token) (start : Nat) : Nat → List Level → Prop where
  | outermost {n : Nat} {l : Level} (behind : start ≤ n)
      (level : Balanced ((kinds tokens).extract start n)) (sourced : Sourced tokens start n l) :
      Placed tokens start n [l]
  | inner {o n : Nat} {l : Level} {around : List Level}
      (outer : Placed tokens start o around) (opens : (kinds tokens)[o]? = some .opening)
      (before : o < n) (level : Balanced ((kinds tokens).extract (o + 1) n))
      (sourced : Sourced tokens start n l) : Placed tokens start n (l :: around)

section Placed

variable {tokens : List Token} {start n m : Nat} {l k : Level} {around : List Level}

theorem kinds_getElem? {t : Token} (here : tokens[n]? = some t) :
    (kinds tokens)[n]? = some t.kind := by
  rw [kinds, List.getElem?_map, here, Option.map_some]

theorem StandsAt.extend {p : Pending} {i : Nat} (stands : StandsAt tokens start n p i)
    (further : n ≤ m) (stretch : Balanced ((kinds tokens).extract n m)) :
    StandsAt tokens start m p i := by
  obtain ⟨behind, before, token, level⟩ := stands
  refine ⟨behind, by omega, token, ?_⟩
  rw [← extract_append _ before further]
  exact level.append stretch

theorem Sourced.extend (sourced : Sourced tokens start n l) (further : n ≤ m)
    (stretch : Balanced ((kinds tokens).extract n m)) : Sourced tokens start m l := by
  intro p member
  obtain ⟨i, stands⟩ := sourced p member
  exact ⟨i, stands.extend further stretch⟩

theorem Placed.start_le (placed : Placed tokens start n around) : start ≤ n := by
  induction placed with
  | outermost behind _ _ => exact behind
  | inner _ _ before _ _ ih => omega

theorem Placed.sourced (placed : Placed tokens start n (l :: around)) :
    Sourced tokens start n l := by
  cases placed with
  | outermost _ _ sourced => exact sourced
  | inner _ _ _ _ sourced => exact sourced

/-- A balanced stretch of tokens leads to the same levels, but for what the current one holds. -/
theorem Placed.extend (placed : Placed tokens start n (l :: around)) (further : n ≤ m)
    (stretch : Balanced ((kinds tokens).extract n m)) (sourced : Sourced tokens start m k) :
    Placed tokens start m (k :: around) := by
  cases placed with
  | outermost behind level _ =>
    refine .outermost (by omega) ?_ sourced
    rw [← extract_append _ behind further]
    exact level.append stretch
  | inner outer opens before level _ =>
    refine .inner outer opens (by omega) ?_ sourced
    rw [← extract_append _ before further]
    exact level.append stretch

/-- A token that is no parenthesis leaves the levels as they are but for the current one. -/
theorem Placed.step {t : Token} (placed : Placed tokens start n (l :: around))
    (here : tokens[n]? = some t) (solid : t.kind ≠ .opening ∧ t.kind ≠ .closing)
    (sourced : ∀ p ∈ k.operators, (⟨p.spelling, p.location⟩ : Pending) ∈ l.operators ∨
      t.kind = .operator p.spelling ∧ t.location = p.location) :
    Placed tokens start (n + 1) (k :: around) := by
  have stretch := balanced_of_plain (kinds_getElem? here) solid
  refine placed.extend (Nat.le_succ n) stretch fun p member => ?_
  rcases sourced p member with old | ⟨kind, location⟩
  · obtain ⟨i, stands⟩ := placed.sourced p old
    exact ⟨i, stands.extend (Nat.le_succ n) stretch⟩
  · refine ⟨n, placed.start_le, Nat.lt_succ_self n, ⟨t, here, kind, location⟩, ?_⟩
    rw [extract_self]
    exact .nil

end Placed

variable {mode : Mode} {tokens : List Token} {start : Nat}

theorem placed_of_passes {s : State} (passed : Passes mode tokens start s) :
    Placed tokens start s.index (s.level :: s.around) := by
  induction passed with
  | start =>
    refine .outermost (Nat.le_refl start) ?_ (by simp [Sourced, State.start, Level.empty])
    rw [State.start, extract_self]
    exact .nil
  | @step s next t _ here moved ih =>
    cases transition_of_step moved with
    | number kind =>
      refine ih.step here (by simp [kind]) fun p member => .inl ?_
      simpa [State.advance] using member
    | identifier kind =>
      refine ih.step here (by simp [kind]) fun p member => .inl ?_
      simpa [State.advance] using member
    | operator kind pushed =>
      refine ih.step here (by simp [kind]) fun p member => ?_
      rcases Level.mem_operators_of_operator pushed p member with rfl | old
      · exact .inr ⟨kind, rfl⟩
      · exact .inl old
    | opening kind =>
      have opens := kinds_getElem? here
      rw [kind] at opens
      refine .inner ih opens (Nat.lt_succ_self _) ?_ (by simp [Sourced, Level.empty])
      rw [extract_self]
      exact .nil
    | closing kind yields waiting =>
      have closes := kinds_getElem? here
      rw [kind] at closes
      rw [waiting] at ih
      cases ih with
      | inner outer opens before level _ =>
        have group := balanced_of_group opens closes before level
        have further := Nat.le_succ_of_le (Nat.le_of_lt before)
        refine outer.extend further group ?_
        intro p member
        exact outer.sourced.extend further group p (by simpa using member)

/-- Among the tokens that have been read, every closing parenthesis has its opening one. -/
theorem Placed.matched {n : Nat} {around : List Level} (placed : Placed tokens start n around)
    {j : Nat} (behind : start ≤ j) (before : j < n)
    (closes : (kinds tokens)[j]? = some .closing) : ∃ i, start ≤ i ∧ Matched (kinds tokens) i j := by
  induction placed with
  | outermost _ level _ => exact matched_of_extract level behind before closes
  | @inner o n l around outer opens _ level _ ih =>
    rcases Nat.lt_trichotomy j o with outside | same | within
    · exact ih outside
    · rw [same, opens] at closes
      contradiction
    · obtain ⟨i, above, matched⟩ := matched_of_extract level within before closes
      have := outer.start_le
      exact ⟨i, by omega, matched⟩

/-- The parenthesis that a level around the current one ends at has nothing to close it yet. -/
theorem Placed.unclosed {n : Nat} {l below : Level} {around : List Level}
    (placed : Placed tokens start n (l :: below :: around)) :
    ∃ o, start ≤ o ∧ (kinds tokens)[o]? = some .opening ∧
      ∀ j, j < n → ¬ Matched (kinds tokens) o j := by
  cases placed with
  | @inner o _ _ _ outer opens before level _ =>
    refine ⟨o, outer.start_le, opens, fun j within matched => ?_⟩
    have rest : o + 1 ≤ j := matched.before
    rw [← extract_append _ rest (Nat.le_of_lt within), extract_cons matched.closes within] at level
    exact not_balanced_before_closing (Nat.le_of_eq matched.inside.count_eq) level

end Parse

end InfixTree
