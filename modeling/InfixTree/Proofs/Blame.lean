import InfixTree.Proofs.FirstClash
import InfixTree.Proofs.Placement

/-!
What an error with a place is about. A line that is unbalanced at some place has an operator or a
closing parenthesis there. A chain that is refused has its two operators in one group, the later one
at the place, and nothing that is written behind the line makes up for it.
-/
namespace InfixTree

open Nesting

/-- The neighbours may not stand in one chain; they are in one group of the line, and the later one
is at the place. -/
structure ChainAt (tokens : List Token) (start : Nat) (n : Expr.Neighbours) (place : Location) :
    Prop where
  behind : start ≤ n.first
  order : n.first < n.second
  group : SameGroup (kinds tokens) n.first n.second
  left : (kinds tokens)[n.first]? = some (.operator n.left)
  right : ∃ t, tokens[n.second]? = some t ∧ t.kind = .operator n.right ∧ t.location = place
  clashing : n.Clashing

/-- The errors of a reading from `start` on that have a place. -/
structure PointsOut {α : Type} (reading : List Token → Except ParseError α) (tokens : List Token)
    (start : Nat) : Prop where
  unbalanced : ∀ place, reading tokens = .error (.unbalanced (some place)) →
    ∃ i t, start ≤ i ∧ tokens[i]? = some t ∧ t.location = place ∧
      (t.kind.isOperator ∨ t.kind = .closing)
  chain : ∀ left right place, reading tokens = .error (.nonAssociativeChain left right place) →
    (∃ n : Expr.Neighbours, n.left = left ∧ n.right = right ∧ ChainAt tokens start n place) ∧
      ∀ more, reading (tokens ++ more) = .error (.nonAssociativeChain left right place)

namespace Parse

variable {mode : Mode} {tokens : List Token} {start : Nat}

theorem chainAt_of_standsAt {p : Pending} {t : Token} {spelling : String} {i j : Nat}
    (stands : StandsAt tokens start j p i) (here : tokens[j]? = some t)
    (kind : t.kind = .operator spelling) (clash : p.fixity.clashes (.lookup spelling)) :
    ChainAt tokens start ⟨p.spelling, spelling, i, j⟩ t.location := by
  obtain ⟨behind, before, ⟨u, there, earlier, -⟩, level⟩ := stands
  have left := kinds_getElem? there
  rw [earlier] at left
  exact ⟨behind, before, sameGroup_of_balanced before left (by simp) level, left,
    ⟨t, here, kind, rfl⟩, Expr.Neighbours.clashing_iff.mpr clash⟩

theorem parseFrom_points_out (mode : Mode) (tokens : List Token) (start : Nat) :
    PointsOut (fun line => parseFrom mode line start) tokens start := by
  constructor
  · intro place failed
    obtain ⟨s, passed, refuses, -⟩ := exists_refusing_state failed
    have placed := placed_of_passes passed
    cases refuses with
    | waiting member =>
      obtain ⟨i, behind, -, ⟨t, here, kind, location⟩, -⟩ := placed.sourced _ member
      exact ⟨i, t, behind, here, location, .inl (by rw [kind, Kind.isOperator])⟩
    | @closing t here kind => exact ⟨s.index, t, placed.start_le, here, rfl, .inr kind⟩
  · intro left right place failed
    obtain ⟨s, passed, refuses, lasts⟩ := exists_refusing_state failed
    cases refuses with
    | @chain p t _ member here kind clash =>
      obtain ⟨i, stands⟩ := (placed_of_passes passed).sourced p member
      have inside := (List.getElem?_eq_some_iff.mp here).1
      exact ⟨⟨_, rfl, rfl, chainAt_of_standsAt stands here kind clash⟩, lasts inside⟩

theorem parse_points_out (mode : Mode) (tokens : List Token) :
    PointsOut (parse mode) tokens 0 := by
  have level := parseFrom_points_out mode tokens 0
  constructor
  · intro place failed
    rcases parse_eq_error failed with first | ⟨i, t, here, closes, same⟩
    · exact level.unbalanced place first
    · obtain rfl := Option.some.inj (ParseError.unbalanced.inj same)
      exact ⟨i, t, Nat.zero_le i, here, rfl, .inr closes⟩
  · intro left right place failed
    rcases parse_eq_error failed with first | ⟨i, t, -, -, same⟩
    · obtain ⟨placed, lasts⟩ := level.chain left right place first
      exact ⟨placed, fun more => parse_of_error (lasts more)⟩
    · contradiction

end Parse

/-- An error with a place is about the token there, and so is a refused chain. -/
theorem located_errors_point_at_their_tokens (mode : Mode) (tokens : List Token) :
    (∀ start, PointsOut (fun line => parseFrom mode line start) tokens start) ∧
      PointsOut (parse mode) tokens 0 :=
  ⟨Parse.parseFrom_points_out mode tokens, Parse.parse_points_out mode tokens⟩

/-- `) 1 < f ( a == ( b < c ) * 2 < d`, each token in a column of its own: behind a stray parenthesis,
the argument has a chain, whose operators have a group and a tighter operator between them. -/
def chainedArgument : List Token :=
  let kinds : List Kind := [.closing, .number 1, .operator "<", .identifier "f", .opening,
    .identifier "a", .operator "==", .opening, .identifier "b", .operator "<", .identifier "c",
    .closing, .operator "*", .number 2, .operator "<", .identifier "d"]
  kinds.mapIdx fun i kind => ⟨kind, kind.text, ⟨1, i + 1, i⟩⟩

theorem chained_argument_is_pointed_out :
    let error : ParseError := .nonAssociativeChain "==" "<" ⟨1, 15, 14⟩
    parseFrom .strict chainedArgument 1 = .error error ∧
      (∃ n : Expr.Neighbours, n.left = "==" ∧ n.right = "<" ∧
        ChainAt chainedArgument 1 n ⟨1, 15, 14⟩) ∧
      ∀ more, parseFrom .strict (chainedArgument ++ more) 1 = .error error := by
  intro error
  have failed : parseFrom .strict chainedArgument 1 = .error error := by rfl
  exact ⟨failed,
    ((located_errors_point_at_their_tokens .strict chainedArgument).1 1).chain _ _ _ failed⟩

end InfixTree
