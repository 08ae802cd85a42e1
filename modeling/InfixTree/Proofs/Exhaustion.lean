import InfixTree.Proofs.Descent
import InfixTree.Proofs.Placement

/-!
What an error without a place means. The line has ended too early: the reading has come to its end,
no closing parenthesis on the way was without its opening one, and where a closing one is missing
there is an opening one that nothing closes. Errors that would say which token stands where a
parenthesis should close a group do not come up.
-/
namespace InfixTree

open Nesting

/-- The errors of a reading from `start` on that have no place. -/
structure EndsEarly {α : Type} (mode : Mode) (tokens : List Token) (start : Nat)
    (outcome : Except ParseError α) : Prop where
  unplaced : ∀ found place, outcome = .error (.expectedClosing found place) →
    found = none ∧ place = none
  unclosed : outcome = .error (.expectedClosing none none) →
    ∃ i, start ≤ i ∧ (kinds tokens)[i]? = some .opening ∧ ∀ j, ¬ Matched (kinds tokens) i j
  exhausted : ∀ error, outcome = .error error →
    error = .expectedClosing none none ∨ error = .unbalanced none →
      (∀ n, ¬ Stray (kinds tokens) start n) ∧
        ∃ s, Parse.Passes mode tokens start s ∧ tokens.length ≤ s.index

namespace Parse

variable {mode : Mode} {tokens : List Token} {start : Nat}

theorem Refuses.past {s : State} {error : ParseError} (refuses : Refuses tokens s error)
    (unplaced : error = .expectedClosing none none ∨ error = .unbalanced none) :
    tokens.length ≤ s.index := by
  cases refuses with
  | waiting member => simp at unplaced
  | chain member here kind clash => simp at unplaced
  | closing here kind => simp at unplaced
  | short past => exact past
  | unclosed past waiting => exact past

theorem not_stray_of_placed {n : Nat} {levels : List Level}
    (placed : Placed tokens start n levels) (past : tokens.length ≤ n) (j : Nat) :
    ¬ Stray (kinds tokens) start j := by
  intro stray
  have inside := (List.getElem?_eq_some_iff.mp stray.closes).1
  rw [length_kinds] at inside
  obtain ⟨i, behind, matched⟩ := placed.matched stray.behind (by omega) stray.closes
  exact stray.unmatched i behind matched

theorem unclosed_of_placed {n : Nat} {l below : Level} {around : List Level}
    (placed : Placed tokens start n (l :: below :: around)) (past : tokens.length ≤ n) :
    ∃ i, start ≤ i ∧ (kinds tokens)[i]? = some .opening ∧ ∀ j, ¬ Matched (kinds tokens) i j := by
  obtain ⟨i, behind, opens, unmatched⟩ := placed.unclosed
  refine ⟨i, behind, opens, fun j matched => ?_⟩
  have inside := (List.getElem?_eq_some_iff.mp matched.closes).1
  rw [length_kinds] at inside
  exact unmatched j (by omega) matched

theorem parseFrom_endsEarly (mode : Mode) (tokens : List Token) (start : Nat) :
    EndsEarly mode tokens start (parseFrom mode tokens start) := by
  constructor
  · intro found place failed
    obtain ⟨s, -, refuses, -⟩ := exists_refusing_state failed
    cases refuses with
    | unclosed past waiting => exact ⟨rfl, rfl⟩
  · intro failed
    obtain ⟨s, passed, refuses, -⟩ := exists_refusing_state failed
    have placed := placed_of_passes passed
    cases refuses with
    | unclosed past waiting =>
      rw [waiting] at placed
      exact unclosed_of_placed placed past
  · intro error failed unplaced
    obtain ⟨s, passed, refuses, -⟩ := exists_refusing_state failed
    have past := refuses.past unplaced
    exact ⟨not_stray_of_placed (placed_of_passes passed) past, s, passed, past⟩

theorem parse_endsEarly (mode : Mode) (tokens : List Token) :
    EndsEarly mode tokens 0 (parse mode tokens) := by
  have level := parseFrom_endsEarly mode tokens 0
  -- The error for a token behind the first level has the place of that token.
  have first : ∀ {error}, parse mode tokens = .error error → (∀ t, error ≠ .unbalanced (some t)) →
      parseFrom mode tokens 0 = .error error := by
    intro error failed unplaced
    rcases parse_eq_error failed with first | ⟨i, t, -, -, same⟩
    · exact first
    · exact absurd same (unplaced t.location)
  constructor
  · intro found place failed
    exact level.unplaced found place (first failed (by simp))
  · intro failed
    exact level.unclosed (first failed (by simp))
  · intro error failed unplaced
    refine level.exhausted error (first failed fun t same => ?_) unplaced
    simp [same] at unplaced

end Parse

/-- Errors without a place mean that the line has ended too early. The descent makes the same
records and has the same outcome whatever its branches do in which a group ends at another token than
a closing parenthesis, or a reduction finds no operator: it does not come to them. -/
theorem unplaced_errors_mean_end_of_line (mode : Mode) (tokens : List Token) :
    (∀ start, EndsEarly mode tokens start (parseFrom mode tokens start)) ∧
      EndsEarly mode tokens 0 (parse mode tokens) ∧
      ∀ guards start,
        Parse.Descent.runFrom guards mode tokens start = Parse.runFrom mode tokens start :=
  ⟨Parse.parseFrom_endsEarly mode tokens, Parse.parse_endsEarly mode tokens,
    fun guards start => Parse.Descent.runFrom_eq guards mode tokens start⟩

/-- `) 1 * ( 2 ) + ( f ( 3 )`: behind a stray parenthesis, the last group is not closed. -/
def openGroup : List Token :=
  let token (kind : Kind) : Token := ⟨kind, "", .start⟩
  [.closing, .number 1, .operator "*", .opening, .number 2, .closing, .operator "+", .opening,
    .identifier "f", .opening, .number 3, .closing].map token

theorem open_group_ends_early :
    parseFrom .strict openGroup 1 = .error (.expectedClosing none none) ∧
      (∃ i, 1 ≤ i ∧ (kinds openGroup)[i]? = some .opening ∧ ∀ j, ¬ Matched (kinds openGroup) i j) ∧
      (∀ n, ¬ Stray (kinds openGroup) 1 n) ∧
      Parse.Descent.runFrom .usual .strict openGroup 1 = Parse.runFrom .strict openGroup 1 := by
  have failed : parseFrom .strict openGroup 1 = .error (.expectedClosing none none) := by rfl
  obtain ⟨fromStart, -, dead⟩ := unplaced_errors_mean_end_of_line .strict openGroup
  obtain ⟨-, unclosed, exhausted⟩ := fromStart 1
  exact ⟨failed, unclosed failed, (exhausted _ failed (.inl rfl)).1, dead .usual 1⟩

end InfixTree
