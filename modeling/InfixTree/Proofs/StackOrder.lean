import InfixTree.Proofs.Acceptance
import InfixTree.Proofs.Passage
import InfixTree.Proofs.Reductions

/-!
The operators that wait in a level are in order at every point of a reading: each waits for all that
stand above it, and in strict mode none of them clash. An incoming operator looks at the newest one
alone, again and again. Because of the order that is enough: those that go before it are a top
part of the stack, and where it finds one that waits it need not look any further.
-/
namespace InfixTree.Parse

/-- The order that a stack is in, in either mode. -/
structure Layered (mode : Mode) (operators : List Pending) : Prop where
  ordered : Ordered operators
  apart : mode = .strict → Unclashing operators

section Layered

variable {mode : Mode} {operators : List Pending}

theorem layered_nil (mode : Mode) : Layered mode [] := ⟨.nil, fun _ => .nil⟩

theorem Layered.sublist {part : List Pending} (layered : Layered mode operators)
    (some : part.Sublist operators) : Layered mode part :=
  ⟨layered.ordered.sublist some, fun strict => (layered.apart strict).sublist some⟩

/-- What an incoming operator leaves of the stack, with itself on top, is in order again. -/
theorem Layered.push {p : Pending} {output out : List Expr} {left : List Pending}
    (layered : Layered mode operators)
    (done : (reduceBefore mode p operators output).outcome = .ok (left, out)) :
    Layered mode (p :: left) := by
  have clears := (reduceBefore_ok_iff_clears layered.ordered layered.apart).mp ⟨out, done⟩
  have part : left.Sublist operators := by
    rw [clears.kept]
    exact List.filter_sublist
  constructor
  · refine List.pairwise_cons.mpr ⟨fun q member => ?_, layered.ordered.sublist part⟩
    rw [clears.kept] at member
    simpa using (List.mem_filter.mp member).2
  · intro strict
    refine List.pairwise_cons.mpr ⟨fun q member => ?_, (layered.apart strict).sublist part⟩
    exact clears.apart strict q (part.mem member)

/-- Where the incoming operator finds one that waits, all below that one wait as well. -/
theorem Layered.waits_of_head {p : Pending} (layered : Layered mode operators)
    (head : ∀ q ∈ operators.head?, q.fixity.reducesBefore p.fixity = false) :
    ∀ q ∈ operators, q.fixity.reducesBefore p.fixity = false := by
  cases operators with
  | nil => simp
  | cons top below => exact waits_below layered.ordered (head top rfl)

/-- Below one that clashes with the incoming operator, all wait for it. -/
theorem Layered.waits_of_clash {p top : Pending} {below : List Pending}
    (layered : Layered .strict (top :: below)) (clash : top.fixity.clashes p.fixity) :
    ∀ q ∈ below, q.fixity.reducesBefore p.fixity = false := by
  intro q under
  have waits := (List.pairwise_cons.mp layered.ordered).1 q under
  have apart := (List.pairwise_cons.mp (layered.apart rfl)).1 q under
  cases goes : q.fixity.reducesBefore p.fixity with
  | false => rfl
  | true =>
    rw [Fixity.not_clashes_of_waits goes waits apart] at clash
    contradiction

end Layered

theorem layered_of_passes {mode : Mode} {tokens : List Token} {start : Nat} {s : State}
    (passed : Passes mode tokens start s) : ∀ l ∈ s.level :: s.around, Layered mode l.operators := by
  induction passed with
  | start =>
    intro l member
    obtain rfl := List.mem_singleton.mp member
    exact layered_nil mode
  | @step s next t _ _ moved ih =>
    obtain ⟨current, around⟩ := List.forall_mem_cons.mp ih
    cases transition_of_step moved with
    | number kind =>
      exact List.forall_mem_cons.mpr ⟨by simpa [State.advance] using current, around⟩
    | identifier kind =>
      exact List.forall_mem_cons.mpr ⟨by simpa [State.advance] using current, around⟩
    | operator kind pushed =>
      obtain ⟨left, out, done, rfl⟩ := Level.operator_eq_ok_iff.mp pushed
      exact List.forall_mem_cons.mpr ⟨current.push done, around⟩
    | opening kind => exact List.forall_mem_cons.mpr ⟨layered_nil mode, ih⟩
    | closing kind yields waiting =>
      rw [waiting] at around
      obtain ⟨below, beyond⟩ := List.forall_mem_cons.mp around
      exact List.forall_mem_cons.mpr ⟨by simpa using below, beyond⟩

/-- The operators that a level holds at some point: between two tokens, in the current level or in
one around it, or while an incoming operator or the end of the level takes the newest of them. -/
inductive Held (mode : Mode) (tokens : List Token) (start : Nat) : List Pending → Prop where
  | between {s : State} {l : Level} (passed : Passes mode tokens start s)
      (level : l ∈ s.level :: s.around) : Held mode tokens start l.operators
  | within {top : Pending} {below : List Pending} (held : Held mode tokens start (top :: below)) :
      Held mode tokens start below

theorem layered_of_held {mode : Mode} {tokens : List Token} {start : Nat} {operators : List Pending}
    (held : Held mode tokens start operators) : Layered mode operators := by
  induction held with
  | between passed level => exact layered_of_passes passed _ level
  | within _ ih => exact ih.sublist (List.sublist_cons_self _ _)

/-- One operator of a stack and one that stands above it. -/
structure Below (mode : Mode) (lower upper : Pending) : Prop where
  waits : lower.fixity.reducesBefore upper.fixity = false
  precedence : lower.fixity.precedence ≤ upper.fixity.precedence
  associativity : lower.fixity.precedence = upper.fixity.precedence →
    upper.fixity.associativity ≠ .left
  apart : mode = .strict → lower.fixity.precedence = upper.fixity.precedence →
    lower.fixity.associativity ≠ .nonAssoc ∧ upper.fixity.associativity ≠ .nonAssoc

theorem Layered.below {mode : Mode} {operators : List Pending} (layered : Layered mode operators) :
    operators.Pairwise fun upper lower => Below mode lower upper := by
  have apart : operators.Pairwise fun upper lower =>
      mode = .strict → lower.fixity.clashes upper.fixity = false := by
    cases mode with
    | lenient => exact List.pairwise_of_forall fun _ _ strict => by contradiction
    | strict => exact (layered.apart rfl).imp fun calm _ => calm
  refine (layered.ordered.and apart).imp ?_
  intro upper lower both
  obtain ⟨waits, calm⟩ := both
  obtain ⟨precedence, left⟩ := Fixity.reducesBefore_eq_false_iff.mp waits
  exact ⟨waits, precedence, fun same isLeft => left isLeft same,
    fun strict => Fixity.clashes_eq_false_iff.mp (calm strict)⟩

/-- The incoming operator removes the upper ones of the stack, which go before it, and no others go
before it. Where it fails for a clash, none go before it below the one that it clashes with. -/
structure Divides (mode : Mode) (p : Pending) (operators : List Pending) (output : List Expr)
    (removed kept : List Pending) : Prop where
  removes : Removes mode p operators removed kept (reduceBefore mode p operators output)
  done : ∀ left out, (reduceBefore mode p operators output).outcome = .ok (left, out) →
    left = kept ∧ ∀ q ∈ kept, q.fixity.reducesBefore p.fixity = false
  clash : ∀ lower upper place, (reduceBefore mode p operators output).outcome =
      .error (.nonAssociativeChain lower upper place) →
    ∀ q ∈ kept.tail, q.fixity.reducesBefore p.fixity = false

theorem Layered.exists_divides {mode : Mode} {operators : List Pending}
    (layered : Layered mode operators) (p : Pending) (output : List Expr) :
    ∃ removed kept, Divides mode p operators output removed kept := by
  obtain ⟨removed, kept, removes⟩ := exists_removes mode p operators output
  have part : Layered mode kept := by
    refine layered.sublist ?_
    rw [removes.split]
    exact List.sublist_append_right removed kept
  refine ⟨removed, kept, removes, fun left out done => ?_, fun lower upper place failed => ?_⟩
  · obtain ⟨same, head⟩ := removes.left_eq done
    exact ⟨same, part.waits_of_head head⟩
  · obtain ⟨top, below, rfl, strict, clash⟩ := removes.clash_eq failed
    rw [strict] at part
    exact part.waits_of_clash clash

/-- At every point each operator of a level waits for all that stand above it, so that precedences
never fall from the bottom to the top. An incoming operator makes the top ones reduce that go before
it and no others, and leaves none of these below the one at which it stops. -/
theorem stack_is_ordered_at_every_point {mode : Mode} {tokens : List Token} {start : Nat}
    {operators : List Pending} (held : Held mode tokens start operators) :
    operators.Pairwise (fun upper lower => Below mode lower upper) ∧
      ∀ p output, ∃ removed kept, Divides mode p operators output removed kept := by
  have layered := layered_of_held held
  exact ⟨layered.below, layered.exists_divides⟩

/-- `) 0 $ ( 1 : 2 ++ 3 * 4`, where nothing has been reduced yet when the line ends. -/
def risingOperators : List Token :=
  let token (kind : Kind) : Token := ⟨kind, "", .start⟩
  [.closing, .number 0, .operator "$", .opening, .number 1, .operator ":", .number 2,
    .operator "++", .number 3, .operator "*", .number 4].map token

def Pending.unplaced (spelling : String) : Pending := ⟨spelling, .start⟩

theorem rising_operators_are_ordered :
    let operators := ["*", "++", ":"].map Pending.unplaced
    Held .strict risingOperators 1 operators ∧
      operators.Pairwise (fun upper lower => Below .strict lower upper) ∧
        ∀ p output, ∃ removed kept, Divides .strict p operators output removed kept := by
  intro operators
  let group : Level := ⟨[.number 4, .number 3, .number 2, .number 1], operators, none⟩
  let outside : Level := ⟨[.number 0], [.unplaced "$"], none⟩
  have first : Passes .strict risingOperators 1 ⟨4, .empty, [outside]⟩ :=
    .step (.step (.step .start rfl rfl) rfl rfl) rfl rfl
  have passed : Passes .strict risingOperators 1 ⟨11, group, [outside]⟩ :=
    .step (.step (.step (.step (.step (.step (.step first rfl rfl) rfl rfl) rfl rfl) rfl rfl)
      rfl rfl) rfl rfl) rfl rfl
  have held : Held .strict risingOperators 1 operators := .between passed (List.mem_cons_self)
  exact ⟨held, stack_is_ordered_at_every_point held⟩

end InfixTree.Parse
