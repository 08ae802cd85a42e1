import InfixTree.Proofs.Levels

/-!
Strict mode refuses chains of non-associative operators and changes nothing else. On any tokens the
two modes go through the same levels, reduction by reduction, until strict mode meets a chain. So a
strict reading that ends in another way ends as the lenient one does, with its tree or its error.
-/
namespace InfixTree

/-- The error that strict mode adds. -/
def ParseError.isChain : ParseError → Bool
  | nonAssociativeChain .. => true
  | expectedClosing .. | unbalanced _ => false

/-- No chain is complained of. -/
def Calm {α : Type} (outcome : Except ParseError α) : Prop :=
  ∀ e, outcome = .error e → e.isChain = false

/-- What strict mode makes of tokens is what lenient mode makes of them, unless it is the error of a
chain, which lenient mode never raises. -/
structure Restricts {α : Type} (strict lenient : Except ParseError α) : Prop where
  ok : ∀ a, strict = .ok a → lenient = .ok a
  error : ∀ e, strict = .error e → e.isChain = false → lenient = .error e
  calm : Calm lenient

section Outcomes

variable {α β : Type}

theorem calm_ok (a : α) : Calm (.ok a) := by
  intro e failed
  contradiction

theorem calm_error {e : ParseError} (other : e.isChain = false) : Calm (.error e : Except _ α) := by
  intro f failed
  obtain rfl := Except.error.inj failed
  exact other

theorem Calm.bind {first : Except ParseError α} {next : α → Except ParseError β}
    (calm : Calm first) (after : ∀ a, Calm (next a)) : Calm (first.bind next) := by
  cases first with
  | error e => exact calm_error (calm e rfl)
  | ok a => exact after a

theorem Calm.map {outcome : Except ParseError α} (calm : Calm outcome) (f : α → β) :
    Calm (outcome.map f) := by
  cases outcome with
  | error e => exact calm_error (calm e rfl)
  | ok a => exact calm_ok (f a)

namespace Restricts

theorem same {outcome : Except ParseError α} (calm : Calm outcome) : Restricts outcome outcome := by
  constructor
  · intro a done
    exact done
  · intro e failed _
    exact failed
  · exact calm

theorem chain {e : ParseError} {lenient : Except ParseError α} (chain : e.isChain)
    (calm : Calm lenient) : Restricts (.error e) lenient := by
  constructor
  · intro a done
    contradiction
  · intro f failed other
    obtain rfl := Except.error.inj failed
    simp [chain] at other
  · exact calm

theorem bind {strict lenient : Except ParseError α} {f g : α → Except ParseError β}
    (first : Restricts strict lenient) (next : ∀ a, Restricts (f a) (g a)) :
    Restricts (strict.bind f) (lenient.bind g) := by
  cases strict with
  | ok a =>
    rw [first.ok a rfl]
    exact next a
  | error e =>
    have calm := first.calm.bind fun a => (next a).calm
    cases kind : e.isChain with
    | true => exact chain kind calm
    | false =>
      rw [first.error e rfl kind] at calm ⊢
      exact same calm

theorem map {strict lenient : Except ParseError α} (first : Restricts strict lenient) (f : α → β) :
    Restricts (strict.map f) (lenient.map f) := by
  have bound := first.bind fun a => same (calm_ok (f a))
  cases strict <;> cases lenient <;> exact bound

end Restricts

end Outcomes

namespace Parse

theorem calm_reduce (op : Pending) (output : List Expr) : Calm (reduce op output).outcome := by
  match output with
  | [] => exact calm_error rfl
  | [_] => exact calm_error rfl
  | r :: l :: under =>
    rw [reduce_outcome]
    exact calm_ok _

theorem calm_reduceAll (operators : List Pending) (output : List Expr) :
    Calm (reduceAll operators output).outcome := by
  induction operators generalizing output with
  | nil => exact calm_ok output
  | cons top below ih =>
    rw [reduceAll_cons_outcome]
    exact (calm_reduce top output).bind ih

theorem calm_finish (l : Level) (closing : Option Location) : Calm (l.finish closing).outcome := by
  rw [Level.finish_outcome]
  apply (calm_reduceAll _ _).bind
  intro output
  match output with
  | [] => exact calm_error rfl
  | [e] => exact calm_ok e
  | _ :: _ :: _ => exact calm_error rfl

theorem reduceBefore_restricts (p : Pending) (operators : List Pending) (output : List Expr) :
    Restricts (reduceBefore .strict p operators output).outcome
      (reduceBefore .lenient p operators output).outcome := by
  induction operators generalizing output with
  | nil => exact .same (calm_ok _)
  | cons top below ih =>
    have reduced : Restricts
        (if top.fixity.reducesBefore p.fixity then
          (reduce top output).outcome.bind fun out => (reduceBefore .strict p below out).outcome
        else .ok (top :: below, output))
        (if top.fixity.reducesBefore p.fixity then
          (reduce top output).outcome.bind fun out => (reduceBefore .lenient p below out).outcome
        else .ok (top :: below, output)) := by
      split
      · exact (Restricts.same (calm_reduce top output)).bind ih
      · exact .same (calm_ok _)
    have lenient : ¬ (Mode.lenient = .strict ∧ top.fixity.clashes p.fixity) := by simp
    rw [reduceBefore_cons_outcome, reduceBefore_cons_outcome, if_neg lenient]
    -- the two modes part only where strict mode looks at the top of the stack
    by_cases clash : Mode.strict = .strict ∧ top.fixity.clashes p.fixity
    · rw [if_pos clash]
      exact .chain rfl reduced.calm
    · rw [if_neg clash]
      exact reduced

theorem operator_restricts (l : Level) (p : Pending) :
    Restricts (l.operator .strict p).outcome (l.operator .lenient p).outcome := by
  rw [Level.operator_outcome, Level.operator_outcome]
  exact (reduceBefore_restricts p l.operators l.closed.output).map _

theorem read_restricts (s : State) (tokens : List Token) :
    Restricts (read .strict s tokens).outcome (read .lenient s tokens).outcome := by
  induction tokens generalizing s with
  | nil =>
    obtain ⟨i, l, around⟩ := s
    cases around with
    | nil =>
      rw [read_end_outer, read_end_outer]
      exact .same ((calm_finish l none).map _)
    | cons below around =>
      rw [read_end_inner, read_end_inner]
      exact .same ((calm_finish l none).bind fun _ => calm_error rfl)
  | cons t rest ih =>
    obtain ⟨i, l, around⟩ := s
    cases kind : t.kind with
    | number value =>
      rw [read_number kind, read_number kind]
      exact ih _
    | identifier name =>
      rw [read_identifier kind, read_identifier kind]
      exact ih _
    | operator spelling =>
      rw [read_operator kind, read_operator kind]
      exact (operator_restricts l _).bind fun k => ih _
    | opening =>
      rw [read_opening kind, read_opening kind]
      exact ih _
    | closing =>
      cases around with
      | nil =>
        rw [read_closing_outer kind, read_closing_outer kind]
        exact .same ((calm_finish l _).map _)
      | cons below around =>
        rw [read_closing_inner kind, read_closing_inner kind]
        exact (Restricts.same (calm_finish l _)).bind fun e => ih _

end Parse

/-- Strict mode is lenient mode less the lines with chains: from every token on and on the whole
line it gives the tree or the error that lenient mode gives, or it complains of a chain. -/
theorem strict_mode_only_refuses_chains (tokens : List Token) :
    (∀ start, Restricts (parseFrom .strict tokens start) (parseFrom .lenient tokens start)) ∧
      Restricts (parse .strict tokens) (parse .lenient tokens) := by
  have from_start : ∀ start,
      Restricts (parseFrom .strict tokens start) (parseFrom .lenient tokens start) := by
    intro start
    rw [Parse.parseFrom_eq_read, Parse.parseFrom_eq_read]
    exact Parse.read_restricts _ _
  refine ⟨from_start, ?_⟩
  rw [Parse.parse_eq_bind, Parse.parse_eq_bind]
  apply (from_start 0).bind
  intro r
  apply Restricts.same
  cases tokens[r.2]? with
  | none => exact calm_ok r.1
  | some stray => exact calm_error rfl

end InfixTree
