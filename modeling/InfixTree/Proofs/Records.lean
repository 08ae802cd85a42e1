import InfixTree.Proofs.Levels

/-!
Reading token by token, with the records it leaves: what each kind of token does to the state, and
which records it puts in front of those of the rest. The equations are between whole runs, so they
hold of readings that fail, too.
-/
namespace InfixTree

namespace Traced

variable {ρ ε α β γ : Type}

theorem pure_bind (a : α) (next : α → Traced ρ ε β) : (pure a >>= next) = next a := rfl

theorem bind_pure (run : Traced ρ ε α) : (run >>= fun a => pure a) = run := by
  obtain ⟨records, outcome⟩ := run
  cases outcome with
  | error e => rfl
  | ok a => simp [Bind.bind, bind]

theorem bind_assoc (run : Traced ρ ε α) (next : α → Traced ρ ε β) (last : β → Traced ρ ε γ) :
    (run >>= next >>= last) = run >>= fun a => next a >>= last := by
  obtain ⟨records, outcome⟩ := run
  cases outcome with
  | error e => rfl
  | ok a =>
    cases middle : (next a).outcome with
    | error e => simp [Bind.bind, bind, middle]
    | ok b => simp [Bind.bind, bind, middle]

theorem bind_of_eq {run : Traced ρ ε α} {records : List ρ} {a : α} (done : run = ⟨records, .ok a⟩)
    (next : α → Traced ρ ε β) :
    (run >>= next) = ⟨records ++ (next a).records, (next a).outcome⟩ := by
  rw [done]
  rfl

theorem emit_bind (record : ρ) (next : Unit → Traced ρ ε β) :
    (emit record >>= next) = ⟨record :: (next ()).records, (next ()).outcome⟩ := rfl

theorem within_of_ok {σ δ : Type} {run : Traced ρ ε α} {a : α} (done : run.outcome = .ok a)
    (record : ρ → σ) (error : ε → δ) :
    run.within record error = ⟨run.records.map record, .ok a⟩ := by
  rw [within, done]
  rfl

end Traced

namespace Parse

/-- The record that is made of an operator without a fixity of its own. -/
def unlisted (p : Pending) : List Record :=
  if Fixity.isKnown p.spelling then [] else [.unknownOperator p.spelling]

theorem Level.operator_eq (mode : Mode) (p : Pending) (l : Level) :
    l.operator mode p = l.closeApplication >>= fun k =>
      (⟨unlisted p, .ok ()⟩ : Run Unit) >>= fun _ =>
        reduceBefore mode p k.operators k.output >>= fun left =>
          Traced.emit (.pushing p.spelling p.fixity) >>= fun _ =>
            pure { k with output := left.2, operators := p :: left.1 } := by
  unfold operator unlisted
  cases Fixity.isKnown p.spelling <;> rfl

section Read

variable {mode : Mode} {t : Token} {ts : List Token} {i : Nat} {l : Level} {around : List Level}

theorem run_number {value : UInt64} (kind : t.kind = .number value) :
    read mode ⟨i, l, around⟩ (t :: ts) =
      read mode ⟨i + 1, l.operand (.number value), around⟩ ts := by
  rw [read, State.step, kind]
  rfl

theorem run_identifier {name : String} (kind : t.kind = .identifier name) :
    read mode ⟨i, l, around⟩ (t :: ts) = read mode ⟨i + 1, l.identifier name, around⟩ ts := by
  rw [read, State.step, kind]
  rfl

theorem run_operator {spelling : String} (kind : t.kind = .operator spelling) :
    read mode ⟨i, l, around⟩ (t :: ts) =
      l.operator mode ⟨spelling, t.location⟩ >>= fun k => read mode ⟨i + 1, k, around⟩ ts := by
  rw [read, State.step, kind]
  exact Traced.bind_assoc _ _ _

theorem run_opening (kind : t.kind = .opening) :
    read mode ⟨i, l, around⟩ (t :: ts) =
      Traced.emit (.entering (i + 1)) >>= fun _ =>
        read mode ⟨i + 1, .empty, l :: around⟩ ts := by
  rw [read, State.step, kind]
  exact Traced.bind_assoc _ _ _

theorem run_closing_inner {below : Level} (kind : t.kind = .closing) :
    read mode ⟨i, l, below :: around⟩ (t :: ts) =
      l.finish (some t.location) >>= fun e => Traced.emit (.leavingAtClosing i) >>= fun _ =>
        read mode ⟨i + 1, below.operand (.parenthesized e), around⟩ ts := by
  rw [read, State.step, kind]
  simp only [Traced.bind_assoc, Traced.pure_bind]

theorem run_closing_outer (kind : t.kind = .closing) :
    read mode ⟨i, l, []⟩ (t :: ts) =
      l.finish (some t.location) >>= fun e => Traced.emit (.leavingAtClosing i) >>= fun _ =>
        pure (e, i) := by
  rw [read, State.step, kind]
  simp only [Traced.bind_assoc, Traced.pure_bind]

theorem run_end_inner {below : Level} :
    read mode ⟨i, l, below :: around⟩ [] =
      l.finish none >>= fun _ => Traced.emit .leavingAtEnd >>= fun _ =>
        Traced.fail (.expectedClosing none none) := by
  rw [read, State.finish]
  simp only [Traced.bind_assoc]
  rfl

theorem run_end_outer :
    read mode ⟨i, l, []⟩ [] =
      l.finish none >>= fun e => Traced.emit .leavingAtEnd >>= fun _ => pure (e, i) := by
  rw [read, State.finish]
  simp only [Traced.bind_assoc, Traced.pure_bind]

end Read

end Parse

end InfixTree
