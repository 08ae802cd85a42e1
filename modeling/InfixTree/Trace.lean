/-!
Computations that leave records. A run holds the records in the order in which they were made and
ends in a value or in an error; the records made before an error are kept.
-/
namespace InfixTree

structure Traced (ρ ε α : Type) where
  records : List ρ
  outcome : Except ε α

namespace Traced

variable {ρ σ ε δ α β : Type}

def emit (record : ρ) : Traced ρ ε Unit := ⟨[record], .ok ()⟩

def fail (error : ε) : Traced ρ ε α := ⟨[], .error error⟩

def bind (run : Traced ρ ε α) (next : α → Traced ρ ε β) : Traced ρ ε β :=
  match run.outcome with
  | .ok a =>
    let after := next a
    ⟨run.records ++ after.records, after.outcome⟩
  | .error e => ⟨run.records, .error e⟩

instance : Monad (Traced ρ ε) where
  pure a := ⟨[], .ok a⟩
  bind := bind

/-- The same run inside a larger one, which has more kinds of records and of errors. -/
def within (record : ρ → σ) (error : ε → δ) (run : Traced ρ ε α) : Traced σ δ α :=
  ⟨run.records.map record, run.outcome.mapError error⟩

@[simp] theorem pure_records (a : α) : (pure a : Traced ρ ε α).records = [] := rfl

@[simp] theorem pure_outcome (a : α) : (pure a : Traced ρ ε α).outcome = .ok a := rfl

@[simp] theorem emit_records (r : ρ) : (emit r : Traced ρ ε Unit).records = [r] := rfl

@[simp] theorem emit_outcome (r : ρ) : (emit r : Traced ρ ε Unit).outcome = .ok () := rfl

@[simp] theorem fail_records (e : ε) : (fail e : Traced ρ ε α).records = [] := rfl

@[simp] theorem fail_outcome (e : ε) : (fail e : Traced ρ ε α).outcome = .error e := rfl

@[simp] theorem bind_outcome (run : Traced ρ ε α) (next : α → Traced ρ ε β) :
    (run >>= next).outcome = run.outcome.bind fun a => (next a).outcome := by
  cases h : run.outcome <;> simp [Bind.bind, bind, Except.bind, h]

theorem bind_records_ok {run : Traced ρ ε α} {next : α → Traced ρ ε β} {a : α}
    (h : run.outcome = .ok a) : (run >>= next).records = run.records ++ (next a).records := by
  simp [Bind.bind, bind, h]

theorem bind_records_error {run : Traced ρ ε α} {next : α → Traced ρ ε β} {e : ε}
    (h : run.outcome = .error e) : (run >>= next).records = run.records := by
  simp [Bind.bind, bind, h]

end Traced

end InfixTree
