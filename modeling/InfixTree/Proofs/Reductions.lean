import InfixTree.Proofs.Levels

/-!
What an incoming operator, or the end of a level, does to the operators that wait, in runs that fail
as well. They are taken newest first. What is left of them is the stack below some point, and an
error is about the operator at which the reductions broke off.
-/
namespace InfixTree.Parse

/-! ### Outcomes of bound and mapped runs -/

section Outcomes

variable {ε α β : Type} {outcome : Except ε α} {e : ε}

theorem bind_eq_error_iff {next : α → Except ε β} :
    outcome.bind next = .error e ↔
      outcome = .error e ∨ ∃ a, outcome = .ok a ∧ next a = .error e := by
  cases outcome <;> simp [Except.bind]

theorem map_eq_error_iff {f : α → β} : outcome.map f = .error e ↔ outcome = .error e := by
  cases outcome <;> simp [Except.map]

theorem map_eq_ok_iff {f : α → β} {b : β} :
    outcome.map f = .ok b ↔ ∃ a, outcome = .ok a ∧ f a = b := by
  cases outcome <;> simp [Except.map]

end Outcomes

namespace Level

@[simp] theorem operators_operand (l : Level) (e : Expr) :
    (l.operand e).operators = l.operators := by
  rcases l with ⟨output, operators, _ | app⟩ <;> rfl

@[simp] theorem operators_identifier (l : Level) (name : String) :
    (l.identifier name).operators = l.operators := by
  rcases l with ⟨output, operators, _ | app⟩ <;> rfl

end Level

/-- What an incoming operator does when it makes none of these operators reduce. -/
inductive Halts (mode : Mode) (p : Pending) : List Pending → Run (List Pending × List Expr) → Prop
    where
  | empty (output : List Expr) : Halts mode p [] ⟨[], .ok ([], output)⟩
  | waits {top : Pending} (below : List Pending) (output : List Expr)
      (waits : top.fixity.reducesBefore p.fixity = false) :
      Halts mode p (top :: below) ⟨[], .ok (top :: below, output)⟩
  | clash {top : Pending} (below : List Pending) (strict : mode = .strict)
      (clash : top.fixity.clashes p.fixity) : Halts mode p (top :: below)
        ⟨[], .error (.nonAssociativeChain top.spelling p.spelling p.location)⟩
  | missing {top : Pending} (below : List Pending) (goes : top.fixity.reducesBefore p.fixity) :
      Halts mode p (top :: below) ⟨[.missingOperand top.spelling top.location],
        .error (.unbalanced (some top.location))⟩

/-- The run reduces the first ones of the operators, which go before the incoming one, and halts at
the others. -/
structure Removes (mode : Mode) (p : Pending) (operators removed kept : List Pending)
    (run : Run (List Pending × List Expr)) : Prop where
  split : operators = removed ++ kept
  go : ∀ q ∈ removed, q.fixity.reducesBefore p.fixity
  halts : ∃ last, Halts mode p kept last ∧
    run = ⟨removed.map (fun q => .reducing q.spelling) ++ last.records, last.outcome⟩

section Removes

variable {mode : Mode} {p : Pending} {operators removed kept : List Pending}

theorem Removes.nil {run : Run (List Pending × List Expr)} (halts : Halts mode p operators run) :
    Removes mode p operators [] operators run := ⟨rfl, by simp, run, halts, rfl⟩

theorem Removes.cons {top : Pending} {run : Run (List Pending × List Expr)}
    (goes : top.fixity.reducesBefore p.fixity) (below : Removes mode p operators removed kept run) :
    Removes mode p (top :: operators) (top :: removed) kept
      ⟨.reducing top.spelling :: run.records, run.outcome⟩ := by
  obtain ⟨rfl, go, last, halts, rfl⟩ := below
  exact ⟨rfl, List.forall_mem_cons.mpr ⟨goes, go⟩, last, halts, rfl⟩

theorem exists_removes (mode : Mode) (p : Pending) (operators : List Pending)
    (output : List Expr) :
    ∃ removed kept, Removes mode p operators removed kept (reduceBefore mode p operators output) := by
  induction operators generalizing output with
  | nil => exact ⟨[], [], .nil (.empty output)⟩
  | cons top below ih =>
    rw [reduceBefore]
    split
    · rename_i clash
      exact ⟨[], _, .nil (.clash below clash.1 clash.2)⟩
    · split
      · rename_i goes
        rcases output with _ | ⟨r, _ | ⟨l, under⟩⟩
        · exact ⟨[], _, .nil (.missing below goes)⟩
        · exact ⟨[], _, .nil (.missing below goes)⟩
        · obtain ⟨removed, kept, removes⟩ := ih (.binary l top.spelling r :: under)
          exact ⟨top :: removed, kept, removes.cons goes⟩
      · rename_i waits
        exact ⟨[], _, .nil (.waits below output (by simpa using waits))⟩

theorem Removes.left_eq {run : Run (List Pending × List Expr)} {left : List Pending}
    {out : List Expr} (removes : Removes mode p operators removed kept run)
    (done : run.outcome = .ok (left, out)) :
    left = kept ∧ ∀ q ∈ kept.head?, q.fixity.reducesBefore p.fixity = false := by
  obtain ⟨-, -, last, halts, rfl⟩ := removes
  cases halts with
  | empty output =>
    obtain ⟨rfl, -⟩ := Prod.mk.inj (Except.ok.inj done)
    exact ⟨rfl, by simp⟩
  | waits below output waits =>
    obtain ⟨rfl, -⟩ := Prod.mk.inj (Except.ok.inj done)
    exact ⟨rfl, by simpa using waits⟩
  | clash below strict clash => contradiction
  | missing below goes => contradiction

/-- A chain is refused where the newest operator that is left clashes with the incoming one. -/
theorem Removes.clash_eq {run : Run (List Pending × List Expr)} {lower upper : String}
    {place : Location} (removes : Removes mode p operators removed kept run)
    (failed : run.outcome = .error (.nonAssociativeChain lower upper place)) :
    ∃ top below, kept = top :: below ∧ mode = .strict ∧ top.fixity.clashes p.fixity := by
  obtain ⟨-, -, last, halts, rfl⟩ := removes
  cases halts with
  | empty output => contradiction
  | waits below output waits => contradiction
  | clash below strict clash => exact ⟨_, below, rfl, strict, clash⟩
  | missing below goes => simp at failed

theorem Removes.error_eq {run : Run (List Pending × List Expr)} {error : ParseError}
    (removes : Removes mode p operators removed kept run) (failed : run.outcome = .error error) :
    ∃ q ∈ operators, error = .unbalanced (some q.location) ∨
      (q.fixity.clashes p.fixity ∧
        error = .nonAssociativeChain q.spelling p.spelling p.location) := by
  obtain ⟨rfl, -, last, halts, rfl⟩ := removes
  cases halts with
  | empty output => contradiction
  | waits below output waits => contradiction
  | @clash top below strict clash =>
    exact ⟨top, by simp, .inr ⟨clash, (Except.error.inj failed).symm⟩⟩
  | @missing top below goes => exact ⟨top, by simp, .inl (Except.error.inj failed).symm⟩

end Removes

theorem error_of_reduce {op : Pending} {output : List Expr} {error : ParseError}
    (failed : (reduce op output).outcome = .error error) :
    error = .unbalanced (some op.location) := by
  match output with
  | [] => exact (Except.error.inj failed).symm
  | [_] => exact (Except.error.inj failed).symm
  | r :: l :: under =>
    rw [reduce_outcome] at failed
    contradiction

theorem error_of_reduceAll {operators : List Pending} {output : List Expr} {error : ParseError}
    (failed : (reduceAll operators output).outcome = .error error) :
    ∃ q ∈ operators, error = .unbalanced (some q.location) := by
  induction operators generalizing output with
  | nil => contradiction
  | cons top below ih =>
    rw [reduceAll_cons_outcome] at failed
    rcases bind_eq_error_iff.mp failed with here | ⟨out, -, later⟩
    · exact ⟨top, by simp, error_of_reduce here⟩
    · obtain ⟨q, member, same⟩ := ih later
      exact ⟨q, List.mem_cons_of_mem top member, same⟩

namespace Level

variable {mode : Mode} {p : Pending} {l k : Level} {error : ParseError}

theorem mem_operators_of_operator (pushed : (l.operator mode p).outcome = .ok k) :
    ∀ q ∈ k.operators, q = p ∨ q ∈ l.operators := by
  rw [operator_outcome] at pushed
  obtain ⟨left, done, rfl⟩ := map_eq_ok_iff.mp pushed
  obtain ⟨removed, kept, removes⟩ := exists_removes mode p l.operators l.closed.output
  intro q member
  rcases List.mem_cons.mp member with same | under
  · exact .inl same
  · rw [(removes.left_eq done).1] at under
    rw [removes.split]
    exact .inr (List.mem_append_right removed under)

theorem error_of_operator (failed : (l.operator mode p).outcome = .error error) :
    ∃ q ∈ l.operators, error = .unbalanced (some q.location) ∨
      (q.fixity.clashes p.fixity ∧
        error = .nonAssociativeChain q.spelling p.spelling p.location) := by
  rw [operator_outcome] at failed
  obtain ⟨removed, kept, removes⟩ := exists_removes mode p l.operators l.closed.output
  exact removes.error_eq (map_eq_error_iff.mp failed)

theorem error_of_finish {closing : Option Location}
    (failed : (l.finish closing).outcome = .error error) :
    error = .unbalanced closing ∨ ∃ q ∈ l.operators, error = .unbalanced (some q.location) := by
  rw [finish_outcome] at failed
  rcases bind_eq_error_iff.mp failed with here | ⟨output, -, several⟩
  · exact .inr (error_of_reduceAll here)
  · match output with
    | [] => exact .inl (Except.error.inj several).symm
    | [_] => contradiction
    | _ :: _ :: _ => exact .inl (Except.error.inj several).symm

end Level

end InfixTree.Parse
