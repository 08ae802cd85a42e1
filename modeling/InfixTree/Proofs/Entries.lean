import InfixTree.Proofs.Placement
import InfixTree.Proofs.Termination

/-!
Where the levels begin that a reading enters. It enters one at its start and one behind every
opening parenthesis that it comes to, and it comes to each token once. So no group is read again,
neither when the reading fails nor when the tokens are no line at all.
-/
namespace InfixTree

open Nesting

namespace Parse

def Record.entered? : Record → Option Nat
  | entering index => some index
  | _ => none

/-- Where the levels begin that these records are of, in the order in which they are entered. -/
def entered (records : List Record) : List Nat := records.filterMap Record.entered?

/-- The run enters no level, whether it fails or not. -/
def Stays {α : Type} (run : Run α) : Prop := entered run.records = []

section Stays

variable {α β : Type}

theorem entered_bind_ok {run : Run α} {next : α → Run β} {a : α} (done : run.outcome = .ok a) :
    entered (run >>= next).records = entered run.records ++ entered (next a).records := by
  rw [Traced.bind_records_ok done, entered, List.filterMap_append]
  rfl

theorem Stays.bind {run : Run α} {next : α → Run β} (first : Stays run)
    (later : ∀ a, Stays (next a)) : Stays (run >>= next) := by
  cases outcome : run.outcome with
  | error e =>
    rw [Stays, Traced.bind_records_error outcome]
    exact first
  | ok a => rw [Stays, entered_bind_ok outcome, first, later a, List.append_nil]

theorem stays_pure (a : α) : Stays (pure a) := rfl

theorem stays_fail (error : ParseError) : Stays (Traced.fail error : Run α) := rfl

theorem stays_emit {r : Record} (other : r.entered? = none) : Stays (Traced.emit r) := by
  rw [Stays, Traced.emit_records, entered, List.filterMap_cons_none other]
  rfl

theorem stays_reduce (op : Pending) (output : List Expr) : Stays (reduce op output) := by
  match output with
  | [] => exact (stays_emit rfl).bind fun _ => stays_fail _
  | [_] => exact (stays_emit rfl).bind fun _ => stays_fail _
  | r :: l :: under => exact (stays_emit rfl).bind fun _ => stays_pure _

theorem stays_reduceBefore (mode : Mode) (p : Pending) (operators : List Pending)
    (output : List Expr) : Stays (reduceBefore mode p operators output) := by
  induction operators generalizing output with
  | nil => exact stays_pure _
  | cons top below ih =>
    rw [reduceBefore]
    split
    · exact stays_fail _
    · split
      · exact (stays_reduce top output).bind ih
      · exact stays_pure _

theorem stays_reduceAll (operators : List Pending) (output : List Expr) :
    Stays (reduceAll operators output) := by
  induction operators generalizing output with
  | nil => exact stays_pure _
  | cons top below ih => exact (stays_reduce top output).bind ih

namespace Level

theorem stays_closeApplication (l : Level) : Stays l.closeApplication := by
  rcases l with ⟨output, operators, _ | ⟨callee, _ | ⟨a, args⟩⟩⟩ <;> rfl

theorem stays_operator (mode : Mode) (p : Pending) (l : Level) : Stays (l.operator mode p) := by
  have unlisted : Stays (⟨unlisted p, .ok ()⟩ : Run Unit) := by
    unfold Stays Parse.unlisted
    split <;> rfl
  rw [operator_eq]
  refine l.stays_closeApplication.bind fun k => unlisted.bind fun _ => ?_
  refine (stays_reduceBefore mode p k.operators k.output).bind fun left => ?_
  exact (stays_emit rfl).bind fun _ => stays_pure _

theorem stays_finish (closing : Option Location) (l : Level) : Stays (l.finish closing) := by
  refine l.stays_closeApplication.bind fun k => ?_
  refine (stays_reduceAll k.operators k.output).bind fun output => ?_
  match output with
  | [] => exact stays_fail _
  | [e] => exact stays_pure e
  | _ :: _ :: _ => exact stays_fail _

end Level

end Stays

variable {mode : Mode} {tokens : List Token}

/-- Only an opening parenthesis enters a level, which begins behind it. -/
theorem entered_step (mode : Mode) (s : State) (t : Token) :
    entered (s.step mode t).records =
      (if t.kind = .opening then [s.index] else []).map Nat.succ := by
  cases kind : t.kind with
  | number value =>
    rw [State.step, kind]
    rfl
  | identifier name =>
    rw [State.step, kind]
    rfl
  | operator spelling =>
    rw [State.step, kind]
    exact (s.level.stays_operator mode _).bind fun _ => stays_pure _
  | opening =>
    rw [State.step, kind]
    rfl
  | closing =>
    rw [State.step, kind]
    refine (s.level.stays_finish _).bind fun e => (stays_emit rfl).bind fun _ => ?_
    cases s.around <;> exact stays_pure _

theorem State.stays_finish (s : State) : Stays s.finish := by
  refine (s.level.stays_finish none).bind fun e => (stays_emit rfl).bind fun _ => ?_
  cases s.around with
  | nil => exact stays_pure e
  | cons below around => exact stays_fail _

/-- A reading enters a level behind each opening parenthesis on its way. -/
theorem entered_read {s : State} {ts : List Token} (split : tokens.drop s.index = ts) :
    ∃ n, entered (read mode s ts).records =
      (openingPlaces (kinds tokens) s.index (s.index + n)).map Nat.succ := by
  induction ts generalizing s with
  | nil =>
    refine ⟨0, ?_⟩
    rw [openingPlaces_self, read]
    exact s.stays_finish.bind fun e => stays_pure _
  | cons t rest ih =>
    obtain ⟨here, behind⟩ := at_of_drop split
    have places : ∀ n, entered (s.step mode t).records ++
        (openingPlaces (kinds tokens) (s.index + 1) (s.index + 1 + n)).map Nat.succ =
          (openingPlaces (kinds tokens) s.index (s.index + (n + 1))).map Nat.succ := by
      intro n
      rw [openingPlaces_cons (kinds_getElem? here), List.map_append, entered_step]
    have last := places 0
    rw [openingPlaces_self, List.map_nil, List.append_nil] at last
    rw [read]
    cases stepped : (s.step mode t).outcome with
    | error error =>
      rw [Traced.bind_records_error stepped]
      exact ⟨1, last⟩
    | ok move =>
      rw [entered_bind_ok stepped]
      cases move with
      | stop e =>
        rw [stays_pure, List.append_nil]
        exact ⟨1, last⟩
      | next next =>
        have index := index_of_step stepped
        rw [← index] at behind
        obtain ⟨n, later⟩ := ih behind
        rw [later, index]
        exact ⟨n + 1, places n⟩

/-- The levels of a reading begin at its start and behind the first of the opening parentheses that
follow, in their order. -/
theorem entered_runFrom (mode : Mode) (tokens : List Token) (start : Nat) :
    ∃ n, entered (runFrom mode tokens start).records =
      start :: (openingPlaces (kinds tokens) start (start + n)).map Nat.succ := by
  obtain ⟨n, read⟩ : ∃ n, entered (read mode (.start start) (tokens.drop start)).records = _ :=
    entered_read rfl
  exact ⟨n, congrArg (start :: ·) read⟩

/-- The reading fails in its second group, so it does not come to the third. -/
example : entered (runFrom .lenient ([.opening, .number 1, .closing, .opening, .operator "+",
    .closing, .opening, .number 2, .closing].map (⟨·, "", .start⟩)) 0).records = [0, 1, 4] := by
  rfl

end Parse

/-- A level begins at `start`, and each other one behind an opening parenthesis further on than all
that were entered before. -/
structure EntersOnce (whole : List Kind) (start : Nat) (starts : List Nat) : Prop where
  first : starts.head? = some start
  behind_opening : ∀ n ∈ starts.tail, ∃ opening, start ≤ opening ∧
    whole[opening]? = some .opening ∧ n = opening + 1
  increasing : starts.Pairwise (· < ·)
  few : starts.length ≤ 1 + (whole.drop start).count .opening

theorem entersOnce_of_openingPlaces (whole : List Kind) (start n : Nat) :
    EntersOnce whole start (start :: (openingPlaces whole start (start + n)).map Nat.succ) := by
  constructor
  · rfl
  · intro i member
    obtain ⟨opening, among, rfl⟩ := List.mem_map.mp member
    obtain ⟨behind, opens⟩ := mem_openingPlaces among
    exact ⟨opening, behind, opens, rfl⟩
  · refine List.pairwise_cons.mpr ⟨fun i member => ?_, ?_⟩
    · obtain ⟨opening, among, rfl⟩ := List.mem_map.mp member
      exact Nat.lt_succ_of_le (mem_openingPlaces among).1
    · exact List.pairwise_map.mpr ((openingPlaces_increasing whole start _).imp Nat.succ_lt_succ)
  · rw [List.length_cons, List.length_map, Nat.add_comm]
    exact Nat.add_le_add_left (length_openingPlaces_le whole start n) 1

namespace Parse.Descent

/-- On any tokens and from any start the descent comes to an end, and to one only: with the outcome
of the reading, and with its records in the log. Every turn of a loop leads to a token further on,
and every level begins further on than those that were entered before. -/
theorem ends_entering_each_group_once (guards : Guards) (mode : Mode) (tokens : List Token)
    (start : Nat) :
    ∃ log, (∀ events outcome,
        Finishes guards mode tokens (Script.enter start) events outcome ↔
          events = log ∧ outcome = parseFrom mode tokens start) ∧
      Onward log (Parse.runFrom mode tokens start).records ∧
      EntersOnce (kinds tokens) start (entered (log.filterMap Event.record?)) := by
  obtain ⟨log, onward, finishes⟩ := enter_finishes guards mode tokens start
  refine ⟨log, fun events outcome => ⟨fun other => other.unique finishes, ?_⟩, onward, ?_⟩
  · rintro ⟨rfl, rfl⟩
    exact finishes
  · obtain ⟨n, starts⟩ := entered_runFrom mode tokens start
    rw [onward.made, starts]
    exact entersOnce_of_openingPlaces (kinds tokens) start n

end Parse.Descent

end InfixTree
