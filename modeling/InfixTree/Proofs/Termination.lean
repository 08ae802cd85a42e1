import InfixTree.Proofs.Descent

/-!
The descent without the bounds that let it be defined by recursion. Each function is a script that
only names its calls, and calls and loops go wherever the script sends them. A script finishes when
all its calls have finished, so none finishes that goes on for ever. That all of them do is a
theorem: on any tokens and from any start they end as the bounded descent does, and each turn of a
loop leads to a token further on.
-/
namespace InfixTree.Parse.Descent

def Reading.pair {first : Nat} (r : Reading first) : Expr × Nat := (r.tree, r.stop)

/-- The calls of functions that call themselves or each other, each with the type of its answer. -/
inductive Call : Type → Type where
  | clearFor (incoming : Pending) (s : Stacks) : Call Stacks
  | drain (s : Stacks) : Call Stacks
  | enter (start : Nat) : Call (Expr × Nat)
  | level (pos : Nat) (s : Stacks) : Call (Expr × Nat)
  | group (opening : Nat) : Call (Expr × Nat)
  | application (callee : String) (args : List Expr) (pos : Nat) : Call (Expr × Nat)

/-- What a function does, with its calls left open. -/
inductive Script (α : Type) : Type 1 where
  | give (a : α)
  /-- What has no loop and makes no call. -/
  | run {β : Type} (run : Run β) (next : β → Script α)
  /-- A loop that was at the token `pos` goes on at the token `next`. -/
  | turn (pos next : Nat) (rest : Script α)
  | call {β : Type} (c : Call β) (next : β → Script α)

namespace Script

variable {α β : Type}

def bind (script : Script α) (rest : α → Script β) : Script β :=
  match script with
  | give a => rest a
  | run r next => run r fun b => (next b).bind rest
  | turn pos next after => turn pos next (after.bind rest)
  | call c next => call c fun b => (next b).bind rest

instance : Monad Script where
  pure := give
  bind := bind

theorem bind_pure (script : Script α) : (script >>= fun a => pure a) = script := by
  induction script with
  | give a => rfl
  | run r next ih => exact congrArg (run r) (funext ih)
  | turn pos next rest ih => exact congrArg (turn pos next) ih
  | call c next ih => exact congrArg (call c) (funext ih)

def ofRun (r : Run α) : Script α := run r give

def goOn (pos next : Nat) : Script Unit := turn pos next (give ())

def ask (c : Call α) : Script α := call c give

section Functions

variable (guards : Guards) (mode : Mode) (tokens : List Token)

def clearFor (incoming : Pending) (s : Stacks) : Script Stacks :=
  match s.operators.head? with
  | none => pure s
  | some top =>
    if mode = .strict ∧ top.fixity.clashes incoming.fixity then
      ofRun (Traced.fail (.nonAssociativeChain top.spelling incoming.spelling incoming.location))
    else if top.fixity.reducesBefore incoming.fixity then do
      let below ← ofRun (s.reduceTop guards)
      ask (.clearFor incoming below)
    else pure s

def operator (incoming : Pending) (s : Stacks) : Script Stacks := do
  unless Fixity.isKnown incoming.spelling do
    ofRun (Traced.emit (.unknownOperator incoming.spelling))
  let s ← ask (.clearFor incoming s)
  ofRun (Traced.emit (.pushing incoming.spelling incoming.fixity))
  pure { s with operators := incoming :: s.operators }

def drain (s : Stacks) : Script Stacks :=
  if s.operators.isEmpty then pure s
  else do
    let below ← ofRun (s.reduceTop guards)
    ask (.drain below)

def finish (closing : Option Location) (s : Stacks) : Script Expr := do
  let s ← ask (.drain s)
  match s.output with
  | [e] => pure e
  | _ => ofRun (Traced.fail (.unbalanced closing))

def enter (start : Nat) : Script (Expr × Nat) := do
  ofRun (Traced.emit (.entering start))
  ask (.level start .empty)

def level (pos : Nat) (s : Stacks) : Script (Expr × Nat) :=
  match tokens[pos]? with
  | none => do
    let e ← finish none s
    ofRun (Traced.emit .leavingAtEnd)
    pure (e, pos)
  | some t =>
    match t.kind with
    | .number value => do
      goOn pos (pos + 1)
      ask (.level (pos + 1) (s.push (.number value)))
    | .operator spelling => do
      let s ← operator ⟨spelling, t.location⟩ s
      goOn pos (pos + 1)
      ask (.level (pos + 1) s)
    | .identifier name => do
      let (e, next) ← ask (.application name [] (pos + 1))
      goOn pos next
      ask (.level next (s.push e))
    | .opening => do
      let (e, next) ← ask (.group pos)
      goOn pos next
      ask (.level next (s.push e))
    | .closing => do
      let e ← finish (some t.location) s
      ofRun (Traced.emit (.leavingAtClosing pos))
      pure (e, pos)

def group (opening : Nat) : Script (Expr × Nat) := do
  let (inner, stop) ← ask (.enter (opening + 1))
  let closed ← ofRun (close guards tokens inner stop)
  pure closed.pair

def application (callee : String) (args : List Expr) (pos : Nat) : Script (Expr × Nat) :=
  match tokens[pos]? with
  | none => do
    let r ← ofRun (applied callee args pos)
    pure r.pair
  | some t =>
    match t.kind with
    | .number value => do
      goOn pos (pos + 1)
      ask (.application callee (args ++ [.number value]) (pos + 1))
    | .identifier name => do
      goOn pos (pos + 1)
      ask (.application callee (args ++ [.identifier name]) (pos + 1))
    | .opening => do
      let (arg, next) ← ask (.group pos)
      goOn pos next
      ask (.application callee (args ++ [arg]) next)
    | .operator _ | .closing => do
      let r ← ofRun (applied callee args pos)
      pure r.pair

end Functions

end Script

/-- The script of the function that is called. -/
def Call.script (guards : Guards) (mode : Mode) (tokens : List Token) :
    {α : Type} → Call α → Script α
  | _, .clearFor incoming s => Script.clearFor guards mode incoming s
  | _, .drain s => Script.drain guards s
  | _, .enter start => Script.enter start
  | _, .level pos s => Script.level tokens pos s
  | _, .group opening => Script.group guards tokens opening
  | _, .application callee args pos => Script.application tokens callee args pos

/-- What a script leaves in the log. -/
inductive Event where
  | record (r : Record)
  | turn (pos next : Nat)
  deriving DecidableEq, Repr

def Event.record? : Event → Option Record
  | record r => some r
  | turn .. => none

section Finishes

variable (guards : Guards) (mode : Mode) (tokens : List Token)

/-- The script comes to its end with these events in the log. A call has its own events there, and
what follows it begins only when its script has come to an end. -/
inductive Finishes : {α : Type} → Script α → List Event → Except ParseError α → Prop where
  | give {α : Type} (a : α) : Finishes (.give a) [] (.ok a)
  | ran {α β : Type} {r : Run β} {next : β → Script α} {b : β} {events : List Event}
      {outcome : Except ParseError α} (done : r.outcome = .ok b)
      (rest : Finishes (next b) events outcome) :
      Finishes (.run r next) (r.records.map .record ++ events) outcome
  | broken {α β : Type} {r : Run β} {next : β → Script α} {error : ParseError}
      (failed : r.outcome = .error error) :
      Finishes (.run r next) (r.records.map .record) (.error error)
  | turn {α : Type} {pos next : Nat} {after : Script α} {events : List Event}
      {outcome : Except ParseError α} (rest : Finishes after events outcome) :
      Finishes (.turn pos next after) (.turn pos next :: events) outcome
  | answered {α β : Type} {c : Call β} {next : β → Script α} {b : β} {events more : List Event}
      {outcome : Except ParseError α}
      (inside : Finishes (c.script guards mode tokens) events (.ok b))
      (rest : Finishes (next b) more outcome) : Finishes (.call c next) (events ++ more) outcome
  | failed {α β : Type} {c : Call β} {next : β → Script α} {error : ParseError}
      {events : List Event}
      (inside : Finishes (c.script guards mode tokens) events (.error error)) :
      Finishes (.call c next) events (.error error)

end Finishes

namespace Finishes

variable {guards : Guards} {mode : Mode} {tokens : List Token} {α β : Type}

/-- A script comes to one end only. -/
theorem unique {script : Script α} {events others : List Event}
    {outcome other : Except ParseError α}
    (first : Finishes guards mode tokens script events outcome)
    (second : Finishes guards mode tokens script others other) :
    events = others ∧ outcome = other := by
  induction first generalizing others with
  | give a =>
    cases second with
    | give => exact ⟨rfl, rfl⟩
  | ran done rest ih =>
    cases second with
    | ran done' rest' =>
      obtain rfl := Except.ok.inj (done.symm.trans done')
      obtain ⟨rfl, rfl⟩ := ih rest'
      exact ⟨rfl, rfl⟩
    | broken failed => exact absurd (done.symm.trans failed) (by simp)
  | broken failed =>
    cases second with
    | ran done rest => exact absurd (failed.symm.trans done) (by simp)
    | broken failed' =>
      obtain rfl := Except.error.inj (failed.symm.trans failed')
      exact ⟨rfl, rfl⟩
  | turn rest ih =>
    cases second with
    | turn rest' =>
      obtain ⟨rfl, rfl⟩ := ih rest'
      exact ⟨rfl, rfl⟩
  | answered inside rest ihInside ih =>
    cases second with
    | answered inside' rest' =>
      obtain ⟨rfl, same⟩ := ihInside inside'
      obtain rfl := Except.ok.inj same
      obtain ⟨rfl, rfl⟩ := ih rest'
      exact ⟨rfl, rfl⟩
    | failed inside' => exact absurd (ihInside inside').2 (by simp)
  | failed inside ih =>
    cases second with
    | answered inside' rest => exact absurd (ih inside').2 (by simp)
    | failed inside' =>
      obtain ⟨rfl, same⟩ := ih inside'
      obtain rfl := Except.error.inj same
      exact ⟨rfl, rfl⟩

theorem bind {script : Script α} {rest : α → Script β} {a : α} {events more : List Event}
    {outcome : Except ParseError β} (first : Finishes guards mode tokens script events (.ok a))
    (later : Finishes guards mode tokens (rest a) more outcome) :
    Finishes guards mode tokens (script >>= rest) (events ++ more) outcome := by
  generalize given : Except.ok a = result at first
  induction first with
  | give b =>
    obtain rfl := Except.ok.inj given
    exact later
  | ran done _ ih =>
    rw [List.append_assoc]
    exact .ran done (ih later given)
  | broken => contradiction
  | turn _ ih => exact .turn (ih later given)
  | answered inside _ _ ih =>
    rw [List.append_assoc]
    exact .answered inside (ih later given)
  | failed => contradiction

theorem bind_error {script : Script α} {rest : α → Script β} {error : ParseError}
    {events : List Event} (first : Finishes guards mode tokens script events (.error error)) :
    Finishes guards mode tokens (script >>= rest) events (.error error) := by
  generalize given : Except.error error = result at first
  induction first with
  | give => contradiction
  | ran done _ ih => exact .ran done (ih given)
  | broken failed =>
    obtain rfl := Except.error.inj given
    exact .broken failed
  | turn _ ih => exact .turn (ih given)
  | answered inside _ _ ih => exact .answered inside (ih given)
  | failed inside =>
    obtain rfl := Except.error.inj given
    exact .failed inside

end Finishes

/-- The events have these records among them, and all their turns lead to tokens further on. -/
structure Onward (events : List Event) (records : List Record) : Prop where
  made : events.filterMap Event.record? = records
  forward : ∀ pos next, .turn pos next ∈ events → pos < next

namespace Onward

variable {events later : List Event} {records more : List Record}

theorem append (first : Onward events records) (second : Onward later more) :
    Onward (events ++ later) (records ++ more) := by
  constructor
  · rw [List.filterMap_append, first.made, second.made]
  · intro pos next member
    rcases List.mem_append.mp member with here | there
    · exact first.forward pos next here
    · exact second.forward pos next there

theorem ofRecords (records : List Record) : Onward (records.map .record) records := by
  constructor
  · rw [List.filterMap_map]
    exact List.filterMap_some
  · intro pos next member
    simp at member

theorem turn {pos next : Nat} (further : pos < next) (later : Onward events records) :
    Onward (.turn pos next :: events) records := by
  constructor
  · exact later.made
  · intro p n member
    rcases List.mem_cons.mp member with here | there
    · obtain ⟨rfl, rfl⟩ := Event.turn.inj here
      exact further
    · exact later.forward p n there

end Onward

section Ends

variable {guards : Guards} {mode : Mode} {tokens : List Token}

/-- The script comes to an end as the run does: with its records, and with the value that `value`
makes of that of the run. -/
def Ends {α β : Type} (guards : Guards) (mode : Mode) (tokens : List Token) (value : α → β)
    (script : Script β) (run : Run α) : Prop :=
  ∃ events, Onward events run.records ∧
    Finishes guards mode tokens script events (run.outcome.map value)

namespace Ends

variable {α β γ δ : Type} {value : α → β} {last : γ → δ}

theorem pure (value : α → β) (a : α) :
    Ends guards mode tokens value (Pure.pure (value a)) (Pure.pure a) :=
  ⟨[], .ofRecords [], .give (value a)⟩

theorem bind {script : Script β} {run : Run α} {rest : β → Script δ} {next : α → Run γ}
    (first : Ends guards mode tokens value script run)
    (later : ∀ a, Ends guards mode tokens last (rest (value a)) (next a)) :
    Ends guards mode tokens last (script >>= rest) (run >>= next) := by
  obtain ⟨events, onward, finishes⟩ := first
  rw [Ends, Traced.bind_outcome]
  cases outcome : run.outcome with
  | error e =>
    rw [outcome] at finishes
    rw [Traced.bind_records_error outcome]
    exact ⟨events, onward, finishes.bind_error⟩
  | ok a =>
    rw [outcome] at finishes
    obtain ⟨more, onwardLater, finishesLater⟩ := later a
    rw [Traced.bind_records_ok outcome]
    exact ⟨events ++ more, onward.append onwardLater, finishes.bind finishesLater⟩

theorem ofRun (run : Run α) : Ends guards mode tokens id (Script.ofRun run) run := by
  rw [Ends, Except.map_id]
  refine ⟨run.records.map .record, .ofRecords run.records, ?_⟩
  cases outcome : run.outcome with
  | error e => exact .broken outcome
  | ok a =>
    rw [← List.append_nil (run.records.map Event.record)]
    exact .ran outcome (.give a)

theorem ofRunMap (value : α → β) (run : Run α) :
    Ends guards mode tokens value (Script.ofRun run >>= fun a => Pure.pure (value a)) run := by
  have mapped : Ends guards mode tokens value (Script.ofRun run >>= fun a => Pure.pure (value a))
      (run >>= fun a => Pure.pure a) := (ofRun run).bind fun a => .pure value a
  rw [Traced.bind_pure] at mapped
  exact mapped

theorem ask {c : Call β} {run : Run α}
    (inside : Ends guards mode tokens value (c.script guards mode tokens) run) :
    Ends guards mode tokens value (Script.ask c) run := by
  obtain ⟨events, onward, finishes⟩ := inside
  refine ⟨events, onward, ?_⟩
  cases outcome : run.outcome with
  | error e =>
    rw [outcome] at finishes
    exact .failed finishes
  | ok a =>
    rw [outcome] at finishes
    rw [← List.append_nil events]
    exact .answered finishes (.give (value a))

/-- A run does not tell of a turn. -/
theorem goOn {pos next : Nat} {rest : Script δ} {run : Run γ} (further : pos < next)
    (later : Ends guards mode tokens last rest run) :
    Ends guards mode tokens last (Script.goOn pos next >>= fun _ => rest) run := by
  obtain ⟨events, onward, finishes⟩ := later
  exact ⟨.turn pos next :: events, onward.turn further, .turn finishes⟩

theorem widen {first earlier : Nat} {script : Script (Expr × Nat)} {run : Run (Reading first)}
    (ends : Ends guards mode tokens Reading.pair script run) (before : earlier ≤ first) :
    Ends guards mode tokens Reading.pair script (run >>= fun r => Pure.pure (r.widen before)) := by
  rw [← script.bind_pure]
  exact ends.bind fun r => .pure Reading.pair (r.widen before)

end Ends

theorem clearFor_ends (p : Pending) (s : Stacks) :
    Ends guards mode tokens id (Script.clearFor guards mode p s) (s.clearFor guards mode p) := by
  -- On the number of operators that wait: each call is made with one fewer.
  induction waiting : s.operators.length using Nat.strongRecOn generalizing s with
  | ind n ih =>
    rw [Script.clearFor, Stacks.clearFor]
    cases s.operators.head? with
    | none => exact .pure id s
    | some top =>
      dsimp only
      split
      · exact .ofRun _
      · split
        · exact (Ends.ofRun _).bind fun below => .ask (ih _ (waiting ▸ below.2) below rfl)
        · exact .pure id s

theorem operator_ends (p : Pending) (s : Stacks) :
    Ends guards mode tokens id (Script.operator p s) (s.operator guards mode p) := by
  have cleared : Ends guards mode tokens id (Script.ask (.clearFor p s))
      (s.clearFor guards mode p) := .ask (clearFor_ends p s)
  rw [Script.operator, Stacks.operator]
  cases Fixity.isKnown p.spelling with
  | false =>
    refine (Ends.ofRun _).bind fun _ => cleared.bind fun s => ?_
    exact (Ends.ofRun _).bind fun _ => .pure id _
  | true =>
    refine cleared.bind fun s => ?_
    exact (Ends.ofRun _).bind fun _ => .pure id _

theorem drain_ends (s : Stacks) :
    Ends guards mode tokens id (Script.drain guards s) (s.drain guards) := by
  induction waiting : s.operators.length using Nat.strongRecOn generalizing s with
  | ind n ih =>
    rw [Script.drain, Stacks.drain]
    split
    · exact .pure id s
    · exact (Ends.ofRun _).bind fun below => .ask (ih _ (waiting ▸ below.2) below rfl)

theorem finish_ends (closing : Option Location) (s : Stacks) :
    Ends guards mode tokens id (Script.finish closing s) (s.finish guards closing) := by
  have drained : Ends guards mode tokens id (Script.ask (.drain s)) (s.drain guards) :=
    .ask (drain_ends s)
  refine drained.bind fun s => ?_
  rcases s with ⟨_ | ⟨e, _ | ⟨f, output⟩⟩, operators⟩
  · exact .ofRun _
  · exact .pure id e
  · exact .ofRun _

end Ends

/-- At the token, both loops over the tokens end as those of the bounded descent do. -/
structure Terminates (guards : Guards) (mode : Mode) (tokens : List Token) (pos : Nat) : Prop where
  level : ∀ s, Ends guards mode tokens Reading.pair (Script.level tokens pos s)
    (level guards mode tokens pos s)
  application : ∀ callee args, Ends guards mode tokens Reading.pair
    (Script.application tokens callee args pos) (application guards mode tokens callee args pos)

section Terminates

variable {guards : Guards} {mode : Mode} {tokens : List Token} {pos : Nat}

theorem enter_ends {start : Nat} (here : Terminates guards mode tokens start) :
    Ends guards mode tokens Reading.pair (Script.enter start) (enter guards mode tokens start) := by
  rw [Script.enter, enter]
  exact (Ends.ofRun _).bind fun _ => .ask (here.level .empty)

theorem group_ends (inside : pos < tokens.length)
    (below : Terminates guards mode tokens (pos + 1)) :
    Ends guards mode tokens Reading.pair (Script.group guards tokens pos)
      (group guards mode tokens pos inside) := by
  rw [Script.group, group]
  refine (Ends.ask (enter_ends below)).bind fun inner => ?_
  exact (Ends.ofRun (close guards tokens inner.tree inner.stop)).bind fun closed =>
    .pure Reading.pair (closed.widen _)

theorem level_ends (below : pos < tokens.length → ∀ n, pos < n → Terminates guards mode tokens n)
    (s : Stacks) : Ends guards mode tokens Reading.pair (Script.level tokens pos s)
      (level guards mode tokens pos s) := by
  rw [Script.level, level]
  by_cases inside : pos < tokens.length
  · have later := below inside
    have next := later _ (Nat.lt_succ_self pos)
    rw [List.getElem?_eq_getElem inside, dif_pos inside]
    dsimp only
    cases tokens[pos].kind with
    | number value => exact .goOn (Nat.lt_succ_self pos) ((Ends.ask (next.level _)).widen _)
    | operator spelling =>
      refine (operator_ends _ s).bind fun s => ?_
      exact .goOn (Nat.lt_succ_self pos) ((Ends.ask (next.level s)).widen _)
    | identifier name =>
      refine (Ends.ask (next.application name [])).bind fun r => ?_
      exact .goOn r.behind ((Ends.ask ((later r.stop r.behind).level _)).widen _)
    | opening =>
      refine (Ends.ask (group_ends inside next)).bind fun r => ?_
      exact .goOn r.behind ((Ends.ask ((later r.stop r.behind).level _)).widen _)
    | closing =>
      refine (finish_ends _ s).bind fun e => ?_
      exact (Ends.ofRun _).bind fun _ => .pure Reading.pair ⟨e, pos, Nat.le_refl pos⟩
  · rw [List.getElem?_eq_none (Nat.le_of_not_lt inside), dif_neg inside]
    refine (finish_ends _ s).bind fun e => ?_
    exact (Ends.ofRun _).bind fun _ => .pure Reading.pair ⟨e, pos, Nat.le_refl pos⟩

theorem application_ends
    (below : pos < tokens.length → ∀ n, pos < n → Terminates guards mode tokens n)
    (callee : String) (args : List Expr) :
    Ends guards mode tokens Reading.pair (Script.application tokens callee args pos)
      (application guards mode tokens callee args pos) := by
  rw [Script.application, application]
  by_cases inside : pos < tokens.length
  · have later := below inside
    have next := later _ (Nat.lt_succ_self pos)
    rw [List.getElem?_eq_getElem inside, dif_pos inside]
    dsimp only
    cases tokens[pos].kind with
    | number value =>
      exact .goOn (Nat.lt_succ_self pos) ((Ends.ask (next.application callee _)).widen _)
    | identifier name =>
      exact .goOn (Nat.lt_succ_self pos) ((Ends.ask (next.application callee _)).widen _)
    | opening =>
      refine (Ends.ask (group_ends inside next)).bind fun r => ?_
      exact .goOn r.behind ((Ends.ask ((later r.stop r.behind).application callee _)).widen _)
    | operator spelling => exact .ofRunMap Reading.pair _
    | closing => exact .ofRunMap Reading.pair _
  · rw [List.getElem?_eq_none (Nat.le_of_not_lt inside), dif_neg inside]
    exact .ofRunMap Reading.pair _

theorem terminates (guards : Guards) (mode : Mode) (tokens : List Token) (pos : Nat) :
    Terminates guards mode tokens pos := by
  -- On the number of tokens left, as the bounded descent recurses.
  induction left : tokens.length - pos using Nat.strongRecOn generalizing pos with
  | ind n ih =>
    have below : pos < tokens.length → ∀ m, pos < m → Terminates guards mode tokens m :=
      fun inside m further => ih _ (by omega) m rfl
    exact ⟨level_ends below, application_ends below⟩

end Terminates

/-- From every start the descent comes to an end, with the outcome of the reading and with a log of
its records and of turns forward. -/
theorem enter_finishes (guards : Guards) (mode : Mode) (tokens : List Token) (start : Nat) :
    ∃ log, Onward log (Parse.runFrom mode tokens start).records ∧
      Finishes guards mode tokens (Script.enter start) log (parseFrom mode tokens start) := by
  have ends : Ends guards mode tokens id (Script.enter start)
      (runFrom guards mode tokens start) := by
    rw [← (Script.enter start).bind_pure]
    exact (enter_ends (terminates guards mode tokens start)).bind fun r => .pure id r.pair
  rw [Ends, runFrom_eq, Except.map_id] at ends
  exact ends

end InfixTree.Parse.Descent
