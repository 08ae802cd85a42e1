import InfixTree.Proofs.Records

/-!
The reading as a recursive descent: a level calls itself for each group in it, and an application
collects its arguments in a loop of its own. Such a reading has branches for what should not happen:
a group that ends at another token than a closing parenthesis, and a reduction without an operator.
Whatever these do, the descent makes the same records and has the same outcome as the reading with
the levels on a stack. So it never comes to them.
-/
namespace InfixTree.Parse.Descent

/-- What the branches do that no line leads to. -/
structure Guards where
  /-- A group ends at a token that is no closing parenthesis. -/
  unexpected : Token → ParseError
  /-- No operator is left that could reduce. -/
  noOperator : ParseError

/-- The errors that the branches are there for. -/
def Guards.usual : Guards :=
  ⟨fun t => .expectedClosing (some t.kind) (some t.location), .unbalanced none⟩

/-- The stacks of a level, newest first. -/
structure Stacks where
  output : List Expr
  operators : List Pending

/-- A tree that was read from the token `first` on, and the index behind it. -/
structure Reading (first : Nat) where
  tree : Expr
  stop : Nat
  behind : first ≤ stop

def Reading.widen {first earlier : Nat} (r : Reading first) (before : earlier ≤ first) :
    Reading earlier :=
  ⟨r.tree, r.stop, Nat.le_trans before r.behind⟩

namespace Stacks

variable (guards : Guards) (mode : Mode)

def empty : Stacks := ⟨[], []⟩

def push (e : Expr) (s : Stacks) : Stacks := { s with output := e :: s.output }

/-- Takes the newest operator and gives it its operands. -/
def reduceTop (s : Stacks) : Run { below : Stacks // below.operators.length < s.operators.length } :=
  match s with
  | ⟨_, []⟩ => Traced.fail guards.noOperator
  | ⟨output, op :: below⟩ => do
    let output ← reduce op output
    pure ⟨⟨output, below⟩, Nat.lt_succ_self below.length⟩

def clearFor (incoming : Pending) (s : Stacks) : Run Stacks :=
  match s.operators.head? with
  | none => pure s
  | some top =>
    if mode = .strict ∧ top.fixity.clashes incoming.fixity then
      Traced.fail (.nonAssociativeChain top.spelling incoming.spelling incoming.location)
    else if top.fixity.reducesBefore incoming.fixity then do
      let below ← s.reduceTop guards
      clearFor incoming below.1
    else pure s
termination_by s.operators.length
decreasing_by exact below.2

def operator (incoming : Pending) (s : Stacks) : Run Stacks := do
  unless Fixity.isKnown incoming.spelling do Traced.emit (.unknownOperator incoming.spelling)
  let s ← s.clearFor guards mode incoming
  Traced.emit (.pushing incoming.spelling incoming.fixity)
  pure { s with operators := incoming :: s.operators }

def drain (s : Stacks) : Run Stacks :=
  if s.operators.isEmpty then pure s
  else do
    let below ← s.reduceTop guards
    drain below.1
termination_by s.operators.length
decreasing_by exact below.2

def finish (closing : Option Location) (s : Stacks) : Run Expr := do
  let s ← s.drain guards
  match s.output with
  | [e] => pure e
  | _ => Traced.fail (.unbalanced closing)

end Stacks

variable (guards : Guards) (mode : Mode) (tokens : List Token)

/-- The end of a group whose level ended in front of the token `stop`. -/
def close (inner : Expr) (stop : Nat) : Run (Reading (stop + 1)) :=
  match tokens[stop]? with
  | some t =>
    if t.kind = .closing then pure ⟨.parenthesized inner, stop + 1, Nat.le_refl _⟩
    else Traced.fail (guards.unexpected t)
  | none => Traced.fail (.expectedClosing none none)

/-- The application with all its arguments, which end in front of the token `pos`. -/
def applied (callee : String) (args : List Expr) (pos : Nat) : Run (Reading pos) := do
  unless args.isEmpty do Traced.emit (.applying callee args.length)
  pure ⟨.apply (.identifier callee) args, pos, Nat.le_refl pos⟩

-- Without a token in between, `enter` calls `level`, and `level` and `application` call `group`. All
-- other calls are for a token further on, where a call that has returned says how far it went.
mutual

/-- The level that begins at the token `start`. -/
def enter (start : Nat) : Run (Reading start) := do
  Traced.emit (.entering start)
  level start .empty
termination_by 4 * (tokens.length - start) + 3

/-- The rest of a level, from the token `pos` on. -/
def level (pos : Nat) (s : Stacks) : Run (Reading pos) :=
  if inside : pos < tokens.length then
    match tokens[pos].kind with
    | .number value => do
      let rest ← level (pos + 1) (s.push (.number value))
      pure (rest.widen (Nat.le_succ pos))
    | .operator spelling => do
      let s ← s.operator guards mode ⟨spelling, tokens[pos].location⟩
      let rest ← level (pos + 1) s
      pure (rest.widen (Nat.le_succ pos))
    | .identifier name => do
      let applied ← application name [] (pos + 1)
      have := applied.behind
      let rest ← level applied.stop (s.push applied.tree)
      pure (rest.widen (Nat.le_of_lt applied.behind))
    | .opening => do
      let inner ← group pos inside
      have := inner.behind
      let rest ← level inner.stop (s.push inner.tree)
      pure (rest.widen (Nat.le_of_lt inner.behind))
    | .closing => do
      let e ← s.finish guards (some tokens[pos].location)
      Traced.emit (.leavingAtClosing pos)
      pure ⟨e, pos, Nat.le_refl pos⟩
  else do
    let e ← s.finish guards none
    Traced.emit .leavingAtEnd
    pure ⟨e, pos, Nat.le_refl pos⟩
termination_by 4 * (tokens.length - pos) + 2

/-- The group that opens at the token. -/
def group (opening : Nat) (_ : opening < tokens.length) : Run (Reading (opening + 1)) := do
  let inner ← enter (opening + 1)
  let closed ← close guards tokens inner.tree inner.stop
  pure (closed.widen (Nat.le_succ_of_le inner.behind))
termination_by 4 * (tokens.length - opening)

/-- The application that has these arguments in front of the token `pos`. -/
def application (callee : String) (args : List Expr) (pos : Nat) : Run (Reading pos) :=
  if inside : pos < tokens.length then
    match tokens[pos].kind with
    | .number value => do
      let rest ← application callee (args ++ [.number value]) (pos + 1)
      pure (rest.widen (Nat.le_succ pos))
    | .identifier name => do
      let rest ← application callee (args ++ [.identifier name]) (pos + 1)
      pure (rest.widen (Nat.le_succ pos))
    | .opening => do
      let arg ← group pos inside
      have := arg.behind
      let rest ← application callee (args ++ [arg.tree]) arg.stop
      pure (rest.widen (Nat.le_of_lt arg.behind))
    | .operator _ | .closing => applied callee args pos
  else applied callee args pos
termination_by 4 * (tokens.length - pos) + 1

end

namespace Stacks

/-- The level with these stacks and no application that is open. -/
def asLevel (s : Stacks) : Level := ⟨s.output, s.operators, none⟩

def applying (s : Stacks) (callee : String) (args : List Expr) : Level :=
  ⟨s.output, s.operators, some ⟨callee, args⟩⟩

variable {guards : Guards} {mode : Mode}

theorem clearFor_eq (p : Pending) (operators : List Pending) (output : List Expr) :
    clearFor guards mode p ⟨output, operators⟩ =
      reduceBefore mode p operators output >>= fun left => pure ⟨left.2, left.1⟩ := by
  induction operators generalizing output with
  | nil =>
    rw [clearFor]
    rfl
  | cons top below ih =>
    rw [clearFor, reduceBefore]
    simp only [List.head?_cons]
    split
    · rfl
    · split
      · simp only [reduceTop, Traced.bind_assoc, Traced.pure_bind, ih]
      · rfl

theorem drain_eq (operators : List Pending) (output : List Expr) :
    drain guards ⟨output, operators⟩ = reduceAll operators output >>= fun out => pure ⟨out, []⟩ := by
  induction operators generalizing output with
  | nil =>
    rw [drain]
    rfl
  | cons top below ih =>
    rw [drain, reduceAll]
    simp only [List.isEmpty_cons, Bool.false_eq_true, if_false, reduceTop, Traced.bind_assoc,
      Traced.pure_bind, ih]

theorem operator_eq (guards : Guards) (s : Stacks) (p : Pending) :
    s.asLevel.operator mode p =
      s.operator guards mode p >>= fun after => pure after.asLevel := by
  have closed : s.asLevel.closeApplication = pure s.asLevel := rfl
  rw [Level.operator, operator, closed, clearFor_eq]
  cases Fixity.isKnown p.spelling <;>
    simp only [Bool.false_eq_true, if_false, if_true, Traced.bind_assoc, Traced.pure_bind] <;> rfl

theorem finish_eq (guards : Guards) (s : Stacks) (closing : Option Location) :
    s.asLevel.finish closing = s.finish guards closing := by
  rw [Level.finish, finish, drain_eq]
  simp only [Traced.bind_assoc, Traced.pure_bind]
  rfl

theorem closeApplication_applying (s : Stacks) (callee : String) (args : List Expr) (pos : Nat) :
    (s.applying callee args).closeApplication =
      applied callee args pos >>= fun r => pure (s.push r.tree).asLevel := by
  cases args <;> rfl

end Stacks

theorem applied_congr {α : Type} {callee : String} {args : List Expr} {pos : Nat}
    {f g : Reading pos → Run α}
    (same : ∀ r : Reading pos, r.stop = pos → f r = g r) :
    applied callee args pos >>= f = applied callee args pos >>= g := by
  have here := same ⟨.apply (.identifier callee) args, pos, Nat.le_refl pos⟩ rfl
  cases args with
  | nil => exact here
  | cons a rest =>
    exact congrArg (fun after => Traced.emit (.applying callee (a :: rest).length) >>= fun _ => after)
      here

/-- What the levels around a level make of its tree and of the index at which it ended. -/
def resume (e : Expr) (stop : Nat) : List Level → Run (Expr × Nat)
  | [] => pure (e, stop)
  | below :: around => do
    let closed ← close guards tokens e stop
    read mode ⟨closed.stop, below.operand closed.tree, around⟩ (tokens.drop closed.stop)

/-- At the token the stacked levels read what the descent reads. -/
structure Agrees (pos : Nat) : Prop where
  level : ∀ s around, read mode ⟨pos, s.asLevel, around⟩ (tokens.drop pos) =
    level guards mode tokens pos s >>= fun r => resume guards mode tokens r.tree r.stop around
  application : ∀ (s : Stacks) callee args around,
    read mode ⟨pos, s.applying callee args, around⟩ (tokens.drop pos) =
      application guards mode tokens callee args pos >>= fun r =>
        read mode ⟨r.stop, (s.push r.tree).asLevel, around⟩ (tokens.drop r.stop)

section Agrees

variable {guards mode tokens} {pos : Nat} {around : List Level}

theorem read_group {l : Level} (inside : pos < tokens.length) (opens : tokens[pos].kind = .opening)
    (below : Agrees guards mode tokens (pos + 1)) :
    read mode ⟨pos, l, around⟩ (tokens.drop pos) =
      group guards mode tokens pos inside >>= fun r =>
        read mode ⟨r.stop, l.operand r.tree, around⟩ (tokens.drop r.stop) := by
  have entered : read mode ⟨pos + 1, .empty, l :: around⟩ (tokens.drop (pos + 1)) = _ :=
    below.level .empty (l :: around)
  rw [List.drop_eq_getElem_cons inside, run_opening opens, entered, group, enter]
  simp only [Traced.bind_assoc, Traced.pure_bind]
  rfl

/-- The token, or the end of the line, closes the application that is open. -/
def EndsApplication (tokens : List Token) (pos : Nat) : Prop :=
  ∀ t, tokens[pos]? = some t → (∃ spelling, t.kind = .operator spelling) ∨ t.kind = .closing

/-- The application is closed first, and all else depends on the level that this gives. -/
theorem read_of_ends (mode : Mode) (around : List Level) (ends : EndsApplication tokens pos) :
    ∃ next, ∀ l, read mode ⟨pos, l, around⟩ (tokens.drop pos) =
      l.closeApplication >>= next := by
  by_cases inside : pos < tokens.length
  · rw [List.drop_eq_getElem_cons inside]
    rcases ends _ (List.getElem?_eq_getElem inside) with ⟨spelling, kind⟩ | kind
    · exact ⟨_, fun l => (run_operator kind).trans (Traced.bind_assoc l.closeApplication _ _)⟩
    · cases around with
      | nil =>
        exact ⟨_, fun l => (run_closing_outer kind).trans (Traced.bind_assoc l.closeApplication _ _)⟩
      | cons below around =>
        exact ⟨_, fun l => (run_closing_inner kind).trans (Traced.bind_assoc l.closeApplication _ _)⟩
  · rw [List.drop_eq_nil_of_le (Nat.le_of_not_lt inside)]
    cases around with
    | nil => exact ⟨_, fun l => run_end_outer.trans (Traced.bind_assoc l.closeApplication _ _)⟩
    | cons below around =>
      exact ⟨_, fun l => run_end_inner.trans (Traced.bind_assoc l.closeApplication _ _)⟩

theorem read_applied (s : Stacks) (callee : String) (args : List Expr)
    (ends : EndsApplication tokens pos) :
    read mode ⟨pos, s.applying callee args, around⟩ (tokens.drop pos) =
      applied callee args pos >>= fun r =>
        read mode ⟨r.stop, (s.push r.tree).asLevel, around⟩ (tokens.drop r.stop) := by
  obtain ⟨next, reads⟩ := read_of_ends mode around ends
  rw [reads, s.closeApplication_applying callee args pos, Traced.bind_assoc]
  refine applied_congr fun r same => ?_
  rw [same, reads]
  rfl

theorem read_level (below : pos < tokens.length → ∀ n, pos < n → Agrees guards mode tokens n)
    (s : Stacks) : read mode ⟨pos, s.asLevel, around⟩ (tokens.drop pos) =
      level guards mode tokens pos s >>= fun r =>
        resume guards mode tokens r.tree r.stop around := by
  by_cases inside : pos < tokens.length
  · have later := below inside
    have next := later _ (Nat.lt_succ_self pos)
    rw [level, dif_pos inside]
    cases kind : tokens[pos].kind with
    | number value =>
      rw [List.drop_eq_getElem_cons inside, run_number kind]
      simp only [Traced.bind_assoc, Traced.pure_bind]
      exact next.level (s.push (.number value)) around
    | operator spelling =>
      rw [List.drop_eq_getElem_cons inside, run_operator kind, s.operator_eq guards]
      simp only [Traced.bind_assoc, Traced.pure_bind]
      exact bind_congr fun after => next.level after around
    | identifier name =>
      rw [List.drop_eq_getElem_cons inside, run_identifier kind]
      simp only [Traced.bind_assoc, Traced.pure_bind]
      refine (next.application s name [] around).trans (bind_congr fun r => ?_)
      exact (later r.stop r.behind).level (s.push r.tree) around
    | opening =>
      rw [read_group inside kind next]
      simp only [Traced.bind_assoc, Traced.pure_bind]
      refine bind_congr fun r => ?_
      exact (later r.stop r.behind).level (s.push r.tree) around
    | closing =>
      have here := List.getElem?_eq_getElem inside
      rw [List.drop_eq_getElem_cons inside]
      cases around with
      | nil =>
        rw [run_closing_outer kind, s.finish_eq guards]
        simp only [Traced.bind_assoc, Traced.pure_bind]
        rfl
      | cons below around =>
        rw [run_closing_inner kind, s.finish_eq guards]
        simp only [Traced.bind_assoc, Traced.pure_bind, resume, close, here, kind, if_true]
  · have past := Nat.le_of_not_lt inside
    have none := List.getElem?_eq_none past
    rw [level, dif_neg inside, List.drop_eq_nil_of_le past]
    cases around with
    | nil =>
      rw [run_end_outer, s.finish_eq guards]
      simp only [Traced.bind_assoc, Traced.pure_bind]
      rfl
    | cons below around =>
      rw [run_end_inner, s.finish_eq guards]
      simp only [Traced.bind_assoc, Traced.pure_bind, resume, close, none]
      rfl

theorem read_application (below : pos < tokens.length → ∀ n, pos < n → Agrees guards mode tokens n)
    (s : Stacks) (callee : String) (args : List Expr) :
    read mode ⟨pos, s.applying callee args, around⟩ (tokens.drop pos) =
      application guards mode tokens callee args pos >>= fun r =>
        read mode ⟨r.stop, (s.push r.tree).asLevel, around⟩ (tokens.drop r.stop) := by
  by_cases inside : pos < tokens.length
  · have later := below inside
    have next := later _ (Nat.lt_succ_self pos)
    have here := List.getElem?_eq_getElem inside
    rw [application, dif_pos inside]
    cases kind : tokens[pos].kind with
    | number value =>
      rw [List.drop_eq_getElem_cons inside, run_number kind]
      simp only [Traced.bind_assoc, Traced.pure_bind]
      exact next.application s callee (args ++ [.number value]) around
    | identifier name =>
      rw [List.drop_eq_getElem_cons inside, run_identifier kind]
      simp only [Traced.bind_assoc, Traced.pure_bind]
      exact next.application s callee (args ++ [.identifier name]) around
    | opening =>
      rw [read_group inside kind next]
      simp only [Traced.bind_assoc, Traced.pure_bind]
      refine bind_congr fun r => ?_
      exact (later r.stop r.behind).application s callee (args ++ [r.tree]) around
    | operator spelling =>
      refine read_applied s callee args fun t at_pos => .inl ⟨spelling, ?_⟩
      rw [← kind, Option.some.inj (here.symm.trans at_pos)]
    | closing =>
      refine read_applied s callee args fun t at_pos => .inr ?_
      rw [← kind, Option.some.inj (here.symm.trans at_pos)]
  · rw [application, dif_neg inside]
    refine read_applied s callee args fun t at_pos => ?_
    exact absurd (List.getElem?_eq_some_iff.mp at_pos).1 inside

end Agrees

theorem agrees (pos : Nat) : Agrees guards mode tokens pos := by
  -- On the number of tokens left: a level and an application go on behind the token that they are at.
  induction left : tokens.length - pos using Nat.strongRecOn generalizing pos with
  | ind n ih =>
    have below : pos < tokens.length → ∀ m, pos < m → Agrees guards mode tokens m :=
      fun inside m further => ih _ (by omega) m rfl
    exact ⟨fun s around => read_level below s,
      fun s callee args around => read_application below s callee args⟩

/-- The descent from `start` on, whatever its branches do that no line leads to. -/
def runFrom (start : Nat) : Run (Expr × Nat) := do
  let r ← enter guards mode tokens start
  pure (r.tree, r.stop)

theorem runFrom_eq (start : Nat) :
    runFrom guards mode tokens start = Parse.runFrom mode tokens start := by
  have read : Parse.read mode (.start start) (tokens.drop start) = _ :=
    (agrees guards mode tokens start).level .empty []
  rw [runFrom, Parse.runFrom, enter, read, Traced.bind_assoc]
  rfl

end InfixTree.Parse.Descent
