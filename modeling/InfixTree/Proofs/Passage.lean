import InfixTree.Proofs.Reductions

/-!
The states that a reading passes through, one in front of every token that it comes to. From each of
them it would end as it does, and one of them is the last: there a token ends the outermost level or
cannot be taken, or no token is left. So what every step keeps holds where the reading ends.
-/
namespace InfixTree.Parse

/-- All that one token can make of a state. -/
inductive Transition (mode : Mode) (s : State) (t : Token) : Except ParseError Move → Prop where
  | number {value : UInt64} (kind : t.kind = .number value) :
      Transition mode s t (.ok (.next (s.advance (s.level.operand (.number value)))))
  | identifier {name : String} (kind : t.kind = .identifier name) :
      Transition mode s t (.ok (.next (s.advance (s.level.identifier name))))
  | operator {spelling : String} {level : Level} (kind : t.kind = .operator spelling)
      (pushed : (s.level.operator mode ⟨spelling, t.location⟩).outcome = .ok level) :
      Transition mode s t (.ok (.next (s.advance level)))
  | refusedOperator {spelling : String} {error : ParseError} (kind : t.kind = .operator spelling)
      (refused : (s.level.operator mode ⟨spelling, t.location⟩).outcome = .error error) :
      Transition mode s t (.error error)
  | opening (kind : t.kind = .opening) :
      Transition mode s t (.ok (.next ⟨s.index + 1, .empty, s.level :: s.around⟩))
  | closing {e : Expr} {below : Level} {around : List Level} (kind : t.kind = .closing)
      (yields : s.level.Yields e) (waiting : s.around = below :: around) :
      Transition mode s t (.ok (.next ⟨s.index + 1, below.operand (.parenthesized e), around⟩))
  | stop {e : Expr} (kind : t.kind = .closing) (yields : s.level.Yields e)
      (outermost : s.around = []) : Transition mode s t (.ok (.stop e))
  | refusedClosing {error : ParseError} (kind : t.kind = .closing)
      (refused : (s.level.finish (some t.location)).outcome = .error error) :
      Transition mode s t (.error error)

theorem transition (mode : Mode) (s : State) (t : Token) :
    Transition mode s t (s.step mode t).outcome := by
  cases kind : t.kind with
  | number value =>
    simp only [State.step, kind]
    exact .number kind
  | identifier name =>
    simp only [State.step, kind]
    exact .identifier kind
  | operator spelling =>
    simp only [State.step, kind, Traced.bind_outcome]
    cases pushed : (s.level.operator mode ⟨spelling, t.location⟩).outcome with
    | error error => exact .refusedOperator kind pushed
    | ok level => exact .operator kind pushed
  | opening =>
    simp only [State.step, kind, Traced.bind_outcome]
    exact .opening kind
  | closing =>
    simp only [State.step, kind, Traced.bind_outcome]
    cases finished : (s.level.finish (some t.location)).outcome with
    | error error => exact .refusedClosing kind finished
    | ok e =>
      have yields := Level.finish_eq_ok_iff.mp finished
      cases around : s.around with
      | nil => exact .stop kind yields around
      | cons below beyond => exact .closing kind yields around

theorem transition_of_step {mode : Mode} {s : State} {t : Token} {outcome : Except ParseError Move}
    (stepped : (s.step mode t).outcome = outcome) : Transition mode s t outcome := by
  rw [← stepped]
  exact transition mode s t

theorem index_of_step {mode : Mode} {s next : State} {t : Token}
    (moved : (s.step mode t).outcome = .ok (.next next)) : next.index = s.index + 1 := by
  cases transition_of_step moved <;> rfl

/-- The reading from `start` on comes to the state. -/
inductive Passes (mode : Mode) (tokens : List Token) (start : Nat) : State → Prop where
  | start : Passes mode tokens start (.start start)
  | step {s next : State} {t : Token} (passed : Passes mode tokens start s)
      (here : tokens[s.index]? = some t) (moved : (s.step mode t).outcome = .ok (.next next)) :
      Passes mode tokens start next

/-- How a reading ends that goes no further than the state. -/
inductive EndsIn (mode : Mode) (tokens : List Token) (s : State) :
    Except ParseError (Expr × Nat) → Prop where
  | failed {t : Token} {error : ParseError} (here : tokens[s.index]? = some t)
      (refused : (s.step mode t).outcome = .error error) : EndsIn mode tokens s (.error error)
  | stopped {t : Token} {e : Expr} (here : tokens[s.index]? = some t)
      (stops : (s.step mode t).outcome = .ok (.stop e)) : EndsIn mode tokens s (.ok (e, s.index))
  | finished (past : tokens.length ≤ s.index) :
      EndsIn mode tokens s (s.finish.outcome.map fun e => (e, s.index))

variable {mode : Mode} {tokens : List Token} {start : Nat} {s : State}

theorem read_step {t : Token} (here : tokens[s.index]? = some t) :
    (read mode s (tokens.drop s.index)).outcome = (s.step mode t).outcome.bind fun
      | .next next => (read mode next (tokens.drop (s.index + 1))).outcome
      | .stop e => .ok (e, s.index) := by
  obtain ⟨inside, rfl⟩ := List.getElem?_eq_some_iff.mp here
  rw [List.drop_eq_getElem_cons inside, read, Traced.bind_outcome]
  congr 1
  funext move
  cases move <;> rfl

theorem read_past (past : tokens.length ≤ s.index) :
    (read mode s (tokens.drop s.index)).outcome = s.finish.outcome.map fun e => (e, s.index) := by
  rw [List.drop_eq_nil_of_le past, read, Traced.bind_outcome]
  cases s.finish.outcome <;> rfl

/-- A reading goes on from every state that it passes. -/
theorem parseFrom_of_passes (passed : Passes mode tokens start s) :
    parseFrom mode tokens start = (read mode s (tokens.drop s.index)).outcome := by
  induction passed with
  | start => exact parseFrom_eq_read tokens start
  | step passed here moved ih =>
    rw [ih, read_step here, moved, index_of_step moved]
    rfl

theorem endsIn_of_passes (passed : Passes mode tokens start s) :
    ∃ last, Passes mode tokens start last ∧
      EndsIn mode tokens last (read mode s (tokens.drop s.index)).outcome := by
  -- On the number of tokens left, since each step takes one.
  induction left : tokens.length - s.index using Nat.strongRecOn generalizing s with
  | ind n ih =>
    by_cases past : tokens.length ≤ s.index
    · refine ⟨s, passed, ?_⟩
      rw [read_past past]
      exact .finished past
    · have here : tokens[s.index]? = some tokens[s.index] := List.getElem?_eq_getElem (by omega)
      cases stepped : (s.step mode tokens[s.index]).outcome with
      | error error =>
        refine ⟨s, passed, ?_⟩
        rw [read_step here, stepped]
        exact .failed here stepped
      | ok move =>
        cases move with
        | stop e =>
          refine ⟨s, passed, ?_⟩
          rw [read_step here, stepped]
          exact .stopped here stepped
        | next next =>
          have index := index_of_step stepped
          rw [read_step here, stepped, ← index]
          exact ih _ (by omega) (.step passed here stepped) rfl

/-- Every reading ends in a state that it passes. -/
theorem exists_last_state (mode : Mode) (tokens : List Token) (start : Nat) :
    ∃ s, Passes mode tokens start s ∧ EndsIn mode tokens s (parseFrom mode tokens start) := by
  rw [parseFrom_of_passes .start]
  exact endsIn_of_passes .start

theorem parseFrom_of_endsIn {outcome : Except ParseError (Expr × Nat)}
    (passed : Passes mode tokens start s) (ends : EndsIn mode tokens s outcome) :
    parseFrom mode tokens start = outcome := by
  rw [parseFrom_of_passes passed]
  cases ends with
  | failed here refused =>
    rw [read_step here, refused]
    rfl
  | stopped here stops =>
    rw [read_step here, stops]
    rfl
  | finished past => exact read_past past

/-! ### More tokens -/

/-- With more tokens behind them, the same ones lead through the same states. -/
theorem passes_append (passed : Passes mode tokens start s) (more : List Token) :
    Passes mode (tokens ++ more) start s := by
  induction passed with
  | start => exact .start
  | step _ here moved ih =>
    have bound := (List.getElem?_eq_some_iff.mp here).1
    exact .step ih (by rw [List.getElem?_append_left bound, here]) moved

/-- Where a token has ended the reading, it does not matter what follows. -/
theorem EndsIn.append {outcome : Except ParseError (Expr × Nat)} (ends : EndsIn mode tokens s outcome)
    (inside : s.index < tokens.length) (more : List Token) :
    EndsIn mode (tokens ++ more) s outcome := by
  have same : (tokens ++ more)[s.index]? = tokens[s.index]? := List.getElem?_append_left inside
  cases ends with
  | failed here refused => exact .failed (same.trans here) refused
  | stopped here stops => exact .stopped (same.trans here) stops
  | finished past => exact absurd past (Nat.not_le_of_lt inside)

/-! ### Errors -/

/-- The errors with which a reading can end in the state: an operator that waits lacks an operand or
clashes with the token, the token closes a level without a tree, or the line ends too early. -/
inductive Refuses (tokens : List Token) (s : State) : ParseError → Prop where
  | waiting {p : Pending} (member : p ∈ s.level.operators) :
      Refuses tokens s (.unbalanced (some p.location))
  | chain {p : Pending} {t : Token} {spelling : String} (member : p ∈ s.level.operators)
      (here : tokens[s.index]? = some t) (kind : t.kind = .operator spelling)
      (clash : p.fixity.clashes (.lookup spelling)) :
      Refuses tokens s (.nonAssociativeChain p.spelling spelling t.location)
  | closing {t : Token} (here : tokens[s.index]? = some t) (kind : t.kind = .closing) :
      Refuses tokens s (.unbalanced (some t.location))
  | short (past : tokens.length ≤ s.index) : Refuses tokens s (.unbalanced none)
  | unclosed {below : Level} {around : List Level} (past : tokens.length ≤ s.index)
      (waiting : s.around = below :: around) : Refuses tokens s (.expectedClosing none none)

theorem refuses_of_step {t : Token} {error : ParseError} (here : tokens[s.index]? = some t)
    (refused : (s.step mode t).outcome = .error error) : Refuses tokens s error := by
  cases transition_of_step refused with
  | refusedOperator kind refused =>
    obtain ⟨p, member, rfl | ⟨clash, rfl⟩⟩ := Level.error_of_operator refused
    · exact .waiting member
    · exact .chain member here kind clash
  | refusedClosing kind refused =>
    rcases Level.error_of_finish refused with rfl | ⟨p, member, rfl⟩
    · exact .closing here kind
    · exact .waiting member

theorem refuses_of_finish {error : ParseError} (past : tokens.length ≤ s.index)
    (refused : s.finish.outcome = .error error) : Refuses tokens s error := by
  rw [State.finish, Traced.bind_outcome] at refused
  rcases bind_eq_error_iff.mp refused with here | ⟨e, -, unclosed⟩
  · rcases Level.error_of_finish here with rfl | ⟨p, member, rfl⟩
    · exact .short past
    · exact .waiting member
  · cases around : s.around with
    | nil =>
      rw [around] at unclosed
      contradiction
    | cons below beyond =>
      rw [around] at unclosed
      obtain rfl : ParseError.expectedClosing none none = error := Except.error.inj unclosed
      exact .unclosed past around

theorem EndsIn.refuses {outcome : Except ParseError (Expr × Nat)} {error : ParseError}
    (ends : EndsIn mode tokens s outcome) (failed : outcome = .error error) :
    Refuses tokens s error := by
  cases ends with
  | failed here refused =>
    obtain rfl := Except.error.inj failed
    exact refuses_of_step here refused
  | stopped here stops => contradiction
  | finished past => exact refuses_of_finish past (map_eq_error_iff.mp failed)

/-- Every error of a reading comes up in a state that it passes, and stays the same whatever follows
the token at which it came up. -/
theorem exists_refusing_state {error : ParseError}
    (failed : parseFrom mode tokens start = .error error) :
    ∃ s, Passes mode tokens start s ∧ Refuses tokens s error ∧
      (s.index < tokens.length → ∀ more, parseFrom mode (tokens ++ more) start = .error error) := by
  obtain ⟨s, passed, ends⟩ := exists_last_state mode tokens start
  refine ⟨s, passed, ends.refuses failed, fun inside more => ?_⟩
  rw [failed] at ends
  exact parseFrom_of_endsIn (passes_append passed more) (ends.append inside more)

/-- The token at which the first level of a line ends closes no group of it. -/
theorem closing_of_stop {e : Expr} {stop : Nat} {t : Token}
    (read : parseFrom mode tokens start = .ok (e, stop)) (here : tokens[stop]? = some t) :
    t.kind = .closing := by
  obtain ⟨s, passed, ends⟩ := exists_last_state mode tokens start
  generalize parseFrom mode tokens start = outcome at read ends
  cases ends with
  | failed here refused => contradiction
  | @stopped u e there stops =>
    obtain ⟨-, rfl⟩ := Prod.mk.inj (Except.ok.inj read)
    obtain rfl := Option.some.inj (here.symm.trans there)
    cases transition_of_step stops with
    | stop kind _ _ => exact kind
  | finished past =>
    obtain ⟨d, -, same⟩ := map_eq_ok_iff.mp read
    obtain ⟨-, rfl⟩ := Prod.mk.inj same
    have inside := (List.getElem?_eq_some_iff.mp here).1
    omega

theorem parse_of_error {error : ParseError} (failed : parseFrom mode tokens 0 = .error error) :
    parse mode tokens = .error error := by
  rw [parse_eq_bind, failed]
  rfl

/-- A line without a tree has none in its first level, or a token behind that level. -/
theorem parse_eq_error {error : ParseError} (failed : parse mode tokens = .error error) :
    parseFrom mode tokens 0 = .error error ∨ ∃ (i : Nat) (t : Token), tokens[i]? = some t ∧
      t.kind = .closing ∧ error = .unbalanced (some t.location) := by
  rw [parse_eq_bind] at failed
  rcases bind_eq_error_iff.mp failed with first | ⟨r, read, behind⟩
  · exact .inl first
  · cases here : tokens[r.2]? with
    | none =>
      rw [here] at behind
      contradiction
    | some t =>
      rw [here] at behind
      exact .inr ⟨r.2, t, here, closing_of_stop read here, (Except.error.inj behind).symm⟩

end InfixTree.Parse
