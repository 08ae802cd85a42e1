import InfixTree.Parse

/-!
What one level makes of its tokens, told without the levels around it. `Takes` follows a level
token by token and steps over a parenthesized group as a whole: the group is a level of its own,
begun empty, whose tree comes back as an operand. A line is parsed exactly when one level takes
all of it and one tree is left.
-/
namespace InfixTree.Parse

/-! Outcomes of the operations on a level, the records left out. -/

@[simp] theorem reduce_outcome (op : Pending) (r l : Expr) (output : List Expr) :
    (reduce op (r :: l :: output)).outcome = .ok (.binary l op.spelling r :: output) := by
  simp [reduce, Except.bind]

theorem reduceAll_cons_outcome (top : Pending) (below : List Pending) (output : List Expr) :
    (reduceAll (top :: below) output).outcome =
      (reduce top output).outcome.bind fun out => (reduceAll below out).outcome := by
  simp [reduceAll]

theorem reduceBefore_cons_outcome (mode : Mode) (p top : Pending) (below : List Pending)
    (output : List Expr) :
    (reduceBefore mode p (top :: below) output).outcome =
      if mode = .strict ∧ top.fixity.clashes p.fixity then
        .error (.nonAssociativeChain top.spelling p.spelling p.location)
      else if top.fixity.reducesBefore p.fixity then
        (reduce top output).outcome.bind fun out => (reduceBefore mode p below out).outcome
      else .ok (top :: below, output) := by
  rw [reduceBefore]
  split
  · rfl
  · split
    · rw [Traced.bind_outcome]
    · rfl

/-- What the trees of a level give when it ends. -/
def onlyTree (closing : Option Location) : List Expr → Except ParseError Expr
  | [e] => .ok e
  | _ => .error (.unbalanced closing)

namespace Level

/-- The level with no application open: the last one is among the trees that were read. -/
def closed (l : Level) : Level :=
  match l.application with
  | none => l
  | some ⟨callee, args⟩ =>
    { l with output := .apply (.identifier callee) args :: l.output, application := none }

@[simp] theorem closed_operators (l : Level) : l.closed.operators = l.operators := by
  rcases l with ⟨output, operators, _ | ⟨callee, args⟩⟩ <;> rfl

@[simp] theorem closed_application (l : Level) : l.closed.application = none := by
  rcases l with ⟨output, operators, _ | ⟨callee, args⟩⟩ <;> rfl

theorem closed_of_none {l : Level} (none : l.application = .none) : l.closed = l := by
  simp [closed, none]

@[simp] theorem closeApplication_outcome (l : Level) :
    l.closeApplication.outcome = .ok l.closed := by
  rcases l with ⟨output, operators, _ | ⟨callee, _ | ⟨a, args⟩⟩⟩ <;>
    simp [closeApplication, closed, Except.bind]

theorem operator_outcome (mode : Mode) (p : Pending) (l : Level) :
    (l.operator mode p).outcome =
      (reduceBefore mode p l.operators l.closed.output).outcome.map
        fun left => ⟨left.2, p :: left.1, none⟩ := by
  cases known : Fixity.isKnown p.spelling <;>
    cases h : (reduceBefore mode p l.operators l.closed.output).outcome <;>
      simp [operator, Except.bind, Except.map, known, h]

/-- The tree that is left when the level ends, whatever ends it. -/
def Yields (l : Level) (e : Expr) : Prop :=
  (reduceAll l.operators l.closed.output).outcome = .ok [e]

theorem finish_outcome (l : Level) (closing : Option Location) :
    (l.finish closing).outcome =
      (reduceAll l.operators l.closed.output).outcome.bind (onlyTree closing) := by
  simp only [finish, Traced.bind_outcome, closeApplication_outcome, Except.bind, closed_operators]
  cases (reduceAll l.operators l.closed.output).outcome with
  | error err => rfl
  | ok output =>
    match output with
    | [] => rfl
    | [_] => rfl
    | _ :: _ :: _ => rfl

theorem finish_eq_ok_iff {l : Level} {closing : Option Location} {e : Expr} :
    (l.finish closing).outcome = .ok e ↔ l.Yields e := by
  rw [finish_outcome, Yields]
  cases (reduceAll l.operators l.closed.output).outcome with
  | error err => simp [Except.bind]
  | ok output =>
    match output with
    | [] => simp [Except.bind, onlyTree]
    | [d] => simp [Except.bind, onlyTree]
    | _ :: _ :: _ => simp [Except.bind, onlyTree]

theorem finish_map_eq_ok_iff {l : Level} {closing : Option Location} {e : Expr} {i stop : Nat} :
    ((l.finish closing).outcome.map fun d => (d, i)) = .ok (e, stop) ↔ l.Yields e ∧ stop = i := by
  rw [← @finish_eq_ok_iff l closing]
  cases (l.finish closing).outcome <;> simp [Except.map, eq_comm]

end Level

/-- The tokens lead the level from one state to another; every group among them is complete. -/
inductive Takes (mode : Mode) : Level → List Token → Level → Prop where
  | nil (l : Level) : Takes mode l [] l
  | number {l m : Level} {t : Token} {ts : List Token} {value : UInt64}
      (kind : t.kind = .number value) (rest : Takes mode (l.operand (.number value)) ts m) :
      Takes mode l (t :: ts) m
  | identifier {l m : Level} {t : Token} {ts : List Token} {name : String}
      (kind : t.kind = .identifier name) (rest : Takes mode (l.identifier name) ts m) :
      Takes mode l (t :: ts) m
  | operator {l k m : Level} {t : Token} {ts : List Token} {spelling : String}
      (kind : t.kind = .operator spelling)
      (pushed : (l.operator mode ⟨spelling, t.location⟩).outcome = .ok k)
      (rest : Takes mode k ts m) : Takes mode l (t :: ts) m
  | group {l k m : Level} {t u : Token} {inner ts : List Token} {e : Expr}
      (opens : t.kind = .opening) (inside : Takes mode .empty inner k) (yields : k.Yields e)
      (closes : u.kind = .closing) (rest : Takes mode (l.operand (.parenthesized e)) ts m) :
      Takes mode l (t :: (inner ++ u :: ts)) m

section Read

variable {mode : Mode} {t : Token} {ts : List Token} {i : Nat} {l : Level} {around : List Level}

theorem read_number {value : UInt64} (kind : t.kind = .number value) :
    (read mode ⟨i, l, around⟩ (t :: ts)).outcome =
      (read mode ⟨i + 1, l.operand (.number value), around⟩ ts).outcome := by
  simp [read, State.step, kind, State.advance, Except.bind]

theorem read_identifier {name : String} (kind : t.kind = .identifier name) :
    (read mode ⟨i, l, around⟩ (t :: ts)).outcome =
      (read mode ⟨i + 1, l.identifier name, around⟩ ts).outcome := by
  simp [read, State.step, kind, State.advance, Except.bind]

theorem read_operator {spelling : String} (kind : t.kind = .operator spelling) :
    (read mode ⟨i, l, around⟩ (t :: ts)).outcome =
      (l.operator mode ⟨spelling, t.location⟩).outcome.bind
        fun k => (read mode ⟨i + 1, k, around⟩ ts).outcome := by
  cases h : (l.operator mode ⟨spelling, t.location⟩).outcome <;>
    simp [read, State.step, kind, State.advance, Except.bind, h]

theorem read_opening (kind : t.kind = .opening) :
    (read mode ⟨i, l, around⟩ (t :: ts)).outcome =
      (read mode ⟨i + 1, .empty, l :: around⟩ ts).outcome := by
  simp [read, State.step, kind, Except.bind]

theorem read_closing_inner {below : Level} (kind : t.kind = .closing) :
    (read mode ⟨i, l, below :: around⟩ (t :: ts)).outcome =
      (l.finish (some t.location)).outcome.bind
        fun e => (read mode ⟨i + 1, below.operand (.parenthesized e), around⟩ ts).outcome := by
  cases h : (l.finish (some t.location)).outcome <;>
    simp [read, State.step, kind, Except.bind, h]

theorem read_closing_outer (kind : t.kind = .closing) :
    (read mode ⟨i, l, []⟩ (t :: ts)).outcome =
      (l.finish (some t.location)).outcome.map fun e => (e, i) := by
  cases h : (l.finish (some t.location)).outcome <;>
    simp [read, State.step, kind, Except.bind, Except.map, h]

theorem read_end_outer :
    (read mode ⟨i, l, []⟩ []).outcome = (l.finish none).outcome.map fun e => (e, i) := by
  cases h : (l.finish none).outcome <;> simp [read, State.finish, Except.bind, Except.map, h]

theorem read_end_inner {below : Level} :
    (read mode ⟨i, l, below :: around⟩ []).outcome =
      (l.finish none).outcome.bind fun _ => .error (.expectedClosing none none) := by
  cases h : (l.finish none).outcome <;> simp [read, State.finish, Except.bind, h]

theorem read_end_inner_ne_ok {below : Level} {r : Expr × Nat} :
    (read mode ⟨i, l, below :: around⟩ []).outcome ≠ .ok r := by
  rw [read_end_inner]
  cases (l.finish none).outcome <;> simp [Except.bind]

end Read

variable {mode : Mode}

theorem read_of_takes {l m : Level} {ts : List Token} (taken : Takes mode l ts m) (i : Nat)
    (around : List Level) (rest : List Token) :
    (read mode ⟨i, l, around⟩ (ts ++ rest)).outcome =
      (read mode ⟨i + ts.length, m, around⟩ rest).outcome := by
  induction taken generalizing i around rest with
  | nil l => rfl
  | number kind _ ih =>
    rw [List.cons_append, read_number kind, ih, List.length_cons, Nat.add_right_comm, Nat.add_assoc]
  | identifier kind _ ih =>
    rw [List.cons_append, read_identifier kind, ih, List.length_cons, Nat.add_right_comm,
      Nat.add_assoc]
  | operator kind pushed _ ih =>
    rw [List.cons_append, read_operator kind, pushed, List.length_cons]
    simp only [Except.bind]
    rw [ih, Nat.add_right_comm, Nat.add_assoc]
  | @group l k m t u inner ts e opens _ yields closes _ ihInside ih =>
    rw [List.cons_append, List.append_assoc, read_opening opens, ihInside, List.cons_append,
      read_closing_inner closes, Level.finish_eq_ok_iff.mpr yields]
    have length : i + (t :: (inner ++ u :: ts)).length = i + 1 + inner.length + 1 + ts.length := by
      simp only [List.length_cons, List.length_append]
      omega
    simp only [Except.bind]
    rw [ih, length]

/-- What a successful reading took before it stopped: at the end of the line, or in front of a
closing parenthesis that no group in what it took has left open. -/
theorem takes_of_read {ts : List Token} {i : Nat} {l : Level} {around : List Level}
    {r : Expr × Nat} (read_ok : (read mode ⟨i, l, around⟩ ts).outcome = .ok r) :
    ∃ taken rest m, ts = taken ++ rest ∧ Takes mode l taken m ∧
      (rest = [] ∨ ∃ u us, rest = u :: us ∧ u.kind = .closing) := by
  -- On the length, because behind a group the reading goes on after all of its tokens.
  induction h : ts.length using Nat.strongRecOn generalizing ts i l around with
  | ind n ih =>
    subst h
    match ts, read_ok with
    | [], _ => exact ⟨[], [], l, rfl, .nil l, Or.inl rfl⟩
    | t :: ts, read_ok =>
      have shorter : ts.length < (t :: ts).length := by simp
      match kind : t.kind with
      | .number value =>
        rw [read_number kind] at read_ok
        obtain ⟨taken, rest, m, rfl, takes, stop⟩ := ih _ shorter read_ok rfl
        exact ⟨t :: taken, rest, m, rfl, .number kind takes, stop⟩
      | .identifier name =>
        rw [read_identifier kind] at read_ok
        obtain ⟨taken, rest, m, rfl, takes, stop⟩ := ih _ shorter read_ok rfl
        exact ⟨t :: taken, rest, m, rfl, .identifier kind takes, stop⟩
      | .operator spelling =>
        rw [read_operator kind] at read_ok
        match pushed : (l.operator mode ⟨spelling, t.location⟩).outcome with
        | .error err => simp [pushed, Except.bind] at read_ok
        | .ok k =>
          simp only [pushed, Except.bind] at read_ok
          obtain ⟨taken, rest, m, rfl, takes, stop⟩ := ih _ shorter read_ok rfl
          exact ⟨t :: taken, rest, m, rfl, .operator kind pushed takes, stop⟩
      | .closing => exact ⟨[], t :: ts, l, rfl, .nil l, Or.inr ⟨t, ts, rfl, kind⟩⟩
      | .opening =>
        rw [read_opening kind] at read_ok
        obtain ⟨inner, rest, k, rfl, inside, stop⟩ := ih _ shorter read_ok rfl
        rw [read_of_takes inside] at read_ok
        rcases stop with rfl | ⟨u, us, rfl, closes⟩
        · exact absurd read_ok read_end_inner_ne_ok
        · rw [read_closing_inner closes] at read_ok
          match finished : (k.finish (some u.location)).outcome with
          | .error err => simp [finished, Except.bind] at read_ok
          | .ok e =>
            simp only [finished, Except.bind] at read_ok
            have shorter : us.length < (t :: (inner ++ u :: us)).length := by simp; omega
            obtain ⟨taken, rest, m, rfl, takes, stop⟩ := ih _ shorter read_ok rfl
            exact ⟨t :: (inner ++ u :: taken), rest, m, by simp,
              .group kind inside (Level.finish_eq_ok_iff.mp finished) closes takes, stop⟩

theorem parseFrom_eq_read (tokens : List Token) (start : Nat) :
    parseFrom mode tokens start =
      (read mode ⟨start, .empty, []⟩ (tokens.drop start)).outcome := by
  simp [parseFrom, runFrom, State.start, Except.bind]

/-- What the tree of the first level gives when no token, or this one, is left behind it. -/
def wholeLine (e : Expr) : Option Token → Except ParseError Expr
  | none => .ok e
  | some stray => .error (.unbalanced (some stray.location))

theorem parse_eq_bind (tokens : List Token) :
    parse mode tokens =
      (parseFrom mode tokens 0).bind fun r => wholeLine r.1 tokens[r.2]? := by
  simp only [parse, run, parseFrom, Traced.bind_outcome]
  cases (runFrom mode tokens 0).outcome with
  | error err => rfl
  | ok r =>
    simp only [Except.bind]
    cases tokens[r.2]? with
    | none => rfl
    | some stray => simp [Except.bind, wholeLine]

theorem parseFrom_eq_ok_iff {tokens : List Token} {start : Nat} {e : Expr} {stop : Nat} :
    parseFrom mode tokens start = .ok (e, stop) ↔
      ∃ taken rest m, tokens.drop start = taken ++ rest ∧ Takes mode .empty taken m ∧ m.Yields e ∧
        stop = start + taken.length ∧ (rest = [] ∨ ∃ u us, rest = u :: us ∧ u.kind = .closing) := by
  rw [parseFrom_eq_read]
  constructor
  · intro read_ok
    obtain ⟨taken, rest, m, split, takes, ends⟩ := takes_of_read read_ok
    rw [split, read_of_takes takes] at read_ok
    refine ⟨taken, rest, m, split, takes, ?_⟩
    rcases ends with rfl | ⟨u, us, rfl, closes⟩
    · rw [read_end_outer] at read_ok
      obtain ⟨yields, next⟩ := Level.finish_map_eq_ok_iff.mp read_ok
      exact ⟨yields, next, Or.inl rfl⟩
    · rw [read_closing_outer closes] at read_ok
      obtain ⟨yields, next⟩ := Level.finish_map_eq_ok_iff.mp read_ok
      exact ⟨yields, next, Or.inr ⟨u, us, rfl, closes⟩⟩
  · rintro ⟨taken, rest, m, split, takes, yields, next, ends⟩
    rw [split, read_of_takes takes]
    rcases ends with rfl | ⟨u, us, rfl, closes⟩
    · rw [read_end_outer]
      exact Level.finish_map_eq_ok_iff.mpr ⟨yields, next⟩
    · rw [read_closing_outer closes]
      exact Level.finish_map_eq_ok_iff.mpr ⟨yields, next⟩

theorem parse_eq_ok_iff_parseFrom {tokens : List Token} {e : Expr} :
    parse mode tokens = .ok e ↔
      ∃ stop, parseFrom mode tokens 0 = .ok (e, stop) ∧ tokens.length ≤ stop := by
  rw [parse_eq_bind]
  cases parseFrom mode tokens 0 with
  | error err => simp [Except.bind]
  | ok r =>
    obtain ⟨d, stop⟩ := r
    constructor
    · intro parsed
      cases stray : tokens[stop]? with
      | none =>
        have left : d = e := by simpa [Except.bind, wholeLine, stray] using parsed
        exact ⟨stop, by rw [left], List.getElem?_eq_none_iff.mp stray⟩
      | some t => simp [Except.bind, wholeLine, stray] at parsed
    · rintro ⟨_, ⟨⟩, past⟩
      simp [Except.bind, wholeLine, List.getElem?_eq_none_iff.mpr past]

theorem parse_eq_ok_iff {tokens : List Token} {e : Expr} :
    parse mode tokens = .ok e ↔ ∃ m, Takes mode .empty tokens m ∧ m.Yields e := by
  rw [parse_eq_ok_iff_parseFrom]
  constructor
  · rintro ⟨stop, from_zero, past⟩
    obtain ⟨taken, rest, m, split, takes, yields, next, ends⟩ := parseFrom_eq_ok_iff.mp from_zero
    rw [List.drop_zero] at split
    rw [Nat.zero_add] at next
    rcases ends with rfl | ⟨u, us, rfl, _⟩
    · rw [split, List.append_nil]
      exact ⟨m, takes, yields⟩
    · simp only [split, next, List.length_append, List.length_cons] at past
      omega
  · rintro ⟨m, takes, yields⟩
    exact ⟨tokens.length, parseFrom_eq_ok_iff.mpr
      ⟨tokens, [], m, by simp, takes, yields, by simp, Or.inl rfl⟩, by simp⟩

end InfixTree.Parse
