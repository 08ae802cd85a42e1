import InfixTree.Proofs.Levels

/-!
A complete group is one operand for what stands around it. From the group on, a reading is followed
for all trees at once that may be filled in: it fails in one way for all of them, or goes on with
one place that holds the tree. So what is inside a group, and the mode it was read in, shows nowhere
else.
-/
namespace InfixTree

/-- A tree with one place left open. -/
inductive Expr.Context where
  | hole
  | callee (inner : Context) (args : List Expr)
  | argument (applied : Expr) (before : List Expr) (inner : Context) (after : List Expr)
  | parenthesized (inner : Context)
  | left (inner : Context) (operator : String) (r : Expr)
  | right (l : Expr) (operator : String) (inner : Context)
  deriving Repr

/-- The tree with `d` in the open place. -/
def Expr.Context.fill : Expr.Context → Expr → Expr
  | .hole, d => d
  | .callee inner args, d => .application (inner.fill d) args
  | .argument applied before inner after, d =>
    .application applied (before ++ inner.fill d :: after)
  | .parenthesized inner, d => .parenthesized (inner.fill d)
  | .left inner operator r, d => .binary (inner.fill d) operator r
  | .right l operator inner, d => .binary l operator (inner.fill d)

namespace Parse

/-- Whichever tree is filled in, the run fails in the same way, or gives one thing around the
tree. -/
def Uniform {σ τ : Type} (fill : σ → Expr → τ) (run : Expr → Except ParseError τ) : Prop :=
  (∃ error, ∀ d, run d = .error error) ∨ ∃ s, ∀ d, run d = .ok (fill s d)

section Uniform

variable {σ τ υ φ : Type} {fill : σ → Expr → τ} {run : Expr → Except ParseError τ}

theorem uniform_ok (s : σ) : Uniform fill fun d => .ok (fill s d) := Or.inr ⟨s, fun _ => rfl⟩

theorem uniform_error (error : ParseError) : Uniform fill fun _ => .error error :=
  Or.inl ⟨error, fun _ => rfl⟩

theorem uniform_const (outcome : Except ParseError τ) :
    Uniform (fun x _ => x) fun _ => outcome := by
  cases outcome with
  | error error => exact uniform_error error
  | ok x => exact uniform_ok x

theorem Uniform.bind {fill' : υ → Expr → φ} {next : τ → Except ParseError φ}
    (first : Uniform fill run) (after : ∀ s, Uniform fill' fun d => next (fill s d)) :
    Uniform fill' fun d => (run d).bind next := by
  rcases first with ⟨error, fails⟩ | ⟨s, gives⟩
  · simp only [fails, Except.bind]
    exact uniform_error error
  · simp only [gives, Except.bind]
    exact after s

end Uniform

/-- Trees in a row, one of them with a place left open. -/
structure Row where
  before : List Expr
  context : Expr.Context
  after : List Expr
  deriving Repr

def Row.fill (row : Row) (d : Expr) : List Expr := row.before ++ row.context.fill d :: row.after

theorem reduce_row (op : Pending) (row : Row) :
    Uniform Row.fill fun d => (reduce op (row.fill d)).outcome := by
  rcases row with ⟨before, context, after⟩
  match before with
  | [] =>
    cases after with
    | nil => exact uniform_error (.unbalanced (some op.location))
    | cons l under =>
      exact .inr ⟨⟨[], .right l op.spelling context, under⟩, fun d => reduce_outcome op _ l under⟩
  | [r] =>
    exact .inr ⟨⟨[], .left context op.spelling r, after⟩, fun d => reduce_outcome op r _ after⟩
  | r :: l :: under =>
    exact .inr ⟨⟨.binary l op.spelling r :: under, context, after⟩,
      fun d => reduce_outcome op r l _⟩

theorem reduceAll_row (operators : List Pending) (row : Row) :
    Uniform Row.fill fun d => (reduceAll operators (row.fill d)).outcome := by
  induction operators generalizing row with
  | nil => exact uniform_ok row
  | cons top below ih =>
    simp only [reduceAll_cons_outcome]
    exact (reduce_row top row).bind ih

theorem reduceBefore_row (mode : Mode) (p : Pending) (operators : List Pending) (row : Row) :
    Uniform (fun (left : List Pending × Row) d => (left.1, left.2.fill d))
      fun d => (reduceBefore mode p operators (row.fill d)).outcome := by
  induction operators generalizing row with
  | nil => exact uniform_ok (⟨[], row⟩ : List Pending × Row)
  | cons top below ih =>
    simp only [reduceBefore_cons_outcome]
    by_cases clash : mode = .strict ∧ top.fixity.clashes p.fixity
    · simp only [if_pos clash]
      exact uniform_error _
    · simp only [if_neg clash]
      by_cases goes : top.fixity.reducesBefore p.fixity
      · simp only [if_pos goes]
        exact (reduce_row top row).bind ih
      · simp only [if_neg goes]
        exact uniform_ok (⟨top :: below, row⟩ : List Pending × Row)

theorem onlyTree_row (closing : Option Location) (row : Row) :
    Uniform Expr.Context.fill fun d => onlyTree closing (row.fill d) := by
  rcases row with ⟨before, context, after⟩
  match before, after with
  | [], [] => exact uniform_ok context
  | [], _ :: _ => exact uniform_error _
  | [_], _ => exact uniform_error _
  | _ :: _ :: _, _ => exact uniform_error _

/-- A level with a place left open, in one of its trees or of the arguments it is collecting. -/
inductive OpenLevel where
  | output (operators : List Pending) (application : Option Application) (row : Row)
  | argument (trees : List Expr) (operators : List Pending) (callee : String) (row : Row)
  deriving Repr

namespace OpenLevel

def fill : OpenLevel → Expr → Level
  | .output operators application row, d => ⟨row.fill d, operators, application⟩
  | .argument trees operators callee row, d => ⟨trees, operators, some ⟨callee, row.fill d⟩⟩

def operators : OpenLevel → List Pending
  | .output operators _ _ | .argument _ operators _ _ => operators

/-- The trees of the level once no application is open. -/
def trees : OpenLevel → Row
  | .output _ none row => row
  | .output _ (some ⟨callee, args⟩) row =>
    { row with before := .apply (.identifier callee) args :: row.before }
  | .argument trees _ callee row =>
    ⟨[], .argument (.identifier callee) row.before row.context row.after, trees⟩

@[simp] theorem fill_operators (l : OpenLevel) (d : Expr) : (l.fill d).operators = l.operators := by
  cases l <;> rfl

theorem fill_output (l : OpenLevel) (d : Expr) : (l.fill d).closed.output = l.trees.fill d := by
  match l with
  | .output _ none row => rfl
  | .output _ (some _) row => rfl
  | .argument trees _ callee ⟨before, context, after⟩ =>
    cases before <;> rfl

theorem fill_operand (l : OpenLevel) (e : Expr) :
    ∃ m : OpenLevel, ∀ d, (l.fill d).operand e = m.fill d := by
  match l with
  | .output operators none row =>
    exact ⟨.output operators none { row with before := e :: row.before }, fun _ => rfl⟩
  | .output operators (some app) row =>
    exact ⟨.output operators (some { app with args := app.args ++ [e] }) row, fun _ => rfl⟩
  | .argument trees operators callee row =>
    refine ⟨.argument trees operators callee { row with after := row.after ++ [e] }, fun d => ?_⟩
    simp [fill, Level.operand, Row.fill]

theorem fill_identifier (l : OpenLevel) (name : String) :
    ∃ m : OpenLevel, ∀ d, (l.fill d).identifier name = m.fill d := by
  match l with
  | .output operators none row => exact ⟨.output operators (some ⟨name, []⟩) row, fun _ => rfl⟩
  | .output operators (some app) row => exact fill_operand (.output operators (some app) row) _
  | .argument trees operators callee row =>
    exact fill_operand (.argument trees operators callee row) _

/-- A level takes a tree with a place left open as its operand. -/
theorem operand_fill (l : Level) (context : Expr.Context) :
    ∃ m : OpenLevel, ∀ d, l.operand (context.fill d) = m.fill d := by
  rcases l with ⟨output, operators, _ | ⟨callee, args⟩⟩
  · exact ⟨.output operators none ⟨[], context, output⟩, fun _ => rfl⟩
  · exact ⟨.argument output operators callee ⟨args, context, []⟩, fun _ => rfl⟩

theorem finish_uniform (l : OpenLevel) (closing : Option Location) :
    Uniform Expr.Context.fill fun d => ((l.fill d).finish closing).outcome := by
  simp only [Level.finish_outcome, fill_operators, fill_output]
  exact (reduceAll_row l.operators l.trees).bind (onlyTree_row closing)

theorem operator_uniform (l : OpenLevel) (mode : Mode) (p : Pending) :
    Uniform fill fun d => ((l.fill d).operator mode p).outcome := by
  simp only [Level.operator_outcome, fill_operators, fill_output]
  rcases reduceBefore_row mode p l.operators l.trees with ⟨error, fails⟩ | ⟨left, gives⟩
  · simp only [fails]
    exact uniform_error error
  · simp only [gives]
    exact .inr ⟨.output (p :: left.1) none left.2, fun _ => rfl⟩

end OpenLevel

/-- A reading with a place left open: in its current level, or in one that waits around it. -/
inductive OpenState where
  | current (level : OpenLevel) (around : List Level)
  | waiting (level : Level) (between : List Level) (outer : OpenLevel) (beyond : List Level)
  deriving Repr

def OpenState.fill : OpenState → Nat → Expr → State
  | .current level around, i, d => ⟨i, level.fill d, around⟩
  | .waiting level between outer beyond, i, d => ⟨i, level, between ++ outer.fill d :: beyond⟩

/-- From every index and with every tree filled in, the tokens lead to one error, or to one context
around the tree, so many tokens further on. -/
def Concludes (mode : Mode) (s : OpenState) (tokens : List Token) : Prop :=
  (∃ error, ∀ i d, (read mode (s.fill i d) tokens).outcome = .error error) ∨
    ∃ (context : Expr.Context) (taken : Nat), ∀ i d,
      (read mode (s.fill i d) tokens).outcome = .ok (context.fill d, i + taken)

section Concludes

variable {mode : Mode} {s next : OpenState} {t : Token} {tokens : List Token}

theorem concludes_of_step (concludes : Concludes mode next tokens)
    (step : ∀ i d, (read mode (s.fill i d) (t :: tokens)).outcome =
      (read mode (next.fill (i + 1) d) tokens).outcome) : Concludes mode s (t :: tokens) := by
  rcases concludes with ⟨error, fails⟩ | ⟨context, taken, gives⟩
  · refine .inl ⟨error, fun i d => ?_⟩
    rw [step, fails]
  · refine .inr ⟨context, taken + 1, fun i d => ?_⟩
    rw [step, gives, Nat.add_assoc, Nat.add_comm 1]

/-- A step that may fail, and that goes the same way for all trees. -/
theorem concludes_of_bind {σ τ : Type} {fill : σ → Expr → τ} {run : Expr → Except ParseError τ}
    {level : Expr → τ → Level} {around : Expr → τ → List Level} (uniform : Uniform fill run)
    (step : ∀ i d, (read mode (s.fill i d) (t :: tokens)).outcome =
      (run d).bind fun x => (read mode ⟨i + 1, level d x, around d x⟩ tokens).outcome)
    (goes : ∀ x, ∃ next, Concludes mode next tokens ∧
      ∀ i d, State.mk i (level d (fill x d)) (around d (fill x d)) = next.fill i d) :
    Concludes mode s (t :: tokens) := by
  rcases uniform with ⟨error, fails⟩ | ⟨x, gives⟩
  · apply Or.inl
    exists error
    intro i d
    rw [step, fails, Except.bind]
  · obtain ⟨next, concludes, same⟩ := goes x
    apply concludes_of_step concludes
    intro i d
    rw [step, gives, Except.bind, same]

/-- The level with the open place is the outermost, and ends here. -/
theorem concludes_of_finish {level : OpenLevel} {closing : Option Location}
    (finish : ∀ i d, (read mode ⟨i, level.fill d, []⟩ tokens).outcome =
      ((level.fill d).finish closing).outcome.map fun e => (e, i)) :
    Concludes mode (.current level []) tokens := by
  rcases level.finish_uniform closing with ⟨error, fails⟩ | ⟨context, gives⟩
  · refine .inl ⟨error, fun i d => ?_⟩
    simp only [OpenState.fill, finish, fails, Except.map]
  · refine .inr ⟨context, 0, fun i d => ?_⟩
    simp only [OpenState.fill, finish, gives, Except.map, Nat.add_zero]

theorem concludes_at_end (mode : Mode) (s : OpenState) : Concludes mode s [] := by
  cases s with
  | current level around =>
    cases around with
    | nil => exact concludes_of_finish fun _ _ => read_end_outer
    | cons below around =>
      rcases level.finish_uniform none with ⟨error, fails⟩ | ⟨context, gives⟩
      · refine .inl ⟨error, fun i d => ?_⟩
        simp only [OpenState.fill, read_end_inner, fails, Except.bind]
      · refine .inl ⟨.expectedClosing none none, fun i d => ?_⟩
        simp only [OpenState.fill, read_end_inner, gives, Except.bind]
  | waiting level between outer beyond =>
    have lacks : ∃ error, (level.finish none).outcome.bind (fun _ =>
        (.error (.expectedClosing none none) : Except _ (Expr × Nat))) = .error error := by
      cases (level.finish none).outcome with
      | error error => exact ⟨error, rfl⟩
      | ok e => exact ⟨_, rfl⟩
    obtain ⟨error, fails⟩ := lacks
    refine .inl ⟨error, fun i d => ?_⟩
    cases between <;> exact read_end_inner.trans fails

theorem concludes_at_closing (closes : t.kind = .closing)
    (concludes : ∀ next, Concludes mode next tokens) : Concludes mode s (t :: tokens) := by
  cases s with
  | current level around =>
    cases around with
    | nil => exact concludes_of_finish fun _ _ => read_closing_outer closes
    | cons below around =>
      apply concludes_of_bind (level.finish_uniform (some t.location))
      · intro i d
        exact read_closing_inner closes
      · intro context
        obtain ⟨next, same⟩ := OpenLevel.operand_fill below (.parenthesized context)
        exact ⟨.current next around, concludes _,
          fun i d => congrArg (State.mk i · around) (same d)⟩
  | waiting level between outer beyond =>
    have finish := uniform_const (level.finish (some t.location)).outcome
    cases between with
    | nil =>
      apply concludes_of_bind finish
      · intro i d
        exact read_closing_inner closes
      · intro e
        obtain ⟨next, same⟩ := outer.fill_operand (.parenthesized e)
        exact ⟨.current next beyond, concludes _,
          fun i d => congrArg (State.mk i · beyond) (same d)⟩
    | cons below between =>
      apply concludes_of_bind finish
      · intro i d
        exact read_closing_inner closes
      · intro e
        exact ⟨.waiting (below.operand (.parenthesized e)) between outer beyond, concludes _,
          fun _ _ => rfl⟩

end Concludes

/-- Behind an open place the reading goes the same way for all trees. -/
theorem concludes_of_open (mode : Mode) (s : OpenState) (tokens : List Token) :
    Concludes mode s tokens := by
  induction tokens generalizing s with
  | nil => exact concludes_at_end mode s
  | cons t rest ih =>
    cases kind : t.kind with
    | number value =>
      cases s with
      | current level around =>
        obtain ⟨next, same⟩ := level.fill_operand (.number value)
        apply concludes_of_step (ih (.current next around))
        intro i d
        simp only [OpenState.fill, read_number kind, same]
      | waiting level between outer beyond =>
        apply concludes_of_step (ih (.waiting (level.operand (.number value)) between outer beyond))
        intro i d
        simp only [OpenState.fill, read_number kind]
    | identifier name =>
      cases s with
      | current level around =>
        obtain ⟨next, same⟩ := level.fill_identifier name
        apply concludes_of_step (ih (.current next around))
        intro i d
        simp only [OpenState.fill, read_identifier kind, same]
      | waiting level between outer beyond =>
        apply concludes_of_step (ih (.waiting (level.identifier name) between outer beyond))
        intro i d
        simp only [OpenState.fill, read_identifier kind]
    | operator spelling =>
      cases s with
      | current level around =>
        apply concludes_of_bind (level.operator_uniform mode ⟨spelling, t.location⟩)
        · intro i d
          exact read_operator kind
        · intro next
          exact ⟨.current next around, ih _, fun _ _ => rfl⟩
      | waiting level between outer beyond =>
        apply concludes_of_bind (uniform_const (level.operator mode ⟨spelling, t.location⟩).outcome)
        · intro i d
          exact read_operator kind
        · intro k
          exact ⟨.waiting k between outer beyond, ih _, fun _ _ => rfl⟩
    | opening =>
      cases s with
      | current level around =>
        apply concludes_of_step (ih (.waiting .empty [] level around))
        intro i d
        simp only [OpenState.fill, read_opening kind, List.nil_append]
      | waiting level between outer beyond =>
        apply concludes_of_step (ih (.waiting .empty (level :: between) outer beyond))
        intro i d
        simp only [OpenState.fill, read_opening kind, List.cons_append]
    | closing => exact concludes_at_closing kind ih

/-- What tokens lead to, whatever follows them: an error, the end of the outermost level among
them, or a level that goes on behind them. -/
inductive Leads (mode : Mode) (s : State) (tokens : List Token) : Prop where
  | fails (error : ParseError)
      (same : ∀ rest, (read mode s (tokens ++ rest)).outcome = .error error)
  | stops (e : Expr) (stop : Nat) (within : stop < s.index + tokens.length)
      (same : ∀ rest, (read mode s (tokens ++ rest)).outcome = .ok (e, stop))
  | goesOn (level : Level) (around : List Level)
      (same : ∀ rest, (read mode s (tokens ++ rest)).outcome =
        (read mode ⟨s.index + tokens.length, level, around⟩ rest).outcome)

theorem Leads.of_step {mode : Mode} {i : Nat} {l m : Level} {around beyond : List Level} {t : Token}
    {tokens : List Token} (leads : Leads mode ⟨i + 1, m, beyond⟩ tokens)
    (step : ∀ rest, (read mode ⟨i, l, around⟩ (t :: rest)).outcome =
      (read mode ⟨i + 1, m, beyond⟩ rest).outcome) : Leads mode ⟨i, l, around⟩ (t :: tokens) := by
  have further : i + 1 + tokens.length = i + (t :: tokens).length := by
    rw [List.length_cons]
    omega
  cases leads with
  | fails error same => exact .fails error fun rest => (step _).trans (same rest)
  | stops e stop within same =>
    refine .stops e stop ?_ fun rest => (step _).trans (same rest)
    rw [← further]
    exact within
  | goesOn level around same =>
    refine .goesOn level around fun rest => ?_
    rw [← further]
    exact (step _).trans (same rest)

theorem leads (mode : Mode) (s : State) (tokens : List Token) : Leads mode s tokens := by
  induction tokens generalizing s with
  | nil => exact .goesOn s.level s.around fun rest => rfl
  | cons t tokens ih =>
    obtain ⟨i, l, around⟩ := s
    cases kind : t.kind with
    | number value => exact (ih _).of_step fun rest => read_number kind
    | identifier name => exact (ih _).of_step fun rest => read_identifier kind
    | opening => exact (ih _).of_step fun rest => read_opening kind
    | operator spelling =>
      cases pushed : (l.operator mode ⟨spelling, t.location⟩).outcome with
      | error error =>
        refine .fails error fun rest => ?_
        rw [List.cons_append, read_operator kind, pushed, Except.bind]
      | ok k =>
        apply (ih ⟨i + 1, k, around⟩).of_step
        intro rest
        rw [read_operator kind, pushed, Except.bind]
    | closing =>
      cases finished : (l.finish (some t.location)).outcome with
      | error error =>
        refine .fails error fun rest => ?_
        cases around with
        | nil => rw [List.cons_append, read_closing_outer kind, finished, Except.map]
        | cons below around => rw [List.cons_append, read_closing_inner kind, finished, Except.bind]
      | ok e =>
        cases around with
        | nil =>
          refine .stops e i (by simp) fun rest => ?_
          rw [List.cons_append, read_closing_outer kind, finished, Except.map]
        | cons below around =>
          apply (ih ⟨i + 1, below.operand (.parenthesized e), around⟩).of_step
          intro rest
          rw [read_closing_inner kind, finished, Except.bind]

/-- The tokens are a complete group, and this is the tree of what is inside. -/
inductive IsGroup (mode : Mode) : List Token → Expr → Prop where
  | intro {t u : Token} {inner : List Token} {e : Expr} (opens : t.kind = .opening)
      (inside : parse mode inner = .ok e) (closes : u.kind = .closing) :
      IsGroup mode (t :: (inner ++ [u])) e

theorem read_group {mode : Mode} {group : List Token} {e : Expr} (complete : IsGroup mode group e)
    (i : Nat) (l : Level) (around : List Level) (rest : List Token) :
    (read mode ⟨i, l, around⟩ (group ++ rest)).outcome =
      (read mode ⟨i + group.length, l.operand (.parenthesized e), around⟩ rest).outcome := by
  obtain ⟨opens, inside, closes⟩ := complete
  obtain ⟨m, taken, yields⟩ := parse_eq_ok_iff.mp inside
  exact read_of_takes (.group opens taken yields closes (.nil _)) i around rest

/-- Whatever stands around a group, its tree comes back in one place of the whole, or not at all. -/
theorem parse_around_group (mode : Mode) (before after : List Token) :
    (∃ error, ∀ group e, IsGroup mode group e →
      parse mode (before ++ (group ++ after)) = .error error) ∨
    ∃ context : Expr.Context, ∀ group e, IsGroup mode group e →
      parse mode (before ++ (group ++ after)) = .ok (context.fill (.parenthesized e)) := by
  have whole : ∀ tokens, parse mode tokens = (read mode ⟨0, .empty, []⟩ tokens).outcome.bind
      fun r => wholeLine r.1 tokens[r.2]? := by
    intro tokens
    rw [parse_eq_bind, parseFrom_eq_read, List.drop_zero]
  cases leads mode ⟨0, .empty, []⟩ before with
  | fails error same =>
    refine .inl ⟨error, fun group e _ => ?_⟩
    rw [whole, same, Except.bind]
  | stops e stop within same =>
    have inside : stop < before.length := by simpa using within
    refine .inl ⟨.unbalanced (some before[stop].location), fun group e _ => ?_⟩
    rw [whole, same, Except.bind, List.getElem?_append_left inside, List.getElem?_eq_getElem inside]
    rfl
  | goesOn level around same =>
    obtain ⟨opened, filled⟩ := OpenLevel.operand_fill level .hole
    have behind : ∀ group e, IsGroup mode group e →
        (read mode ⟨0, .empty, []⟩ (before ++ (group ++ after))).outcome =
          (read mode ((OpenState.current opened around).fill (before.length + group.length)
            (.parenthesized e)) after).outcome := by
      intro group e complete
      rw [same, read_group complete, OpenState.fill, ← filled, Nat.zero_add]
      rfl
    rcases concludes_of_open mode (.current opened around) after with
      ⟨error, fails⟩ | ⟨context, taken, gives⟩
    · refine .inl ⟨error, fun group e complete => ?_⟩
      rw [whole, behind group e complete, fails, Except.bind]
    · have left : ∀ group : List Token,
          (before ++ (group ++ after))[before.length + group.length + taken]? = after[taken]? := by
        intro group
        rw [← List.append_assoc, ← List.length_append, List.getElem?_append_right (by omega),
          Nat.add_sub_cancel_left]
      cases stray : after[taken]? with
      | none =>
        refine .inr ⟨context, fun group e complete => ?_⟩
        rw [whole, behind group e complete, gives, Except.bind, left, stray, wholeLine]
      | some t =>
        refine .inl ⟨.unbalanced (some t.location), fun group e complete => ?_⟩
        rw [whole, behind group e complete, gives, Except.bind, left, stray, wholeLine]

end Parse

/-- Two groups in one place of any tokens: both lines have the same error, or they have trees that
differ in one place alone, where each has the tree of its group. -/
theorem groups_are_interchangeable {mode : Mode} {before after inner₁ inner₂ : List Token}
    {open₁ close₁ open₂ close₂ : Token} {e₁ e₂ : Expr}
    (opens₁ : open₁.kind = .opening) (closes₁ : close₁.kind = .closing)
    (opens₂ : open₂.kind = .opening) (closes₂ : close₂.kind = .closing)
    (inside₁ : parse mode inner₁ = .ok e₁) (inside₂ : parse mode inner₂ = .ok e₂) :
    (∃ error,
      parse mode (before ++ open₁ :: (inner₁ ++ close₁ :: after)) = .error error ∧
        parse mode (before ++ open₂ :: (inner₂ ++ close₂ :: after)) = .error error) ∨
    ∃ context : Expr.Context,
      parse mode (before ++ open₁ :: (inner₁ ++ close₁ :: after)) =
          .ok (context.fill (.parenthesized e₁)) ∧
        parse mode (before ++ open₂ :: (inner₂ ++ close₂ :: after)) =
          .ok (context.fill (.parenthesized e₂)) := by
  have first := Parse.IsGroup.intro opens₁ inside₁ closes₁
  have second := Parse.IsGroup.intro opens₂ inside₂ closes₂
  have split : ∀ (t u : Token) (inner : List Token),
      t :: (inner ++ u :: after) = t :: (inner ++ [u]) ++ after := by simp
  rw [split open₁, split open₂]
  rcases Parse.parse_around_group mode before after with ⟨error, fails⟩ | ⟨context, gives⟩
  · exact .inl ⟨error, fails _ _ first, fails _ _ second⟩
  · exact .inr ⟨context, gives _ _ first, gives _ _ second⟩

/-- Around a group that is an argument inside another group: `0 g (1 < f`, with an operand too
many. -/
def beforeArgument : List Token :=
  let token (kind : Kind) : Token := ⟨kind, "", .start⟩
  [.number 0, .identifier "g", .opening, .number 1, .operator "<", .identifier "f"].map token

/-- And behind it `+ 2) $`, with the operator for that operand. -/
def behindArgument : List Token :=
  let token (kind : Kind) : Token := ⟨kind, "", .start⟩
  [.operator "+", .number 2, .closing, .operator "$"].map token

/-- In strict mode, `(a < b)` and `(3)` behind a comparison. -/
theorem comparison_and_number_are_interchangeable :
    let token (kind : Kind) : Token := ⟨kind, "", .start⟩
    let comparison := [token (.identifier "a"), token (.operator "<"), token (.identifier "b")]
    let less := Expr.binary (.identifier "a") "<" (.identifier "b")
    parse .strict comparison = .ok less ∧ parse .strict [token (.number 3)] = .ok (.number 3) ∧
      ((∃ error,
        parse .strict (beforeArgument ++ token .opening ::
            (comparison ++ token .closing :: behindArgument)) = .error error ∧
          parse .strict (beforeArgument ++ token .opening ::
            ([token (.number 3)] ++ token .closing :: behindArgument)) = .error error) ∨
      ∃ context : Expr.Context,
        parse .strict (beforeArgument ++ token .opening ::
            (comparison ++ token .closing :: behindArgument)) =
            .ok (context.fill (.parenthesized less)) ∧
          parse .strict (beforeArgument ++ token .opening ::
            ([token (.number 3)] ++ token .closing :: behindArgument)) =
            .ok (context.fill (.parenthesized (.number 3)))) := by
  intro token comparison less
  have first : parse .strict comparison = .ok less := by rfl
  have second : parse .strict [token (.number 3)] = .ok (.number 3) := rfl
  exact ⟨first, second, groups_are_interchangeable rfl rfl rfl rfl first second⟩

end InfixTree
