import InfixTree.Proofs.Levels
import InfixTree.Proofs.Spelling

/-!
What the trees that parsing gives are made of, whether or not the line is infix. Every level holds
the tokens it has taken, though not always in their order, and nothing besides; and all its
applications are well made.
-/
namespace InfixTree.Parse

/-- Reductions of the newest operators lead from the first two stacks to the last two. -/
inductive Reduces : List Pending → List Expr → List Pending → List Expr → Prop where
  | refl (operators : List Pending) (output : List Expr) :
      Reduces operators output operators output
  | step {top : Pending} {below operators : List Pending} {r l : Expr} {under output : List Expr}
      (rest : Reduces below (.binary l top.spelling r :: under) operators output) :
      Reduces (top :: below) (r :: l :: under) operators output

theorem reduce_eq_ok {top : Pending} {output out : List Expr}
    (reduced : (reduce top output).outcome = .ok out) :
    ∃ r l under, output = r :: l :: under ∧ out = .binary l top.spelling r :: under := by
  match output with
  | [] => simp [reduce, Except.bind] at reduced
  | [_] => simp [reduce, Except.bind] at reduced
  | r :: l :: under =>
    rw [reduce_outcome] at reduced
    exact ⟨r, l, under, rfl, (Except.ok.inj reduced).symm⟩

theorem reduces_of_reduceAll {operators : List Pending} {output out : List Expr}
    (reduced : (reduceAll operators output).outcome = .ok out) :
    Reduces operators output [] out := by
  induction operators generalizing output with
  | nil =>
    obtain rfl : output = out := by simpa [reduceAll] using reduced
    exact .refl _ _
  | cons top below ih =>
    rw [reduceAll_cons_outcome] at reduced
    cases first : (reduce top output).outcome with
    | error err => simp [first, Except.bind] at reduced
    | ok next =>
      obtain ⟨r, l, under, rfl, rfl⟩ := reduce_eq_ok first
      simp only [first, Except.bind] at reduced
      exact .step (ih reduced)

theorem reduces_of_reduceBefore {mode : Mode} {p : Pending} {operators operators' : List Pending}
    {output output' : List Expr}
    (reduced : (reduceBefore mode p operators output).outcome = .ok (operators', output')) :
    Reduces operators output operators' output' := by
  induction operators generalizing output with
  | nil =>
    obtain ⟨rfl, rfl⟩ : [] = operators' ∧ output = output' := by
      simpa [reduceBefore] using reduced
    exact .refl _ _
  | cons top below ih =>
    simp only [reduceBefore] at reduced
    split at reduced
    · simp at reduced
    · split at reduced
      · rw [Traced.bind_outcome] at reduced
        cases first : (reduce top output).outcome with
        | error err => simp [first, Except.bind] at reduced
        | ok next =>
          obtain ⟨r, l, under, rfl, rfl⟩ := reduce_eq_ok first
          simp only [first, Except.bind] at reduced
          exact .step (ih reduced)
      · obtain ⟨rfl, rfl⟩ : top :: below = operators' ∧ output = output' := by simpa using reduced
        exact .refl _ _

/-- A list that a tree has from its parts. An application has those of its callee and its arguments;
an operator puts an entry of its own between those of its operands. -/
structure Additive {α : Type} (f : Expr → List α) (g : String → α) : Prop where
  application : ∀ callee args, f (.application callee args) = f callee ++ args.flatMap f
  binary : ∀ l o r, f (.binary l o r) = f l ++ g o :: f r

theorem additive_spelling : Additive Expr.spelling .operator :=
  ⟨fun callee args => by rw [Expr.spelling, Expr.spellings_eq_flatMap], fun _ _ _ => rfl⟩

theorem flatMap_apply {α : Type} {f : Expr → List α}
    (application : ∀ callee args, f (.application callee args) = f callee ++ args.flatMap f)
    (callee : Expr) (args : List Expr) : f (.apply callee args) = f callee ++ args.flatMap f := by
  cases args with
  | nil => simp [Expr.apply]
  | cons a rest => exact application callee (a :: rest)

/-- What two stacks have of such a list, in an order of no meaning. -/
def gathered {α : Type} (f : Expr → List α) (g : String → α) (operators : List Pending)
    (output : List Expr) : List α :=
  output.flatMap f ++ operators.map fun p => g p.spelling

theorem Reduces.gathered_perm {α : Type} [BEq α] [LawfulBEq α] {f : Expr → List α} {g : String → α}
    (additive : Additive f g) {operators operators' : List Pending} {output output' : List Expr}
    (reduces : Reduces operators output operators' output') :
    (gathered f g operators' output').Perm (gathered f g operators output) := by
  induction reduces with
  | refl => exact .refl _
  | step _ ih =>
    refine ih.trans ?_
    rw [List.perm_iff_count]
    intro k
    simp only [gathered, List.flatMap_cons, additive.binary, List.count_append, List.map_cons,
      List.count_cons]
    omega

/-- What two stacks spell, in an order of no meaning. -/
def stacked (operators : List Pending) (output : List Expr) : List Kind :=
  output.flatMap Expr.spelling ++ operators.map fun p => .operator p.spelling

theorem Reduces.applied {operators operators' : List Pending} {output output' : List Expr}
    (reduces : Reduces operators output operators' output') (all : ∀ e ∈ output, e.Applied) :
    ∀ e ∈ output', e.Applied := by
  induction reduces with
  | refl => exact all
  | step _ ih =>
    refine ih fun e he => ?_
    rcases List.mem_cons.mp he with rfl | under
    · exact Expr.applied_binary.mpr ⟨all _ (by simp), all _ (by simp)⟩
    · exact all e (by simp [under])

namespace Level

/-- What the level has of a list that trees have from their parts. -/
def holding {α : Type} (f : Expr → List α) (g : String → α) (l : Level) : List α :=
  gathered f g l.operators l.closed.output

/-- All tokens that the level has taken. -/
def content (l : Level) : List Kind := stacked l.operators l.closed.output

theorem content_eq_holding (l : Level) : l.content = l.holding Expr.spelling .operator := rfl

section Holding

variable {α : Type} [BEq α] [LawfulBEq α] {f : Expr → List α} {g : String → α}

theorem holding_operand (additive : Additive f g) (l : Level) (e : Expr) :
    ((l.operand e).holding f g).Perm (l.holding f g ++ f e) := by
  rw [List.perm_iff_count]
  intro k
  rcases l with ⟨output, operators, _ | ⟨callee, args⟩⟩
  · simp only [holding, gathered, operand, closed, List.flatMap_cons, List.count_append]
    omega
  · simp only [holding, gathered, operand, closed, List.flatMap_cons, List.flatMap_append,
      flatMap_apply additive.application, List.count_append, List.flatMap_nil, List.append_nil]
    omega

theorem holding_identifier (additive : Additive f g) (l : Level) (name : String) :
    ((l.identifier name).holding f g).Perm (l.holding f g ++ f (.identifier name)) := by
  cases h : l.application with
  | some app =>
    have same : l.identifier name = l.operand (.identifier name) := by simp [identifier, h]
    rw [same]
    exact holding_operand additive l (.identifier name)
  | none =>
    rw [List.perm_iff_count]
    intro k
    simp only [holding, gathered, identifier, closed, h, Expr.apply, List.flatMap_cons,
      List.count_append]
    omega

end Holding

theorem operator_eq_ok_iff {mode : Mode} {l k : Level} {p : Pending} :
    (l.operator mode p).outcome = .ok k ↔ ∃ operators output,
      (reduceBefore mode p l.operators l.closed.output).outcome = .ok (operators, output) ∧
        k = ⟨output, p :: operators, none⟩ := by
  rw [operator_outcome]
  cases (reduceBefore mode p l.operators l.closed.output).outcome with
  | error err => simp [Except.map]
  | ok left =>
    constructor
    · intro same
      exact ⟨left.1, left.2, rfl, (Except.ok.inj same).symm⟩
    · rintro ⟨operators, output, same, rfl⟩
      rw [Except.ok.inj same]
      rfl

theorem exists_operator_iff {mode : Mode} {l : Level} {p : Pending} :
    (∃ k, (l.operator mode p).outcome = .ok k) ↔ ∃ operators output,
      (reduceBefore mode p l.operators l.closed.output).outcome = .ok (operators, output) := by
  constructor
  · rintro ⟨k, pushed⟩
    obtain ⟨operators, output, reduced, -⟩ := operator_eq_ok_iff.mp pushed
    exact ⟨operators, output, reduced⟩
  · rintro ⟨operators, output, reduced⟩
    exact ⟨_, operator_eq_ok_iff.mpr ⟨operators, output, reduced, rfl⟩⟩

theorem holding_operator {α : Type} [BEq α] [LawfulBEq α] {f : Expr → List α} {g : String → α}
    (additive : Additive f g) {mode : Mode} {l k : Level} {p : Pending}
    (pushed : (l.operator mode p).outcome = .ok k) :
    (k.holding f g).Perm (l.holding f g ++ [g p.spelling]) := by
  obtain ⟨operators, output, reduced, rfl⟩ := operator_eq_ok_iff.mp pushed
  have kept := (reduces_of_reduceBefore reduced).gathered_perm additive
  rw [List.perm_iff_count] at kept ⊢
  intro x
  have := kept x
  simp only [holding, gathered, closed, List.map_cons, List.count_append, List.count_cons,
    List.count_nil] at this ⊢
  omega

theorem Yields.reduces {l : Level} {e : Expr} (yields : l.Yields e) :
    Reduces l.operators l.closed.output [] [e] := reduces_of_reduceAll yields

theorem Yields.holding_perm {α : Type} [BEq α] [LawfulBEq α] {f : Expr → List α} {g : String → α}
    (additive : Additive f g) {l : Level} {e : Expr} (yields : l.Yields e) :
    (f e).Perm (l.holding f g) := by
  simpa [gathered, holding] using yields.reduces.gathered_perm additive

end Level

/-- Nothing is lost, doubled or made up on the way. -/
theorem content_of_takes {mode : Mode} {l m : Level} {ts : List Token}
    (taken : Takes mode l ts m) : m.content.Perm (l.content ++ kinds ts) := by
  simp only [Level.content_eq_holding]
  induction taken with
  | nil l => simp
  | @number l m t ts value kind _ ih =>
    have step := (l.holding_operand additive_spelling (.number value)).append_right (kinds ts)
    simpa [kind, Expr.spelling] using ih.trans step
  | @identifier l m t ts name kind _ ih =>
    have step := (l.holding_identifier additive_spelling name).append_right (kinds ts)
    simpa [kind, Expr.spelling] using ih.trans step
  | @operator l k m t ts spelling kind pushed _ ih =>
    have step := (Level.holding_operator additive_spelling pushed).append_right (kinds ts)
    simpa [kind] using ih.trans step
  | @group l k m t u inner ts e opens _ yields closes _ ihInside ih =>
    have inside : e.spelling.Perm (kinds inner) := by
      simpa [Level.holding, Level.empty, Level.closed, gathered] using
        (yields.holding_perm additive_spelling).trans ihInside
    have group : (Expr.parenthesized e).spelling.Perm (.opening :: (kinds inner ++ [.closing])) :=
      (inside.append_right _).cons _
    have step := (l.holding_operand additive_spelling (.parenthesized e)).trans
      (group.append_left (l.holding Expr.spelling .operator))
    simpa [opens, closes] using ih.trans (step.append_right (kinds ts))

theorem spelling_perm_of_takes {mode : Mode} {m : Level} {ts : List Token} {e : Expr}
    (taken : Takes mode .empty ts m) (yields : m.Yields e) : e.spelling.Perm (kinds ts) := by
  have perm := (yields.holding_perm additive_spelling).trans (content_of_takes taken)
  simpa [Level.content, Level.empty, Level.closed, stacked] using perm

/-- The tree spells the tokens of the line, if perhaps in another order. -/
theorem spelling_perm_of_parse {mode : Mode} {tokens : List Token} {e : Expr}
    (parsed : parse mode tokens = .ok e) : e.spelling.Perm (kinds tokens) := by
  obtain ⟨m, taken, yields⟩ := parse_eq_ok_iff.mp parsed
  exact spelling_perm_of_takes taken yields

namespace Level

structure WellApplied (l : Level) : Prop where
  output : ∀ e ∈ l.output, e.Applied
  args : ∀ app ∈ l.application, ∀ a ∈ app.args, a.isAtom ∧ a.Applied

theorem WellApplied.closed {l : Level} (well : l.WellApplied) :
    ∀ e ∈ l.closed.output, e.Applied := by
  rcases l with ⟨output, operators, _ | ⟨callee, args⟩⟩
  · exact well.output
  · intro e he
    rcases List.mem_cons.mp he with rfl | under
    · cases args with
      | nil => exact Expr.applied_identifier
      | cons a rest =>
        exact Expr.applied_application.mpr ⟨⟨callee, rfl⟩, by simp, well.args _ rfl⟩
    · exact well.output e under

theorem WellApplied.operand {l : Level} {e : Expr} (well : l.WellApplied) (atom : e.isAtom)
    (applied : e.Applied) : (l.operand e).WellApplied := by
  rcases l with ⟨output, operators, _ | ⟨callee, args⟩⟩
  · exact ⟨by simpa [Level.operand, applied] using well.output, by simp [Level.operand]⟩
  · refine ⟨well.output, fun app happ a ha => ?_⟩
    obtain rfl := Option.some.inj happ
    rcases List.mem_append.mp ha with before | last
    · exact well.args _ rfl a before
    · obtain rfl := List.mem_singleton.mp last
      exact ⟨atom, applied⟩

theorem WellApplied.identifier {l : Level} (well : l.WellApplied) (name : String) :
    (l.identifier name).WellApplied := by
  cases h : l.application with
  | some app =>
    have same : l.identifier name = l.operand (.identifier name) := by
      simp [Level.identifier, h]
    rw [same]
    exact well.operand rfl Expr.applied_identifier
  | none => exact ⟨by simpa [Level.identifier, h] using well.output, by simp [Level.identifier, h]⟩

end Level

theorem wellApplied_of_takes {mode : Mode} {l m : Level} {ts : List Token}
    (taken : Takes mode l ts m) (well : l.WellApplied) : m.WellApplied := by
  induction taken with
  | nil => exact well
  | number _ _ ih => exact ih (well.operand rfl Expr.applied_number)
  | @identifier l m t ts name _ _ ih => exact ih (well.identifier name)
  | operator _ pushed _ ih =>
    obtain ⟨operators, output, reduced, rfl⟩ := Level.operator_eq_ok_iff.mp pushed
    exact ih ⟨(reduces_of_reduceBefore reduced).applied well.closed, by simp⟩
  | group _ _ yields _ _ ihInside ih =>
    have inside := ihInside ⟨by simp [Level.empty], by simp [Level.empty]⟩
    exact ih (well.operand rfl (by simpa using yields.reduces.applied inside.closed))

theorem applied_of_takes {mode : Mode} {m : Level} {ts : List Token} {e : Expr}
    (taken : Takes mode .empty ts m) (yields : m.Yields e) : e.Applied := by
  have well := wellApplied_of_takes taken ⟨by simp [Level.empty], by simp [Level.empty]⟩
  exact yields.reduces.applied well.closed e (by simp)

theorem applied_of_parse {mode : Mode} {tokens : List Token} {e : Expr}
    (parsed : parse mode tokens = .ok e) : e.Applied := by
  obtain ⟨m, taken, yields⟩ := parse_eq_ok_iff.mp parsed
  exact applied_of_takes taken yields

end InfixTree.Parse
