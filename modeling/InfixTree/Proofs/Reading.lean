import InfixTree.Proofs.Stacks

/-!
A level that reads the tokens of a grouped tree ends up holding that tree: nothing on its left edge
makes the level reduce what it held before, and each operator finds its left operand complete. In
strict mode this lasts until the first clash, which stops the reading there.
-/
namespace InfixTree

namespace Parse

variable {mode : Mode}

theorem Takes.append {l m k : Level} {ts us : List Token} (first : Takes mode l ts m)
    (second : Takes mode m us k) : Takes mode l (ts ++ us) k := by
  induction first with
  | nil => exact second
  | number kind _ ih => exact .number kind (ih second)
  | identifier kind _ ih => exact .identifier kind (ih second)
  | operator kind pushed _ ih => exact .operator kind pushed (ih second)
  | group opens inside yields closes _ _ ih =>
    simpa using Takes.group opens inside yields closes (ih second)

namespace Level

theorem operand_of_none {l : Level} {e : Expr} (none : l.application = .none) :
    l.operand e = { l with output := e :: l.output } := by
  simp [operand, none]

theorem operand_of_some {l : Level} {e : Expr} {app : Application}
    (some : l.application = .some app) :
    l.operand e = { l with application := .some { app with args := app.args ++ [e] } } := by
  simp [operand, some]

theorem identifier_of_none {l : Level} {name : String} (none : l.application = .none) :
    l.identifier name = { l with application := some ⟨name, []⟩ } := by
  simp [identifier, none]

theorem identifier_of_some {l : Level} {name : String} {app : Application}
    (some : l.application = .some app) : l.identifier name = l.operand (.identifier name) := by
  simp [identifier, some]

/-- The last operator of the level waits for what the tree begins with. -/
def Waits (l : Level) (e : Expr) : Prop :=
  ∀ w ∈ l.operators.head?, ∀ p ∈ e.operator?, w.fixity.reducesBefore (.lookup p) = false

/-- The last operator of the level does not clash with what the tree begins with. -/
def Apart (l : Level) (e : Expr) : Prop :=
  ∀ w ∈ l.operators.head?, ∀ p ∈ e.operator?, w.fixity.clashes (.lookup p) = false

theorem waits_left {l : Level} {d e : Expr} {o : String} (waits : l.Waits (.binary d o e))
    (grouped : (Expr.binary d o e).Grouped) : l.Waits d := by
  intro w hw p hp
  obtain ⟨-, -, left, -⟩ := Expr.grouped_binary.mp grouped
  exact Fixity.waits_of_reducesBefore (left p hp) (waits w hw o rfl)

theorem apart_left {l : Level} {d e : Expr} {o : String} (waits : l.Waits (.binary d o e))
    (grouped : (Expr.binary d o e).Grouped) : l.Apart d := by
  intro w hw p hp
  obtain ⟨-, -, left, -⟩ := Expr.grouped_binary.mp grouped
  exact Fixity.not_clashes_of_reducesBefore (left p hp) (waits w hw o rfl)

/-- An operator that goes after a whole tree and waits for nothing below is pushed on top of what
lies below the tree. -/
theorem operator_of_holds {l m : Level} {d e : Expr} {p : Pending}
    (grouped : (Expr.binary d p.spelling e).Grouped)
    (holds : Holds d l.operators l.output m.operators m.closed.output)
    (waits : l.Waits (.binary d p.spelling e))
    (apart : mode = .strict →
      l.Apart (.binary d p.spelling e) ∧ ∀ q ∈ d.edge, (Fixity.lookup q).clashes p.fixity = false) :
    (m.operator mode p).outcome = .ok ⟨d :: l.output, p :: l.operators, none⟩ := by
  obtain ⟨hd, -, left, -⟩ := Expr.grouped_binary.mp grouped
  have below : (reduceBefore mode p l.operators (d :: l.output)).outcome =
      .ok (l.operators, d :: l.output) := by
    cases h : l.operators with
    | nil => rfl
    | cons top below =>
      have head : top ∈ l.operators.head? := by simp [h]
      exact reduceBefore_of_waits (waits top head _ rfl)
        (fun strict => (apart strict).1 top head _ rfl)
  rw [operator_outcome, reduceBefore_of_holds holds (Expr.edge_reduces hd left)
    (fun strict => (apart strict).2), below]
  rfl

end Level

/-- How a level takes the tokens that spell a tree, and how it takes those of an argument. -/
structure Taken (mode : Mode) (e : Expr) : Prop where
  held : ∀ tokens, kinds tokens = e.spelling → ∀ l : Level, l.application = none → l.Waits e →
    (mode = .strict → l.Apart e) → ∃ m : Level, Takes mode l tokens m ∧
      Holds e l.operators l.output m.operators m.closed.output
  argument : e.isAtom → ∀ tokens, kinds tokens = e.spelling → ∀ (l : Level) (app : Application),
    l.application = some app → Takes mode l tokens (l.operand e)

theorem takes_arguments {args : List Expr} (taken : ∀ a ∈ args, a.isAtom ∧ Taken mode a)
    {tokens : List Token} (spelled : kinds tokens = Expr.spellings args) (l : Level)
    (callee : String) (before : List Expr) (open_ : l.application = some ⟨callee, before⟩) :
    Takes mode l tokens { l with application := some ⟨callee, before ++ args⟩ } := by
  induction args generalizing tokens l before with
  | nil =>
    obtain rfl := kinds_eq_nil spelled
    have same : { l with application := some ⟨callee, before ++ []⟩ } = l := by
      cases l; simp_all
    rw [same]
    exact .nil l
  | cons a rest ih =>
    obtain ⟨ts, us, rfl, hts, hus⟩ := kinds_eq_append spelled
    obtain ⟨atom, first⟩ := taken a (by simp)
    have head := first.argument atom ts hts l _ open_
    rw [Level.operand_of_some open_] at head
    have tail := ih (fun b hb => taken b (by simp [hb])) hus
      { l with application := some ⟨callee, before ++ [a]⟩ } (before ++ [a]) rfl
    simpa using head.append tail

/-- A complete group is taken as one operand, whether or not an application is open. -/
theorem takes_group {e : Expr} (taken : Taken mode e) {tokens : List Token}
    (spelled : kinds tokens = (Expr.parenthesized e).spelling) (l : Level) :
    Takes mode l tokens (l.operand (.parenthesized e)) := by
  obtain ⟨t, us, rfl, opens, rest⟩ := kinds_eq_cons spelled
  obtain ⟨inner, last, rfl, hinner, hlast⟩ := kinds_eq_append rest
  obtain ⟨u, vs, rfl, closes, hvs⟩ := kinds_eq_cons hlast
  obtain rfl := kinds_eq_nil hvs
  obtain ⟨m, inside, holds⟩ := taken.held inner hinner .empty rfl (by simp [Level.Waits, Level.empty])
    (fun _ => by simp [Level.Apart, Level.empty])
  exact .group opens inside (yields_of_holds holds) closes (.nil _)

theorem holds_operand {l : Level} {e : Expr} (none : l.application = .none)
    (plain : e.operator? = .none) :
    Holds e l.operators l.output (l.operand e).operators (l.operand e).closed.output := by
  rw [Level.operand_of_none none, Level.closed_of_none (by exact none)]
  exact .operand plain

theorem taken_number (value : UInt64) : Taken mode (.number value) := by
  have takes : ∀ tokens, kinds tokens = [.number value] → ∀ l : Level,
      Takes mode l tokens (l.operand (.number value)) := by
    intro tokens spelled l
    obtain ⟨t, us, rfl, kind, rest⟩ := kinds_eq_cons spelled
    obtain rfl := kinds_eq_nil rest
    exact .number kind (.nil _)
  exact ⟨fun tokens spelled l none _ _ => ⟨_, takes tokens spelled l, holds_operand none rfl⟩,
    fun _ tokens spelled l _ _ => takes tokens spelled l⟩

theorem taken_identifier (name : String) : Taken mode (.identifier name) := by
  have takes : ∀ tokens, kinds tokens = [.identifier name] → ∀ l : Level,
      Takes mode l tokens (l.identifier name) := by
    intro tokens spelled l
    obtain ⟨t, us, rfl, kind, rest⟩ := kinds_eq_cons spelled
    obtain rfl := kinds_eq_nil rest
    exact .identifier kind (.nil _)
  constructor
  · intro tokens spelled l none _ _
    have opened := takes tokens spelled l
    rw [Level.identifier_of_none none] at opened
    exact ⟨_, opened, .operand rfl⟩
  · intro _ tokens spelled l app some
    rw [← Level.identifier_of_some some]
    exact takes tokens spelled l

theorem taken_application (callee : String) {args : List Expr} (some : args ≠ [])
    (taken : ∀ a ∈ args, a.isAtom ∧ Taken mode a) :
    Taken mode (.application (.identifier callee) args) := by
  refine ⟨fun tokens spelled l none _ _ => ?_, by simp [Expr.isAtom]⟩
  obtain ⟨t, us, rfl, kind, rest⟩ := kinds_eq_cons spelled
  have opened := takes_arguments taken rest { l with application := .some ⟨callee, []⟩ }
    callee [] rfl
  refine ⟨_, .identifier kind (by rw [Level.identifier_of_none none]; exact opened), ?_⟩
  have whole : Expr.apply (.identifier callee) args = .application (.identifier callee) args := by
    cases args with
    | nil => contradiction
    | cons => rfl
  rw [← whole]
  exact .operand (Expr.operator?_apply callee args)

theorem taken_parenthesized {e : Expr} (taken : Taken mode e) : Taken mode (.parenthesized e) :=
  ⟨fun _ spelled l none _ _ => ⟨_, takes_group taken spelled l, holds_operand none rfl⟩,
    fun _ _ spelled l _ _ => takes_group taken spelled l⟩

theorem taken_binary {d e : Expr} {o : String} (grouped : (Expr.binary d o e).Grouped)
    (unchained : mode = .strict → (Expr.binary d o e).Unchained) (left : Taken mode d)
    (right : Taken mode e) : Taken mode (.binary d o e) := by
  refine ⟨fun tokens spelled l none waits apart => ?_, by simp [Expr.isAtom]⟩
  obtain ⟨ts, us, rfl, hts, hus⟩ := kinds_eq_append spelled
  obtain ⟨t, vs, rfl, kind, hvs⟩ := kinds_eq_cons hus
  obtain ⟨m, takesLeft, holdsLeft⟩ := left.held ts hts l none
    (Level.waits_left waits grouped) (fun _ => Level.apart_left waits grouped)
  let p : Pending := ⟨o, t.location⟩
  have pushed : (m.operator mode p).outcome = .ok ⟨d :: l.output, p :: l.operators, .none⟩ :=
    Level.operator_of_holds grouped holdsLeft waits
      (fun strict => by
        obtain ⟨ul, -, apartLeft, -⟩ := Expr.unchained_binary.mp (unchained strict)
        exact ⟨apart strict, Expr.left_edge_unchained grouped ul apartLeft⟩)
  obtain ⟨-, -, -, after⟩ := Expr.grouped_binary.mp grouped
  obtain ⟨k, takesRight, holdsRight⟩ := right.held vs hvs ⟨d :: l.output, p :: l.operators, .none⟩
    rfl (by simpa [Level.Waits, Pending.fixity, p] using after)
    (fun strict => by
      simpa [Level.Apart, Pending.fixity, p] using
        (Expr.unchained_binary.mp (unchained strict)).2.2.2)
  exact ⟨k, takesLeft.append (.operator kind pushed takesRight), .binary (p := p) holdsRight⟩

theorem taken_of_grouped {e : Expr} (applied : e.Applied) (grouped : e.Grouped)
    (unchained : mode = .strict → e.Unchained) : Taken mode e := by
  induction e with
  | number value => exact taken_number value
  | identifier name => exact taken_identifier name
  | application callee args _ ih =>
    obtain ⟨⟨name, rfl⟩, some, atoms⟩ := Expr.applied_application.mp applied
    refine taken_application name some fun a ha => ⟨(atoms a ha).1, ih a ha (atoms a ha).2 ?_ ?_⟩
    · exact (Expr.grouped_application.mp grouped).2 a ha
    · exact fun strict => (Expr.unchained_application.mp (unchained strict)).2 a ha
  | parenthesized inner ih =>
    exact taken_parenthesized (ih (by simpa using applied) (by simpa using grouped)
      (fun strict => by simpa using unchained strict))
  | binary left o right ihl ihr =>
    obtain ⟨al, ar⟩ := Expr.applied_binary.mp applied
    obtain ⟨gl, gr, -, -⟩ := Expr.grouped_binary.mp grouped
    exact taken_binary grouped unchained
      (ihl al gl (fun strict => (Expr.unchained_binary.mp (unchained strict)).1))
      (ihr ar gr (fun strict => (Expr.unchained_binary.mp (unchained strict)).2.1))

theorem parse_of_reads {e : Expr} {tokens : List Token} (reads : e.Reads (kinds tokens))
    (unchained : mode = .strict → e.Unchained) : parse mode tokens = .ok e := by
  obtain ⟨m, takes, holds⟩ := (taken_of_grouped reads.applied reads.grouped unchained).held tokens
    reads.spelled.symm .empty rfl (by simp [Level.Waits, Level.empty])
    (fun _ => by simp [Level.Apart, Level.empty])
  exact parse_eq_ok_iff.mpr ⟨m, takes, yields_of_holds holds⟩

end Parse

end InfixTree
