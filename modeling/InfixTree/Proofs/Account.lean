import InfixTree.Proofs.Matching
import InfixTree.Proofs.Records
import InfixTree.Proofs.Words

/-!
What the records of a line tell of its tree. A level makes its trees from the left to the right, and
every tree is complete before anything behind it is begun; so the records of reductions and of
applications come in the order in which a walk through the finished tree leaves its nodes.
-/
namespace InfixTree

namespace Parse

namespace Record

/-- Whether the record is of a tree that was put together. -/
def builds : Record → Bool
  | reducing _ | applying .. => true
  | _ => false

def reduced? : Record → Option String
  | reducing spelling => some spelling
  | _ => none

/-- The callee of an application and the number of its arguments. -/
def applied? : Record → Option (Expr × Nat)
  | applying callee arguments => some (.identifier callee, arguments)
  | _ => none

def pushed? : Record → Option (String × Fixity)
  | pushing spelling fixity => some (spelling, fixity)
  | _ => none

/-- A level is entered as a parenthesis opens, and left as one closes. -/
def mark? : Record → Option Kind
  | entering _ => some .opening
  | leavingAtClosing _ | leavingAtEnd => some .closing
  | _ => none

end Record

end Parse

open Parse

namespace Kind

def isParenthesis : Kind → Bool
  | opening | closing => true
  | number _ | operator _ | identifier _ => false

def operator? : Kind → Option (String × Fixity)
  | operator spelling => some (spelling, .lookup spelling)
  | _ => none

end Kind

namespace Expr

/-- The callee of an application and the number of its arguments. -/
def call? : Expr → Option (Expr × Nat)
  | .application callee args => some (callee, args.length)
  | _ => none

/-- The record of a tree that was put together from others, of which an application has an
identifier in front. -/
def record? : Expr → Option Record
  | .binary _ operator _ => some (.reducing operator)
  | .application (.identifier callee) args => some (.applying callee args.length)
  | _ => none

/-- The records of a tree, each behind those of the trees that it is made of. -/
def account (e : Expr) : List Record := e.nodes.filterMap record?

@[simp] theorem account_number (value : UInt64) : (number value).account = [] := rfl

@[simp] theorem account_identifier (name : String) : (identifier name).account = [] := rfl

@[simp] theorem account_parenthesized (inner : Expr) :
    (parenthesized inner).account = inner.account := by
  simp [account, nodes, record?]

@[simp] theorem account_binary (left : Expr) (operator : String) (right : Expr) :
    (binary left operator right).account =
      left.account ++ right.account ++ [.reducing operator] := by
  simp [account, nodes, record?]

theorem account_application (callee : String) (args : List Expr) :
    (application (.identifier callee) args).account =
      args.flatMap account ++ [.applying callee args.length] := by
  have all : (nodesAll args).filterMap record? = args.flatMap account := by
    rw [nodesAll_eq_flatMap, List.filterMap_flatMap]
    rfl
  rw [account, nodes, List.filterMap_append, List.filterMap_append, all]
  rfl

end Expr

namespace Parse

/-- The run ends in `a`, and all that its records tell of is trees that were put together. -/
structure Builds {α : Type} (run : Run α) (a : α) (records : List Record) : Prop where
  done : run = ⟨records, .ok a⟩
  each : ∀ r ∈ records, r.builds

namespace Builds

variable {α β : Type} {run : Run α} {a : α} {records : List Record}

theorem pure (a : α) : Builds (Pure.pure a) a [] := ⟨rfl, by simp⟩

theorem built (builds : Builds run a records) : records.filter Record.builds = records :=
  List.filter_eq_self.mpr builds.each

theorem pushed (builds : Builds run a records) : records.filterMap Record.pushed? = [] := by
  rw [List.filterMap_eq_nil_iff]
  intro r member
  have one := builds.each r member
  cases r with
  | pushing => contradiction
  | _ => rfl

theorem marks (builds : Builds run a records) : records.filterMap Record.mark? = [] := by
  rw [List.filterMap_eq_nil_iff]
  intro r member
  have one := builds.each r member
  cases r with
  | entering | leavingAtClosing | leavingAtEnd => contradiction
  | _ => rfl

theorem bind {next : α → Run β} {b : β} {more : List Record} (first : Builds run a records)
    (later : Builds (next a) b more) : Builds (run >>= next) b (records ++ more) := by
  constructor
  · rw [Traced.bind_of_eq first.done, later.done]
  · exact List.forall_mem_append.mpr ⟨first.each, later.each⟩

end Builds

/-- The accounts of the trees of a stack, oldest first. -/
def accounts (output : List Expr) : List Record := output.reverse.flatMap Expr.account

theorem accounts_cons (e : Expr) (output : List Expr) :
    accounts (e :: output) = accounts output ++ e.account := by
  simp [accounts]

theorem builds_reduce (op : Pending) (r l : Expr) (output : List Expr) :
    Builds (reduce op (r :: l :: output)) (.binary l op.spelling r :: output)
      [.reducing op.spelling] :=
  ⟨rfl, by simp [Record.builds]⟩

theorem accounts_reduce (op : Pending) (r l : Expr) (output : List Expr) :
    accounts (.binary l op.spelling r :: output) =
      accounts (r :: l :: output) ++ [.reducing op.spelling] := by
  simp [accounts]

theorem builds_reduceAll {operators : List Pending} {output out : List Expr}
    (reduced : (reduceAll operators output).outcome = .ok out) :
    ∃ records, Builds (reduceAll operators output) out records ∧
      accounts out = accounts output ++ records := by
  induction operators generalizing output with
  | nil =>
    obtain rfl : output = out := by simpa [reduceAll] using reduced
    exact ⟨[], .pure output, by simp⟩
  | cons top below ih =>
    rw [reduceAll_cons_outcome] at reduced
    cases first : (reduce top output).outcome with
    | error err => simp [first, Except.bind] at reduced
    | ok next =>
      obtain ⟨r, l, under, rfl, rfl⟩ := reduce_eq_ok first
      simp only [first, Except.bind] at reduced
      obtain ⟨records, builds, grown⟩ := ih reduced
      refine ⟨_, (builds_reduce top r l under).bind builds, ?_⟩
      rw [grown, accounts_reduce, List.append_assoc]

theorem builds_reduceBefore {mode : Mode} {p : Pending} {operators operators' : List Pending}
    {output output' : List Expr}
    (reduced : (reduceBefore mode p operators output).outcome = .ok (operators', output')) :
    ∃ records, Builds (reduceBefore mode p operators output) (operators', output') records ∧
      accounts output' = accounts output ++ records := by
  induction operators generalizing output with
  | nil =>
    obtain ⟨rfl, rfl⟩ : [] = operators' ∧ output = output' := by
      simpa [reduceBefore] using reduced
    exact ⟨[], .pure _, by simp⟩
  | cons top below ih =>
    rw [reduceBefore]
    rw [reduceBefore_cons_outcome] at reduced
    by_cases clash : mode = .strict ∧ top.fixity.clashes p.fixity
    · simp [clash] at reduced
    · rw [if_neg clash] at reduced ⊢
      by_cases goes : top.fixity.reducesBefore p.fixity
      · rw [if_pos goes] at reduced ⊢
        cases first : (reduce top output).outcome with
        | error err => simp [first, Except.bind] at reduced
        | ok next =>
          obtain ⟨r, l, under, rfl, rfl⟩ := reduce_eq_ok first
          simp only [first, Except.bind] at reduced
          obtain ⟨records, builds, grown⟩ := ih reduced
          refine ⟨_, (builds_reduce top r l under).bind builds, ?_⟩
          rw [grown, accounts_reduce, List.append_assoc]
      · rw [if_neg goes] at reduced ⊢
        obtain ⟨rfl, rfl⟩ : top :: below = operators' ∧ output = output' := by simpa using reduced
        exact ⟨[], .pure _, by simp⟩

namespace Level

/-- The records that a level has made of its trees: those of the application that is open are there
but for its own. -/
def account (l : Level) : List Record :=
  accounts l.output ++ (l.application.map (·.args.flatMap Expr.account)).getD []

theorem account_operand (l : Level) (e : Expr) :
    (l.operand e).account = l.account ++ e.account := by
  rcases l with ⟨output, operators, _ | ⟨callee, args⟩⟩
  · simp [account, operand, accounts_cons]
  · simp [account, operand]

theorem account_identifier (l : Level) (name : String) :
    (l.identifier name).account = l.account := by
  rcases l with ⟨output, operators, _ | ⟨callee, args⟩⟩
  · simp [account, identifier]
  · simp [account, identifier, operand]

theorem account_of_closed {l : Level} (closed : l.application = none) :
    l.account = accounts l.output := by
  simp [account, closed]

theorem builds_closeApplication (l : Level) :
    ∃ records, Builds l.closeApplication l.closed records ∧
      accounts l.closed.output = l.account ++ records := by
  rcases l with ⟨output, operators, _ | ⟨callee, _ | ⟨a, args⟩⟩⟩
  · exact ⟨[], ⟨rfl, by simp⟩, by simp [closed, account]⟩
  · exact ⟨[], ⟨rfl, by simp⟩, by simp [closed, account, accounts_cons, Expr.apply]⟩
  · refine ⟨[.applying callee (a :: args).length], ⟨rfl, by simp [Record.builds]⟩, ?_⟩
    simp only [closed, account, accounts_cons, Expr.apply, Expr.account_application,
      Option.map_some, Option.getD_some, List.append_assoc]

theorem Yields.builds {l : Level} {e : Expr} (yields : l.Yields e) (closing : Option Location) :
    ∃ records, Builds (l.finish closing) e records ∧ e.account = l.account ++ records := by
  obtain ⟨early, closes, gathered⟩ := l.builds_closeApplication
  obtain ⟨late, reduces, grown⟩ := builds_reduceAll yields
  refine ⟨early ++ (late ++ []), closes.bind ?_, ?_⟩
  · rw [closed_operators]
    exact reduces.bind (.pure e)
  · have one : accounts [e] = e.account := by simp [accounts]
    rw [← one, grown, gathered, List.append_nil, List.append_assoc]

end Level

/-- On the way from one level to the other these records were made of these tokens. -/
structure Accounts (l m : Level) (line : List Kind) (records : List Record) : Prop where
  built : m.account = l.account ++ records.filter Record.builds
  pushed : records.filterMap Record.pushed? = line.filterMap Kind.operator?
  marks : records.filterMap Record.mark? = line.filter Kind.isParenthesis

namespace Accounts

variable {l k m : Level}

theorem refl (l : Level) : Accounts l l [] [] := ⟨by simp, rfl, rfl⟩

theorem trans {line line' : List Kind} {records records' : List Record}
    (first : Accounts l k line records) (second : Accounts k m line' records') :
    Accounts l m (line ++ line') (records ++ records') := by
  constructor
  · rw [second.built, first.built, List.filter_append, List.append_assoc]
  · rw [List.filterMap_append, List.filterMap_append, first.pushed, second.pushed]
  · rw [List.filterMap_append, List.filter_append, first.marks, second.marks]

theorem number (l : Level) (value : UInt64) :
    Accounts l (l.operand (.number value)) [.number value] [] :=
  ⟨by simp [Level.account_operand], rfl, rfl⟩

theorem identifier (l : Level) (name : String) :
    Accounts l (l.identifier name) [.identifier name] [] :=
  ⟨by simp [Level.account_identifier], rfl, rfl⟩

/-- A group is accounted for by what its level has made, between its two marks. -/
theorem group {inside : List Kind} {records late : List Record} {e : Expr} {i j : Nat}
    {closing : Option Location} (within : Accounts .empty k inside records)
    (finished : Builds (k.finish closing) e late) (whole : e.account = k.account ++ late) :
    Accounts l (l.operand (.parenthesized e)) (.opening :: (inside ++ [.closing]))
      (.entering i :: (records ++ (late ++ [.leavingAtClosing j]))) := by
  have empty : Level.account .empty = [] := rfl
  constructor
  · rw [Level.account_operand, Expr.account_parenthesized, whole, within.built, empty]
    simp [Record.builds, finished.built]
  · simp [Record.pushed?, Kind.operator?, finished.pushed, within.pushed, List.filterMap_cons]
  · simp [Record.mark?, Kind.isParenthesis, finished.marks, within.marks, List.filter_cons]

end Accounts

theorem records_operator {mode : Mode} {l k : Level} {p : Pending}
    (pushed : (l.operator mode p).outcome = .ok k) :
    ∃ records, l.operator mode p = ⟨records, .ok k⟩ ∧
      Accounts l k [.operator p.spelling] records := by
  obtain ⟨operators, output, reduced, rfl⟩ := Level.operator_eq_ok_iff.mp pushed
  obtain ⟨early, closes, gathered⟩ := l.builds_closeApplication
  obtain ⟨late, reduces, grown⟩ := builds_reduceBefore reduced
  have silent : (unlisted p).filter Record.builds = [] ∧
      (unlisted p).filterMap Record.pushed? = [] ∧ (unlisted p).filterMap Record.mark? = [] := by
    unfold unlisted
    split <;> exact ⟨rfl, rfl, rfl⟩
  refine ⟨early ++ (unlisted p ++ (late ++ [.pushing p.spelling p.fixity])), ?_, ?_, ?_, ?_⟩
  · rw [Level.operator_eq, Traced.bind_of_eq closes.done, Traced.bind_of_eq rfl,
      Level.closed_operators, Traced.bind_of_eq reduces.done, Level.closed_application]
    rfl
  · rw [Level.account_of_closed rfl, grown, gathered]
    simp [silent, closes.built, reduces.built, Record.builds]
  · simp [silent, closes.pushed, reduces.pushed, Record.pushed?, Kind.operator?, Pending.fixity]
  · simp [silent, closes.marks, reduces.marks, Record.mark?, Kind.isParenthesis]

/-- What a level has taken stands in the log as a whole, in front of all that is read later. -/
theorem records_of_takes {mode : Mode} {l m : Level} {ts : List Token} (taken : Takes mode l ts m)
    (i : Nat) : ∃ records, Accounts l m (kinds ts) records ∧ ∀ around rest,
      (read mode ⟨i, l, around⟩ (ts ++ rest)).records =
        records ++ (read mode ⟨i + ts.length, m, around⟩ rest).records := by
  -- The levels around and the tokens behind stay open: inside a group the level around it is one of
  -- them, and its closing parenthesis is the first of those behind.
  induction taken generalizing i with
  | nil l => exact ⟨[], .refl l, fun _ _ => rfl⟩
  | @number l m t ts value kind _ ih =>
    obtain ⟨records, accounts, same⟩ := ih (i + 1)
    refine ⟨records, ?_, ?_⟩
    · rw [kinds_cons, kind]
      exact (Accounts.number l value).trans accounts
    · intro around rest
      rw [List.cons_append, run_number kind, same, List.length_cons, Nat.add_assoc, Nat.add_comm 1]
  | @identifier l m t ts name kind _ ih =>
    obtain ⟨records, accounts, same⟩ := ih (i + 1)
    refine ⟨records, ?_, ?_⟩
    · rw [kinds_cons, kind]
      exact (Accounts.identifier l name).trans accounts
    · intro around rest
      rw [List.cons_append, run_identifier kind, same, List.length_cons, Nat.add_assoc,
        Nat.add_comm 1]
  | @operator l k m t ts spelling kind pushed _ ih =>
    obtain ⟨early, done, step⟩ := records_operator pushed
    obtain ⟨records, accounts, same⟩ := ih (i + 1)
    refine ⟨early ++ records, ?_, ?_⟩
    · rw [kinds_cons, kind]
      exact step.trans accounts
    · intro around rest
      rw [List.cons_append, run_operator kind, Traced.bind_of_eq done, same, List.length_cons,
        Nat.add_assoc, Nat.add_comm 1, List.append_assoc]
  | @group l k m t u inner ts e opens _ yields closes _ ihInside ih =>
    obtain ⟨within, inside, sameInside⟩ := ihInside (i + 1)
    obtain ⟨late, finished, whole⟩ := yields.builds (some u.location)
    obtain ⟨records, accounts, same⟩ := ih (i + 1 + inner.length + 1)
    refine ⟨.entering (i + 1) :: (within ++ (late ++ [.leavingAtClosing (i + 1 + inner.length)])) ++
      records, ?_, ?_⟩
    · have line : kinds (t :: (inner ++ u :: ts)) =
          .opening :: (kinds inner ++ [.closing]) ++ kinds ts := by
        simp [opens, closes]
      rw [line]
      exact (Accounts.group inside finished whole).trans accounts
    · intro around rest
      have length : i + (t :: (inner ++ u :: ts)).length =
          i + 1 + inner.length + 1 + ts.length := by
        simp only [List.length_cons, List.length_append]
        omega
      rw [List.cons_append, List.append_assoc, List.cons_append, run_opening opens,
        Traced.emit_bind, sameInside, run_closing_inner closes, Traced.bind_of_eq finished.done,
        Traced.emit_bind, same, length]
      simp

end Parse

namespace Expr

theorem count_opening_spelling (e : Expr) :
    e.spelling.count .opening = e.nodes.countP isParenthesized := by
  induction e with
  | number value => rfl
  | identifier name => rfl
  | application callee args ihf ih =>
    have all : args.map (List.count .opening ∘ spelling) =
        args.map (List.countP isParenthesized ∘ nodes) := List.map_congr_left ih
    simp [spelling, nodes, spellings_eq_flatMap, nodesAll_eq_flatMap, List.count_flatMap,
      List.countP_flatMap, isParenthesized, ihf, all]
  | parenthesized inner ih => simp [spelling, nodes, isParenthesized, ih]
  | binary left operator right ihl ihr => simp [spelling, nodes, isParenthesized, ihl, ihr]

theorem reductions_of_account (e : Expr) :
    e.account.filterMap Record.reduced? = e.nodes.filterMap operator? := by
  rw [account, List.filterMap_filterMap]
  apply List.filterMap_congr
  intro n _
  match n with
  | .application (.identifier _) _ => rfl
  | .application (.number _) _ | .application (.application ..) _
  | .application (.parenthesized _) _ | .application (.binary ..) _ => rfl
  | .number _ | .identifier _ | .parenthesized _ | .binary .. => rfl

theorem calls_of_account {e : Expr} (applied : e.Applied) :
    e.account.filterMap Record.applied? = e.nodes.filterMap call? := by
  rw [account, List.filterMap_filterMap]
  apply List.filterMap_congr
  intro n member
  have here := applied n member
  match n with
  | .application (.identifier _) _ => rfl
  | .application (.number _) _ | .application (.application ..) _
  | .application (.parenthesized _) _ | .application (.binary ..) _ => contradiction
  | .number _ | .identifier _ | .parenthesized _ | .binary .. => rfl

end Expr

/-- What the records of a reading tell of the tokens that were read and of their tree. -/
structure Tells (records : List Parse.Record) (line : List Kind) (e : Expr) : Prop where
  reductions : records.filterMap Record.reduced? = e.nodes.filterMap Expr.operator?
  applications : records.filterMap Record.applied? = e.nodes.filterMap Expr.call?
  pushes : records.filterMap Record.pushed? = line.filterMap Kind.operator?
  nested : Nesting.Balanced (records.filterMap Record.mark?)
  entered :
    (records.filterMap Record.mark?).count .opening = 1 + e.nodes.countP Expr.isParenthesized
  left :
    (records.filterMap Record.mark?).count .closing = 1 + e.nodes.countP Expr.isParenthesized

theorem Nesting.Balanced.parentheses {line : List Kind} (balanced : Nesting.Balanced line) :
    Nesting.Balanced (line.filter Kind.isParenthesis) := by
  induction balanced with
  | nil => exact .nil
  | @plain k ks solid _ ih =>
    cases k with
    | opening => exact absurd rfl solid.1
    | closing => exact absurd rfl solid.2
    | _ => exact ih
  | @group xs ks _ _ ihInside ih =>
    have split : (Kind.opening :: (xs ++ .closing :: ks)).filter Kind.isParenthesis =
        .opening :: (xs.filter Kind.isParenthesis ++ .closing :: ks.filter Kind.isParenthesis) := by
      simp [Kind.isParenthesis, List.filter_cons]
    rw [split]
    exact .group ihInside ih

namespace Parse

variable {mode : Mode} {tokens : List Token} {e : Expr}

/-- The records of a line are those of its tokens between those of its outermost level. -/
theorem records_of_parse (parsed : parse mode tokens = .ok e) :
    ∃ records m late, Accounts .empty m (kinds tokens) records ∧
      Builds (m.finish none) e late ∧ e.account = m.account ++ late ∧
      (run mode tokens).records = .entering 0 :: (records ++ (late ++ [.leavingAtEnd])) := by
  obtain ⟨m, taken, yields⟩ := parse_eq_ok_iff.mp parsed
  obtain ⟨records, accounts, same⟩ := records_of_takes taken 0
  obtain ⟨late, finished, whole⟩ := yields.builds none
  have level : (runFrom mode tokens 0).records =
      .entering 0 :: (records ++ (late ++ [.leavingAtEnd])) := by
    have reading := same [] []
    rw [List.append_nil, run_end_outer, Traced.bind_of_eq finished.done,
      Traced.emit_bind] at reading
    rw [runFrom, Traced.emit_bind, State.start, List.drop_zero, reading]
    rfl
  have ends : (runFrom mode tokens 0).outcome = .ok (e, tokens.length) :=
    parseFrom_eq_ok_iff.mpr ⟨tokens, [], m, by simp, taken, yields, by simp, Or.inl rfl⟩
  refine ⟨records, m, late, accounts, finished, whole, ?_⟩
  rw [run, Traced.bind_records_ok ends, level]
  simp

theorem filterMap_of_builds {α : Type} {view : Record → Option α}
    (blind : ∀ r, r.builds = false → view r = none) (records : List Record) :
    (records.filter Record.builds).filterMap view = records.filterMap view := by
  rw [List.filterMap_filter]
  apply List.filterMap_congr
  intro r _
  cases built : r.builds with
  | true => rfl
  | false => exact (blind r built).symm

theorem tells_of_parse (parsed : parse mode tokens = .ok e) :
    Tells (run mode tokens).records (kinds tokens) e := by
  obtain ⟨records, m, late, accounts, finished, whole, log⟩ := records_of_parse parsed
  have built : (run mode tokens).records.filter Record.builds = e.account := by
    have empty : Level.account .empty = [] := rfl
    rw [log, whole, accounts.built, empty]
    simp [Record.builds, finished.built]
  have marks : (run mode tokens).records.filterMap Record.mark? =
      .opening :: ((kinds tokens).filter Kind.isParenthesis ++ [.closing]) := by
    simp [log, Record.mark?, accounts.marks, finished.marks]
  have balanced := balanced_of_parse parsed
  have openings : (kinds tokens).count .opening = e.nodes.countP Expr.isParenthesized := by
    rw [← e.count_opening_spelling]
    exact ((spelling_perm_of_parse parsed).count_eq _).symm
  have closings := balanced.count_eq
  have kept : ∀ k : Kind, k.isParenthesis →
      ((kinds tokens).filter Kind.isParenthesis).count k = (kinds tokens).count k :=
    fun k parenthesis => List.count_filter parenthesis
  constructor
  · rw [← e.reductions_of_account, ← built]
    refine (filterMap_of_builds ?_ _).symm
    intro r
    cases r <;> simp [Record.builds, Record.reduced?]
  · rw [← Expr.calls_of_account (applied_of_parse parsed), ← built]
    refine (filterMap_of_builds ?_ _).symm
    intro r
    cases r <;> simp [Record.builds, Record.applied?]
  · simp [log, Record.pushed?, accounts.pushed, finished.pushed, List.filterMap_cons]
  · rw [marks]
    exact .group balanced.parentheses .nil
  · rw [marks, List.count_cons_self, List.count_append, kept _ rfl, openings]
    simp [Nat.add_comm]
  · rw [marks, List.count_cons_of_ne (by simp), List.count_append, kept _ rfl, ← closings, openings]
    simp [Nat.add_comm]

end Parse

namespace Analysis

def Record.parse? : Record → Option Parse.Record
  | parse record => some record
  | started _ | scan _ | finished _ => none

theorem records_of_run {mode : Mode} {line : String} {tokens : List Token} {e : Expr}
    (scanned : tokenize line = .ok tokens) (parsed : InfixTree.parse mode tokens = .ok e) :
    (run mode line).records.filterMap Record.parse? = (Parse.run mode tokens).records := by
  have scan : ((Scan.run line).records.map Record.scan).filterMap Record.parse? = [] := by
    rw [List.filterMap_map, List.filterMap_eq_nil_iff]
    intro record _
    rfl
  have parse : ((Parse.run mode tokens).records.map Record.parse).filterMap Record.parse? =
      (Parse.run mode tokens).records := by
    rw [List.filterMap_map]
    exact List.filterMap_some
  rw [run, Traced.emit_bind, Traced.bind_of_eq (Traced.within_of_ok scanned _ _),
    Traced.bind_of_eq (Traced.within_of_ok parsed _ _), Traced.emit_bind]
  simp [scan, parse, Record.parse?, List.filterMap_cons]

/-- A log that goes down to the least severity leaves out no record. -/
theorem log_trace (records : List Record) : log .trace records = records.map Record.line := by
  rw [log, List.filter_eq_self.mpr]
  intro record _
  cases record.severity <;> rfl

end Analysis

end InfixTree
