import InfixTree.Proofs.Contents
import InfixTree.Proofs.InfixLines
import InfixTree.Proofs.Tally

/-!
The parser accepts exactly the lines that add up on every level. The stack of a level holds the
operators that still wait, and its trees and the operators that have settled are together as many
as the operands it has taken.
-/
namespace InfixTree.Parse

open Tally

theorem Reduces.length_output {operators operators' : List Pending} {output output' : List Expr}
    (reduces : Reduces operators output operators' output') :
    output'.length + operators.length = output.length + operators'.length := by
  induction reduces with
  | refl => rfl
  | step _ ih =>
    simp only [List.length_cons] at ih ⊢
    omega

/-- Newest first, each operator waits for those above it. -/
def Ordered (operators : List Pending) : Prop :=
  operators.Pairwise fun upper lower => lower.fixity.reducesBefore upper.fixity = false

def Unclashing (operators : List Pending) : Prop :=
  operators.Pairwise fun upper lower => lower.fixity.clashes upper.fixity = false

theorem waits_below {p top : Pending} {below : List Pending} (ordered : Ordered (top :: below))
    (waits : top.fixity.reducesBefore p.fixity = false) :
    ∀ q ∈ top :: below, q.fixity.reducesBefore p.fixity = false := by
  intro q hq
  rcases List.mem_cons.mp hq with rfl | under
  · exact waits
  · exact Fixity.not_reducesBefore_trans ((List.pairwise_cons.mp ordered).1 q under) waits

theorem apart_below {p top : Pending} {below : List Pending} (ordered : Ordered (top :: below))
    (unclashing : Unclashing (top :: below)) (waits : top.fixity.reducesBefore p.fixity = false)
    (apart : top.fixity.clashes p.fixity = false) :
    ∀ q ∈ top :: below, q.fixity.clashes p.fixity = false := by
  intro q hq
  rcases List.mem_cons.mp hq with rfl | under
  · exact apart
  · exact Fixity.not_clashes_trans ((List.pairwise_cons.mp ordered).1 q under) waits
      ((List.pairwise_cons.mp unclashing).1 q under) apart

/-- What the stack must be for an incoming operator when a level has so many trees, and what is
left of it then. -/
structure Clears (mode : Mode) (p : Pending) (operators : List Pending) (trees : Nat)
    (left : List Pending) : Prop where
  kept : left = operators.filter fun q => !q.fixity.reducesBefore p.fixity
  enough : operators.countP (fun q => q.fixity.reducesBefore p.fixity) = 0 ∨
    operators.countP (fun q => q.fixity.reducesBefore p.fixity) < trees
  apart : mode = .strict → ∀ q ∈ operators, q.fixity.clashes p.fixity = false

section Clears

variable {mode : Mode} {p top : Pending} {below left : List Pending} {trees : Nat}

theorem clears_of_waits (ordered : Ordered (top :: below))
    (unclashing : mode = .strict → Unclashing (top :: below))
    (waits : top.fixity.reducesBefore p.fixity = false)
    (apart : mode = .strict → top.fixity.clashes p.fixity = false) :
    Clears mode p (top :: below) trees left ↔ left = top :: below := by
  have all := waits_below ordered waits
  have kept : (top :: below).filter (fun q => !q.fixity.reducesBefore p.fixity) = top :: below :=
    List.filter_eq_self.mpr (by simpa using all)
  have settles : (top :: below).countP (fun q => q.fixity.reducesBefore p.fixity) = 0 :=
    List.countP_eq_zero.mpr (by simpa using all)
  constructor
  · intro clears
    rw [clears.kept, kept]
  · intro same
    exact ⟨by rw [same, kept], Or.inl settles,
      fun strict => apart_below ordered (unclashing strict) waits (apart strict)⟩

theorem clears_of_goes (goes : top.fixity.reducesBefore p.fixity)
    (apart : mode = .strict → top.fixity.clashes p.fixity = false) :
    Clears mode p (top :: below) (trees + 2) left ↔ Clears mode p below (trees + 1) left := by
  have kept : (top :: below).filter (fun q => !q.fixity.reducesBefore p.fixity) =
      below.filter fun q => !q.fixity.reducesBefore p.fixity := by simp [goes]
  have settles : (top :: below).countP (fun q => q.fixity.reducesBefore p.fixity) =
      below.countP (fun q => q.fixity.reducesBefore p.fixity) + 1 := by simp [goes]
  constructor
  · rintro ⟨same, enough, calm⟩
    exact ⟨by rw [same, kept], by omega,
      fun strict q hq => calm strict q (List.mem_cons_of_mem top hq)⟩
  · rintro ⟨same, enough, calm⟩
    exact ⟨by rw [same, kept], by omega,
      fun strict => List.forall_mem_cons.mpr ⟨apart strict, calm strict⟩⟩

theorem not_clears_of_few (goes : top.fixity.reducesBefore p.fixity) (few : trees < 2) :
    ¬ Clears mode p (top :: below) trees left := by
  intro clears
  have enough := clears.enough
  rw [List.countP_cons_of_pos (by simpa using goes)] at enough
  omega

end Clears

/-- The reductions before an incoming operator succeed exactly when the stack clears for it. -/
theorem reduceBefore_ok_iff_clears {mode : Mode} {p : Pending} {operators left : List Pending}
    {output : List Expr} (ordered : Ordered operators)
    (unclashing : mode = .strict → Unclashing operators) :
    (∃ out, (reduceBefore mode p operators output).outcome = .ok (left, out)) ↔
      Clears mode p operators output.length left := by
  induction operators generalizing output with
  | nil =>
    rw [reduceBefore_nil]
    constructor
    · rintro ⟨out, same⟩
      exact ⟨(congrArg Prod.fst (Except.ok.inj same)).symm, Or.inl rfl, by simp⟩
    · rintro ⟨rfl, -, -⟩
      exact ⟨output, rfl⟩
  | cons top below ih =>
    by_cases clash : mode = .strict ∧ top.fixity.clashes p.fixity
    · obtain ⟨rfl, clash⟩ := clash
      rw [reduceBefore_of_clash clash]
      refine iff_of_false (by simp) fun clears => ?_
      simp [clears.apart rfl top (by simp)] at clash
    · have apart : mode = .strict → top.fixity.clashes p.fixity = false := by simpa using clash
      cases goes : top.fixity.reducesBefore p.fixity with
      | false =>
        rw [reduceBefore_of_waits goes apart, clears_of_waits ordered unclashing goes apart]
        simp [eq_comm]
      | true =>
        have orderedBelow : Ordered below := (List.pairwise_cons.mp ordered).2
        have unclashingBelow : mode = .strict → Unclashing below :=
          fun strict => (List.pairwise_cons.mp (unclashing strict)).2
        rcases output with _ | ⟨r, _ | ⟨l, under⟩⟩
        · exact iff_of_false (by simp [reduceBefore, clash, goes, reduce, Except.bind])
            (not_clears_of_few goes (by simp))
        · exact iff_of_false (by simp [reduceBefore, clash, goes, reduce, Except.bind])
            (not_clears_of_few goes (by simp))
        · rw [reduceBefore_of_reduces goes apart, ih orderedBelow unclashingBelow]
          exact (clears_of_goes goes apart).symm

theorem reduceAll_of_enough {operators : List Pending} {output : List Expr}
    (enough : output.length = operators.length + 1) :
    ∃ e, (reduceAll operators output).outcome = .ok [e] := by
  induction operators generalizing output with
  | nil =>
    obtain ⟨e, rfl⟩ := List.length_eq_one_iff.mp enough
    exact ⟨e, rfl⟩
  | cons top below ih =>
    match output, enough with
    | r :: l :: under, enough =>
      rw [reduceAll_cons_outcome, reduce_outcome]
      exact ih (by simpa using enough)

namespace Level

theorem yields_iff_length {l : Level} :
    (∃ e, l.Yields e) ↔ l.closed.output.length = l.operators.length + 1 := by
  constructor
  · rintro ⟨e, yields⟩
    have := yields.reduces.length_output
    simp at this
    omega
  · exact reduceAll_of_enough

end Level

/-- The level is what the slots have made of it, and none of them has been refused. -/
structure Stands (mode : Mode) (l : Level) (slots : List Slot) : Prop where
  stack : l.operators.map (·.spelling) = (waiting (operators slots)).reverse
  trees : l.closed.output.length + settled (operators slots) = operands slots
  supplied : settled (operators slots) = 0 ∨ settled (operators slots) < operands slots
  apart : mode = .strict → (waiting (operators slots)).Pairwise
    fun f g => (Fixity.lookup f).clashes (.lookup g) = false

namespace Stands

variable {mode : Mode} {l : Level} {slots : List Slot}

theorem empty : Stands mode .empty [] := ⟨rfl, rfl, Or.inl rfl, fun _ => .nil⟩

theorem ordered (stands : Stands mode l slots) : Ordered l.operators := by
  have reversed := List.pairwise_reverse.mpr (waiting_ordered (operators slots))
  rw [← stands.stack, List.pairwise_map] at reversed
  exact reversed

theorem unclashing (stands : Stands mode l slots) (strict : mode = .strict) :
    Unclashing l.operators := by
  have reversed := List.pairwise_reverse.mpr (stands.apart strict)
  rw [← stands.stack, List.pairwise_map] at reversed
  exact reversed

theorem countP_operators (stands : Stands mode l slots) (goes : String → Bool) :
    l.operators.countP (fun q => goes q.spelling) = (waiting (operators slots)).countP goes := by
  rw [← List.countP_reverse (l := waiting (operators slots)), ← stands.stack, List.countP_map]
  rfl

theorem length_operators (stands : Stands mode l slots) :
    l.operators.length + settled (operators slots) = (operators slots).length := by
  have same := congrArg List.length stands.stack
  simp only [List.length_map, List.length_reverse] at same
  rw [same, length_waiting_add_settled]

theorem another_operand (stands : Stands mode l slots) {k : Level}
    (pending : k.operators = l.operators)
    (tree : k.closed.output.length = l.closed.output.length + 1) :
    Stands mode k (slots ++ [.operand]) := by
  obtain ⟨stack, trees, supplied, apart⟩ := stands
  refine ⟨by simpa [pending] using stack, ?_, ?_, by simpa using apart⟩
  · simp only [operators_append, operators_operand, List.append_nil, operands_append,
      operands_operand]
    omega
  · simp only [operators_append, operators_operand, List.append_nil, operands_append,
      operands_operand]
    omega

theorem operand (stands : Stands mode l slots) (e : Expr) :
    Stands mode (l.operand e) (slots ++ fresh l.application.isSome) := by
  cases h : l.application with
  | none =>
    rw [Level.operand_of_none h]
    exact stands.another_operand rfl (by simp [Level.closed, h])
  | some app =>
    have same : slots ++ fresh true = slots := by simp [fresh]
    rw [Level.operand_of_some h, Option.isSome_some, same]
    obtain ⟨stack, trees, supplied, apart⟩ := stands
    simp only [Level.closed, h, List.length_cons] at trees
    exact ⟨stack, trees, supplied, apart⟩

theorem identifier (stands : Stands mode l slots) (name : String) :
    Stands mode (l.identifier name) (slots ++ fresh l.application.isSome) := by
  cases h : l.application with
  | none =>
    rw [Level.identifier_of_none h]
    exact stands.another_operand rfl (by simp [Level.closed, h])
  | some app =>
    rw [Level.identifier_of_some h, ← h]
    exact stands.operand (.identifier name)

theorem apart_iff (stands : Stands mode l slots) (f : Fixity) :
    (∀ q ∈ l.operators, q.fixity.clashes f = false) ↔
      ∀ w ∈ waiting (operators slots), (Fixity.lookup w).clashes f = false := by
  have members : ∀ w, w ∈ waiting (operators slots) ↔ ∃ q ∈ l.operators, q.spelling = w := by
    intro w
    rw [← List.mem_reverse, ← stands.stack, List.mem_map]
  simp only [members, forall_exists_index, and_imp, forall_apply_eq_imp_iff₂]
  rfl

/-- An operator is pushed exactly when the slots before it admit it. -/
theorem operator_iff (stands : Stands mode l slots) (p : Pending) :
    (∃ k, (l.operator mode p).outcome = .ok k) ↔ Admits mode slots p.spelling := by
  have goes := stands.countP_operators fun w => (Fixity.lookup w).reducesBefore p.fixity
  have settles := settled_concat (operators slots) p.spelling
  have trees := stands.trees
  have supplied := stands.supplied
  simp only [Level.exists_operator_iff,
    reduceBefore_ok_iff_clears stands.ordered stands.unclashing]
  constructor
  · rintro ⟨left, -, enough, apart⟩
    refine ⟨?_, fun strict => (stands.apart_iff _).mp (apart strict)⟩
    simp only [Pending.fixity] at goes enough
    omega
  · rintro ⟨enough, apart⟩
    refine ⟨_, rfl, ?_, fun strict => (stands.apart_iff _).mpr (apart strict)⟩
    simp only [Pending.fixity] at goes ⊢
    omega

theorem operator (stands : Stands mode l slots) {p : Pending} {k : Level}
    (pushed : (l.operator mode p).outcome = .ok k) :
    Stands mode k (slots ++ [.operator p.spelling]) := by
  have admits := (stands.operator_iff p).mp ⟨k, pushed⟩
  obtain ⟨kept, output, reduced, rfl⟩ := Level.operator_eq_ok_iff.mp pushed
  have clears := (reduceBefore_ok_iff_clears stands.ordered stands.unclashing).mp ⟨output, reduced⟩
  have stack : (p :: kept).map (·.spelling) =
      (waiting (operators (slots ++ [.operator p.spelling]))).reverse := by
    rw [operators_append, operators_operator, waiting_concat, List.reverse_concat,
      ← List.filter_reverse, ← stands.stack, List.filter_map, clears.kept]
    rfl
  refine ⟨stack, ?_, by simpa using admits.supplied, fun strict => ?_⟩
  · have lengths := (reduces_of_reduceBefore reduced).length_output
    have waits := congrArg List.length stack
    have total := length_waiting_add_settled (operators slots ++ [p.spelling])
    have before := stands.length_operators
    have trees := stands.trees
    simp [Level.closed] at waits total ⊢
    omega
  · rw [operators_append, operators_operator, waiting_concat, List.pairwise_append]
    refine ⟨(stands.apart strict).filter _, List.pairwise_singleton _ _, ?_⟩
    intro w hw v hv
    obtain rfl := List.mem_singleton.mp hv
    exact admits.apart strict w (List.mem_filter.mp hw).1

theorem yields_iff (stands : Stands mode l slots) :
    (∃ e, l.Yields e) ↔ operands slots = (operators slots).length + 1 := by
  have lengths := stands.length_operators
  have trees := stands.trees
  rw [Level.yields_iff_length]
  omega

end Stands

namespace Level

theorem isSome_operand (l : Level) (e : Expr) :
    (l.operand e).application.isSome = l.application.isSome := by
  rcases l with ⟨output, pending, _ | app⟩ <;> rfl

theorem isSome_identifier (l : Level) (name : String) :
    (l.identifier name).application.isSome = true := by
  rcases l with ⟨output, pending, _ | app⟩ <;> rfl

end Level

theorem outline_of_takes {mode : Mode} {l m : Level} {ts : List Token} (taken : Takes mode l ts m)
    {before : List Slot} (stands : Stands mode l before) :
    ∃ slots, Outline mode l.application.isSome (kinds ts) slots ∧ Admitted mode before slots ∧
      Stands mode m (before ++ slots) := by
  induction taken generalizing before with
  | nil l => exact ⟨[], .nil _, trivial, by simpa using stands⟩
  | @number l m t ts value kind _ ih =>
    obtain ⟨slots, outline, admitted, after⟩ := ih (stands.operand (.number value))
    rw [Level.isSome_operand] at outline
    refine ⟨_, by rw [kinds_cons, kind]; exact .number value outline, ?_, by simpa using after⟩
    exact admitted_append.mpr ⟨admitted_fresh _, admitted⟩
  | @identifier l m t ts name kind _ ih =>
    obtain ⟨slots, outline, admitted, after⟩ := ih (stands.identifier name)
    rw [Level.isSome_identifier] at outline
    refine ⟨_, by rw [kinds_cons, kind]; exact .identifier name outline, ?_, by simpa using after⟩
    exact admitted_append.mpr ⟨admitted_fresh _, admitted⟩
  | @operator l k m t ts spelling kind pushed _ ih =>
    have admits := (stands.operator_iff _).mp ⟨k, pushed⟩
    obtain ⟨slots, outline, admitted, after⟩ := ih (stands.operator pushed)
    obtain ⟨operators, output, -, rfl⟩ := Level.operator_eq_ok_iff.mp pushed
    exact ⟨.operator spelling :: slots, by rw [kinds_cons, kind]; exact .operator spelling outline,
      ⟨admits, admitted⟩, by simpa using after⟩
  | @group l k m t u inner ts e opens _ yields closes _ ihInside ih =>
    obtain ⟨within, inside, sound, ends⟩ := ihInside Stands.empty
    obtain ⟨slots, outline, admitted, after⟩ := ih (stands.operand (.parenthesized e))
    rw [Level.isSome_operand] at outline
    have complete := ends.yields_iff.mp ⟨e, yields⟩
    have line : kinds (t :: (inner ++ u :: ts)) =
        .opening :: (kinds inner ++ .closing :: kinds ts) := by simp [opens, closes]
    refine ⟨_, by rw [line]; exact .group inside ⟨sound, complete⟩ outline, ?_, by simpa using after⟩
    exact admitted_append.mpr ⟨admitted_fresh _, admitted⟩

theorem takes_of_outline {mode : Mode} {applying : Bool} {ks : List Kind} {slots : List Slot}
    (outline : Outline mode applying ks slots) {ts : List Token} (spelled : kinds ts = ks)
    {l : Level} (opened : l.application.isSome = applying) {before : List Slot}
    (stands : Stands mode l before) (admitted : Admitted mode before slots) :
    ∃ m, Takes mode l ts m ∧ Stands mode m (before ++ slots) := by
  induction outline generalizing ts l before with
  | nil applying =>
    obtain rfl := kinds_eq_nil spelled
    exact ⟨l, .nil l, by simpa using stands⟩
  | number value _ ih =>
    obtain ⟨t, us, rfl, kind, rest⟩ := kinds_eq_cons spelled
    have next := stands.operand (.number value)
    rw [opened] at next
    obtain ⟨m, taken, after⟩ :=
      ih rest (by rw [Level.isSome_operand, opened]) next (admitted_append.mp admitted).2
    exact ⟨m, .number kind taken, by simpa using after⟩
  | identifier name _ ih =>
    obtain ⟨t, us, rfl, kind, rest⟩ := kinds_eq_cons spelled
    have next := stands.identifier name
    rw [opened] at next
    obtain ⟨m, taken, after⟩ :=
      ih rest (Level.isSome_identifier l name) next (admitted_append.mp admitted).2
    exact ⟨m, .identifier kind taken, by simpa using after⟩
  | operator spelling _ ih =>
    obtain ⟨t, us, rfl, kind, rest⟩ := kinds_eq_cons spelled
    obtain ⟨admits, later⟩ := admitted
    obtain ⟨k, pushed⟩ := (stands.operator_iff ⟨spelling, t.location⟩).mpr admits
    have next := stands.operator pushed
    have closed : k.application.isSome = false := by
      obtain ⟨operators, output, -, rfl⟩ := Level.operator_eq_ok_iff.mp pushed
      rfl
    obtain ⟨m, taken, after⟩ := ih rest closed next later
    exact ⟨m, .operator kind pushed taken, by simpa using after⟩
  | group _ sound _ ihInside ih =>
    obtain ⟨t, us, rfl, opens, rest⟩ := kinds_eq_cons spelled
    obtain ⟨inner, last, rfl, hinner, hlast⟩ := kinds_eq_append rest
    obtain ⟨u, vs, rfl, closes, hvs⟩ := kinds_eq_cons hlast
    obtain ⟨k, inside, ends⟩ := ihInside hinner rfl Stands.empty sound.admitted
    obtain ⟨e, yields⟩ := ends.yields_iff.mpr sound.complete
    have next := stands.operand (.parenthesized e)
    rw [opened] at next
    obtain ⟨m, taken, after⟩ :=
      ih hvs (by rw [Level.isSome_operand, opened]) next (admitted_append.mp admitted).2
    exact ⟨m, .group opens inside yields closes taken, by simpa using after⟩

theorem parse_ok_iff_accepted {mode : Mode} {tokens : List Token} :
    (∃ e, parse mode tokens = .ok e) ↔ Accepted mode (kinds tokens) := by
  simp only [parse_eq_ok_iff]
  constructor
  · rintro ⟨e, m, taken, yields⟩
    obtain ⟨slots, outline, admitted, ends⟩ := outline_of_takes taken Stands.empty
    exact ⟨slots, outline, admitted, ends.yields_iff.mp ⟨e, yields⟩⟩
  · rintro ⟨slots, outline, sound⟩
    obtain ⟨m, taken, ends⟩ := takes_of_outline outline rfl rfl Stands.empty sound.admitted
    obtain ⟨e, yields⟩ := ends.yields_iff.mpr sound.complete
    exact ⟨e, m, taken, yields⟩

end InfixTree.Parse

namespace InfixTree

theorem isLevel_iff_spelling {mode : Mode} {tokens : List Token} {e : Expr}
    (parsed : parse mode tokens = .ok e) :
    Grammar.IsLevel (kinds tokens) ↔ e.spelling = kinds tokens := by
  constructor
  · intro line
    exact ((parse_eq_ok_iff_reads line).mp parsed).1.spelled
  · intro spelled
    rw [← spelled]
    exact Grammar.isLevel_spelling (Parse.applied_of_parse parsed)

/-- Parsing accepts what adds up, infix or not, and its tree tells the two apart: the tree of a
line that is not infix has its tokens in another order. -/
theorem accepted_lines (mode : Mode) (tokens : List Token) :
    ((∃ e, parse mode tokens = .ok e) ↔ Tally.Accepted mode (kinds tokens)) ∧
      ∀ e, parse mode tokens = .ok e →
        (Grammar.IsLevel (kinds tokens) ↔ e.spelling = kinds tokens) :=
  ⟨Parse.parse_ok_iff_accepted, fun _ parsed => isLevel_iff_spelling parsed⟩

theorem accepted_of_isLevel {tokens : List Token} (line : Grammar.IsLevel (kinds tokens)) :
    Tally.Accepted .lenient (kinds tokens) := by
  obtain ⟨e, reads⟩ := line.tree
  exact Parse.parse_ok_iff_accepted.mp ⟨e, Parse.parse_of_reads reads (by simp)⟩

/-- Two operands and then their operator: the counts are right. -/
theorem trailing_operator_is_accepted :
    ∃ tokens, tokenize "1 2 +" = .ok tokens ∧
      (∀ mode, parse mode tokens = .ok (.binary (.number 1) "+" (.number 2))) ∧
      ¬ Grammar.IsLevel (kinds tokens) := by
  let tokens : List Token := [⟨.number 1, "1", ⟨1, 1, 0⟩⟩, ⟨.number 2, "2", ⟨1, 3, 2⟩⟩,
    ⟨.operator "+", "+", ⟨1, 5, 4⟩⟩]
  have parsed : ∀ mode, parse mode tokens = .ok (.binary (.number 1) "+" (.number 2)) := by
    intro mode
    cases mode <;> rfl
  refine ⟨tokens, tokenize_of_toOption (by decide +kernel), parsed, fun line => ?_⟩
  have kept := (isLevel_iff_spelling (parsed .lenient)).mp line
  exact absurd kept (by decide)

end InfixTree
