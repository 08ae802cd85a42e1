import InfixTree.Expr.Depth
import InfixTree.Expr.Form

/-!
The depth view, column by column. A column of the plain form belongs to a leaf, to an operator or a
parenthesis, or to nothing, and with the depth of its node that settles the one sweep that shows it.
So the sweeps cut the plain form into parts that have no column in common, and the first twelve make
it up again exactly when they show all of it.
-/
namespace InfixTree

/-- A column of the plain form: a blank between two pieces, or a character of a leaf, or one of an
operator or parenthesis, with the depth of the node that the piece belongs to. -/
inductive Column where
  | gap
  | leaf (char : Char) (depth : Nat)
  | mark (char : Char) (depth : Nat)
  deriving DecidableEq, Repr

namespace Column

def char : Column → Char
  | gap => ' '
  | leaf c _ | mark c _ => c

/-- The sweep that shows the column: that of the node's depth, for a leaf the one before. -/
def sweep? : Column → Option Nat
  | gap | leaf _ 0 => none
  | leaf _ (depth + 1) => some depth
  | mark _ depth => some depth

def seen (sweep : Nat) (column : Column) : Char :=
  if column.sweep? = some sweep then column.char else ' '

theorem seen_eq_char {column : Column} {sweep : Nat} (shown : column.sweep? = some sweep) :
    column.seen sweep = column.char := if_pos shown

theorem seen_eq_blank {column : Column} {sweep : Nat} (hidden : column.sweep? ≠ some sweep) :
    column.seen sweep = ' ' := if_neg hidden

theorem seen_ne_blank_iff {column : Column} {sweep : Nat} :
    column.seen sweep ≠ ' ' ↔ column.sweep? = some sweep ∧ column.char ≠ ' ' := by
  by_cases shown : column.sweep? = some sweep
  · simp [seen_eq_char shown, shown]
  · simp [seen_eq_blank shown, shown]

/-- What the column shows in the first `sweeps` sweeps laid over one another. -/
def overlaid (sweeps : Nat) (column : Column) : Char :=
  (((List.range sweeps).map (column.seen ·)).find? (· ≠ ' ')).getD ' '

theorem overlaid_eq_char_iff {sweeps : Nat} {column : Column} :
    column.overlaid sweeps = column.char ↔
      (column.char ≠ ' ' → ∃ s < sweeps, column.sweep? = some s) := by
  unfold overlaid
  cases found : ((List.range sweeps).map (column.seen ·)).find? (· ≠ ' ') with
  | none =>
    have blank : ∀ s < sweeps, column.seen s = ' ' := by simpa using found
    constructor
    · intro same solid
      exact absurd same.symm solid
    · intro shown
      by_cases solid : column.char = ' '
      · exact solid.symm
      · obtain ⟨s, bound, here⟩ := shown solid
        rw [← seen_eq_char here, blank s bound]
        rfl
  | some c =>
    obtain ⟨s, bound, rfl⟩ : ∃ s < sweeps, column.seen s = c := by
      simpa using List.mem_of_find?_eq_some found
    have solid : column.seen s ≠ ' ' := by simpa using List.find?_some found
    obtain ⟨here, -⟩ := seen_ne_blank_iff.mp solid
    exact iff_of_true (seen_eq_char here) fun _ => ⟨s, bound, here⟩

end Column

/-- Lines laid over one another: in each column the character that is not a blank, if some line has
one there. -/
def overlay (lines : List String) : String :=
  String.ofList ((List.range (lines.head?.elim 0 String.length)).map fun i =>
    ((lines.filterMap fun line => line.toList[i]?).find? (· ≠ ' ')).getD ' ')

namespace Expr

mutual

/-- The columns of a tree that lies at the depth. -/
def columns (depth : Nat) : Expr → List Column
  | .number value => (Text.decimal value.toNat).map (.leaf · depth)
  | .identifier name => name.toList.map (.leaf · depth)
  | .application callee args => callee.columns (depth + 1) ++ columnsArgs (depth + 1) args
  | .parenthesized inner => .mark '(' depth :: (inner.columns depth ++ [.mark ')' depth])
  | .binary left operator right =>
    left.columns (depth + 1) ++
      (.gap :: (operator.toList.map (.mark · depth) ++ (.gap :: right.columns (depth + 1))))

def columnsArgs (depth : Nat) : List Expr → List Column
  | [] => []
  | a :: rest => .gap :: (a.columns depth ++ columnsArgs depth rest)

end

theorem map_char_columnsArgs {args : List Expr}
    (each : ∀ a ∈ args, ∀ depth, (a.columns depth).map Column.char = a.plainChars) (depth : Nat) :
    (columnsArgs depth args).map Column.char = plainArgs args := by
  induction args with
  | nil => rfl
  | cons a rest ih =>
    have others := ih fun b hb => each b (List.mem_cons_of_mem _ hb)
    simp [columnsArgs, plainArgs, each a List.mem_cons_self, others, Column.char]

theorem map_char_columns (e : Expr) (depth : Nat) :
    (e.columns depth).map Column.char = e.plainChars := by
  induction e generalizing depth with
  | number value => simp [columns, plainChars, Function.comp_def, Column.char]
  | identifier name => simp [columns, plainChars, Function.comp_def, Column.char]
  | application callee args callee_ih args_ih =>
    simp [columns, plainChars, callee_ih, map_char_columnsArgs args_ih]
  | parenthesized inner ih => simp [columns, plainChars, ih, Column.char]
  | binary left operator right left_ih right_ih =>
    simp [columns, plainChars, left_ih, right_ih, Function.comp_def, Column.char]

theorem map_seen_leaf (sweep depth : Nat) (text : List Char) :
    (text.map (Column.leaf · depth)).map (Column.seen sweep) = veil (depth == sweep + 1) text := by
  cases depth with
  | zero => simp [veil, Function.comp_def, Column.seen, Column.sweep?]
  | succ depth =>
    by_cases shown : depth = sweep
    · simp [veil, Function.comp_def, Column.seen, Column.sweep?, Column.char, shown]
    · simp [veil, Function.comp_def, Column.seen, Column.sweep?, shown]

theorem map_seen_mark (sweep depth : Nat) (text : List Char) :
    (text.map (Column.mark · depth)).map (Column.seen sweep) = veil (depth == sweep) text := by
  by_cases shown : depth = sweep
  · simp [veil, Function.comp_def, Column.seen, Column.sweep?, Column.char, shown]
  · simp [veil, Function.comp_def, Column.seen, Column.sweep?, shown]

@[simp] theorem seen_gap (sweep : Nat) : Column.gap.seen sweep = ' ' :=
  Column.seen_eq_blank (by simp [Column.sweep?])

theorem map_seen_columnsArgs {args : List Expr} {sweep : Nat}
    (each : ∀ a ∈ args, ∀ depth,
      (a.columns depth).map (Column.seen sweep) = a.sweepChars sweep depth) (depth : Nat) :
    (columnsArgs depth args).map (Column.seen sweep) = sweepArgs sweep depth args := by
  induction args with
  | nil => rfl
  | cons a rest ih =>
    have others := ih fun b hb => each b (List.mem_cons_of_mem _ hb)
    simp [columnsArgs, sweepArgs, each a List.mem_cons_self, others]

theorem map_seen_columns (e : Expr) (sweep depth : Nat) :
    (e.columns depth).map (Column.seen sweep) = e.sweepChars sweep depth := by
  induction e generalizing depth with
  | number value => exact map_seen_leaf sweep depth _
  | identifier name => exact map_seen_leaf sweep depth _
  | application callee args callee_ih args_ih =>
    rw [columns, sweepChars, List.map_append, callee_ih, map_seen_columnsArgs args_ih]
  | parenthesized inner ih =>
    have parenthesis : ∀ c : Char,
        [(Column.mark c depth).seen sweep] = veil (depth == sweep) [c] :=
      fun c => map_seen_mark sweep depth [c]
    simp [columns, sweepChars, ih, ← parenthesis]
  | binary left operator right left_ih right_ih =>
    simp only [columns, sweepChars, List.map_append, List.map_cons, left_ih, right_ih, seen_gap,
      map_seen_mark]

theorem toList_plainForm (e : Expr) : e.plainForm.toList = (e.columns 0).map Column.char := by
  rw [plainForm, String.toList_ofList, map_char_columns]

theorem toList_depthLine (e : Expr) (sweep : Nat) :
    (e.depthLine sweep).toList = (e.columns 0).map (Column.seen sweep) := by
  rw [depthLine, String.toList_ofList, map_seen_columns]

theorem length_depthLine (e : Expr) (sweep : Nat) :
    (e.depthLine sweep).length = e.plainForm.length := by
  rw [← String.length_toList, ← String.length_toList, toList_depthLine, toList_plainForm,
    List.length_map, List.length_map]

section Column

variable {e : Expr} {i : Nat} {column : Column}

theorem plainForm_column (found : (e.columns 0)[i]? = some column) :
    e.plainForm.toList[i]? = some column.char := by
  rw [toList_plainForm, List.getElem?_map, found, Option.map_some]

theorem depthLine_column (found : (e.columns 0)[i]? = some column) (sweep : Nat) :
    (e.depthLine sweep).toList[i]? = some (column.seen sweep) := by
  rw [toList_depthLine, List.getElem?_map, found, Option.map_some]

theorem depthLine_shows_iff (found : (e.columns 0)[i]? = some column) (solid : column.char ≠ ' ')
    (sweep : Nat) :
    (e.depthLine sweep).toList[i]? = some column.char ↔ column.sweep? = some sweep := by
  rw [depthLine_column found, Option.some.injEq]
  by_cases shown : column.sweep? = some sweep
  · simp [Column.seen_eq_char shown, shown]
  · simp [Column.seen_eq_blank shown, shown, solid.symm]

theorem exists_column_of_plainForm {c : Char} (found : e.plainForm.toList[i]? = some c) :
    ∃ column, (e.columns 0)[i]? = some column ∧ column.char = c := by
  rwa [toList_plainForm, List.getElem?_map, Option.map_eq_some_iff] at found

theorem exists_column_of_depthLine {c : Char} {sweep : Nat}
    (found : (e.depthLine sweep).toList[i]? = some c) :
    ∃ column, (e.columns 0)[i]? = some column ∧ column.seen sweep = c := by
  rwa [toList_depthLine, List.getElem?_map, Option.map_eq_some_iff] at found

end Column

/-! ### Which columns are shown -/

theorem mem_columnsArgs {args : List Expr} {depth : Nat} {column : Column}
    (member : column ∈ columnsArgs depth args) :
    column = .gap ∨ ∃ a ∈ args, column ∈ a.columns depth := by
  induction args with
  | nil => simp [columnsArgs] at member
  | cons a rest ih =>
    simp only [columnsArgs, List.mem_cons, List.mem_append] at member
    rcases member with gap | here | later
    · exact .inl gap
    · exact .inr ⟨a, List.mem_cons_self, here⟩
    · rcases ih later with gap | ⟨b, found, inside⟩
      · exact .inl gap
      · exact .inr ⟨b, List.mem_cons_of_mem _ found, inside⟩

theorem leaf_of_application {callee : Expr} {args : List Expr} {depth k : Nat} {c : Char}
    (member : .leaf c k ∈ (application callee args).columns depth) :
    .leaf c k ∈ callee.columns (depth + 1) ∨ ∃ a ∈ args, .leaf c k ∈ a.columns (depth + 1) := by
  rcases List.mem_append.mp member with first | later
  · exact .inl first
  · rcases mem_columnsArgs later with gap | inside
    · cases gap
    · exact .inr inside

theorem leaf_of_parenthesized {inner : Expr} {depth k : Nat} {c : Char}
    (member : .leaf c k ∈ (parenthesized inner).columns depth) :
    .leaf c k ∈ inner.columns depth := by
  simpa [columns] using member

theorem leaf_of_binary {left right : Expr} {operator : String} {depth k : Nat} {c : Char}
    (member : .leaf c k ∈ (binary left operator right).columns depth) :
    .leaf c k ∈ left.columns (depth + 1) ∨ .leaf c k ∈ right.columns (depth + 1) := by
  simpa [columns] using member

/-- No leaf lies higher than the tree. -/
theorem depth_le_of_leaf {e : Expr} {depth k : Nat} {c : Char}
    (member : .leaf c k ∈ e.columns depth) : depth ≤ k := by
  induction e generalizing depth with
  | number value | identifier name =>
    simp only [columns, List.mem_map, Column.leaf.injEq] at member
    obtain ⟨_, _, _, rfl⟩ := member
    exact Nat.le_refl _
  | application callee args callee_ih args_ih =>
    rcases leaf_of_application member with first | ⟨a, found, inside⟩
    · exact Nat.le_of_succ_le (callee_ih first)
    · exact Nat.le_of_succ_le (args_ih a found inside)
  | parenthesized inner ih => exact ih (leaf_of_parenthesized member)
  | binary left operator right left_ih right_ih =>
    rcases leaf_of_binary member with first | second
    · exact Nat.le_of_succ_le (left_ih first)
    · exact Nat.le_of_succ_le (right_ih second)

/-- The tree without the parentheses around all of it. -/
def bare : Expr → Expr
  | .parenthesized inner => inner.bare
  | e => e

/-- The leaves of a tree that is no leaf itself lie below it. -/
theorem depth_lt_of_leaf {e : Expr} {depth k : Nat} {c : Char} (compound : e.bare.isLeaf = false)
    (member : .leaf c k ∈ e.columns depth) : depth < k := by
  induction e with
  | number value | identifier name => cases compound
  | application callee args _ _ =>
    rcases leaf_of_application member with first | ⟨a, _, inside⟩
    · exact depth_le_of_leaf first
    · exact depth_le_of_leaf inside
  | parenthesized inner ih => exact ih compound (leaf_of_parenthesized member)
  | binary left operator right _ _ =>
    rcases leaf_of_binary member with first | second
    · exact depth_le_of_leaf first
    · exact depth_le_of_leaf second

theorem exists_sweep {e : Expr} {column : Column} (compound : e.bare.isLeaf = false)
    (member : column ∈ e.columns 0) (solid : column.char ≠ ' ') :
    ∃ sweep, column.sweep? = some sweep := by
  match column with
  | .gap => exact absurd rfl solid
  | .mark _ depth => exact ⟨depth, rfl⟩
  | .leaf _ (depth + 1) => exact ⟨depth, rfl⟩
  | .leaf _ 0 => exact absurd (depth_lt_of_leaf compound member) (Nat.lt_irrefl 0)

/-- How many parentheses stand around all of the tree. -/
def layers : Expr → Nat
  | .parenthesized inner => inner.layers + 1
  | _ => 0

theorem columns_of_leaf {e : Expr} (leaf : e.bare.isLeaf = true) (depth : Nat) :
    e.columns depth = List.replicate e.layers (.mark '(' depth) ++
      (e.bare.plainChars.map (.leaf · depth) ++ List.replicate e.layers (.mark ')' depth)) := by
  induction e with
  | number value | identifier name => simp [columns, bare, layers, plainChars]
  | application callee args _ _ | binary left operator right _ _ => cases leaf
  | parenthesized inner ih =>
    have inside := ih leaf
    rw [columns, inside, layers, List.replicate_succ, List.replicate_succ', bare]
    simp

/-! ### The sweeps laid over one another -/

theorem toList_overlay_depthView (e : Expr) :
    (overlay e.depthView).toList = (e.columns 0).map (Column.overlaid sweepCount) := by
  have width : e.depthView.head?.elim 0 String.length = (e.columns 0).length := by
    change (e.depthLine 0).length = _
    rw [← String.length_toList, toList_depthLine, List.length_map]
  rw [overlay, String.toList_ofList, width]
  apply List.ext_getElem?
  intro i
  rw [List.getElem?_map, List.getElem?_map]
  cases found : (e.columns 0)[i]? with
  | none => simp [List.getElem?_eq_none_iff.mp found]
  | some column =>
    obtain ⟨bound, -⟩ := List.getElem?_eq_some_iff.mp found
    have shown : e.depthView.filterMap (fun line => line.toList[i]?) =
        (List.range sweepCount).map (column.seen ·) := by
      have here : (fun line : String => line.toList[i]?) ∘ e.depthLine =
          some ∘ (column.seen ·) := funext fun s => depthLine_column found s
      rw [depthView, List.filterMap_map, here, List.filterMap_eq_map]
    rw [List.getElem?_range bound, Option.map_some, Option.map_some, shown, Column.overlaid]

theorem depthLine_within_plainForm {e : Expr} {sweep i : Nat} {c : Char}
    (found : (e.depthLine sweep).toList[i]? = some c) :
    c = ' ' ∨ e.plainForm.toList[i]? = some c := by
  obtain ⟨column, here, rfl⟩ := exists_column_of_depthLine found
  by_cases shown : column.sweep? = some sweep
  · rw [Column.seen_eq_char shown]
    exact .inr (plainForm_column here)
  · exact .inl (Column.seen_eq_blank shown)

theorem sweeps_disjoint {e : Expr} {s t i : Nat} {c d : Char} (apart : s ≠ t)
    (first : (e.depthLine s).toList[i]? = some c) (second : (e.depthLine t).toList[i]? = some d) :
    c = ' ' ∨ d = ' ' := by
  obtain ⟨column, here, rfl⟩ := exists_column_of_depthLine first
  rw [depthLine_column here, Option.some.injEq] at second
  subst d
  by_cases shown : column.sweep? = some s
  · have hidden : column.sweep? ≠ some t := by simpa [shown] using apart
    exact .inr (Column.seen_eq_blank hidden)
  · exact .inl (Column.seen_eq_blank shown)

theorem shown_by_one_sweep {e : Expr} {i : Nat} {c : Char} (compound : e.bare.isLeaf = false)
    (found : e.plainForm.toList[i]? = some c) (solid : c ≠ ' ') :
    ∃ (column : Column) (s : Nat), (e.columns 0)[i]? = some column ∧ column.sweep? = some s ∧
      ∀ t, (e.depthLine t).toList[i]? = some c ↔ t = s := by
  obtain ⟨column, here, rfl⟩ := exists_column_of_plainForm found
  obtain ⟨s, shown⟩ := exists_sweep compound (List.mem_of_getElem? here) solid
  refine ⟨column, s, here, shown, fun t => ?_⟩
  rw [depthLine_shows_iff here solid, shown, Option.some.injEq, eq_comm]

theorem leaf_hidden {e : Expr} (leaf : e.bare.isLeaf = true) {i : Nat} (behind : e.layers ≤ i)
    (before : i < e.layers + e.bare.plainChars.length) (sweep : Nat) :
    (e.depthLine sweep).toList[i]? = some ' ' := by
  have inside : i - e.layers < e.bare.plainChars.length := by omega
  have here : (e.columns 0)[i]? = some (.leaf e.bare.plainChars[i - e.layers] 0) := by
    rw [columns_of_leaf leaf, List.getElem?_append_right (by simpa using behind),
      List.length_replicate, List.getElem?_append_left (by simpa using inside)]
    simp [inside]
  rw [depthLine_column here, Column.seen_eq_blank (by simp [Column.sweep?])]

theorem plainForm_of_leaf {e : Expr} (leaf : e.bare.isLeaf = true) :
    e.plainForm.toList =
      List.replicate e.layers '(' ++ (e.bare.plainChars ++ List.replicate e.layers ')') := by
  simp [toList_plainForm, columns_of_leaf leaf, Function.comp_def, Column.char]

theorem overlay_depthView_eq_plainForm_iff (e : Expr) :
    overlay e.depthView = e.plainForm ↔
      ∀ (i : Nat) (c : Char), e.plainForm.toList[i]? = some c → c ≠ ' ' →
        ∃ s < sweepCount, (e.depthLine s).toList[i]? = some c := by
  rw [← String.toList_inj, toList_overlay_depthView, toList_plainForm, List.map_inj_left]
  simp only [Column.overlaid_eq_char_iff]
  constructor
  · intro shown i c found solid
    rw [← toList_plainForm] at found
    obtain ⟨column, here, rfl⟩ := exists_column_of_plainForm found
    obtain ⟨s, bound, at_s⟩ := shown column (List.mem_of_getElem? here) solid
    exact ⟨s, bound, (depthLine_shows_iff here solid s).mpr at_s⟩
  · intro shown column member solid
    obtain ⟨i, here⟩ := List.getElem?_of_mem member
    have found := plainForm_column here
    rw [toList_plainForm] at found
    obtain ⟨s, bound, at_s⟩ := shown i column.char found solid
    exact ⟨s, bound, (depthLine_shows_iff here solid s).mp at_s⟩

/-- Every sweep is as wide as the plain form and shows a part of it, and no two show the same column.
Unless the line is a single leaf, which no sweep shows, each column that is not blank is shown by the
sweep of its node's depth, for a leaf by the one before, and by no other. So the lines of the depth
view laid over one another are the plain form exactly when one of them shows each such column. -/
theorem sweeps_partition_plain_form (e : Expr) :
    (e.columns 0).map Column.char = e.plainForm.toList ∧
    (∀ s : Nat, (e.depthLine s).length = e.plainForm.length ∧
      ∀ (i : Nat) (c : Char), (e.depthLine s).toList[i]? = some c →
        c = ' ' ∨ e.plainForm.toList[i]? = some c) ∧
    (∀ (s t i : Nat) (c d : Char), s ≠ t → (e.depthLine s).toList[i]? = some c →
      (e.depthLine t).toList[i]? = some d → c = ' ' ∨ d = ' ') ∧
    (e.bare.isLeaf = false → ∀ (i : Nat) (c : Char), e.plainForm.toList[i]? = some c → c ≠ ' ' →
      ∃ (column : Column) (s : Nat), (e.columns 0)[i]? = some column ∧ column.sweep? = some s ∧
        ∀ t, (e.depthLine t).toList[i]? = some c ↔ t = s) ∧
    (e.bare.isLeaf = true →
      e.plainForm.toList =
        List.replicate e.layers '(' ++ (e.bare.plainChars ++ List.replicate e.layers ')') ∧
      ∀ i, e.layers ≤ i → i < e.layers + e.bare.plainChars.length →
        ∀ s, (e.depthLine s).toList[i]? = some ' ') ∧
    (overlay e.depthView = e.plainForm ↔
      ∀ (i : Nat) (c : Char), e.plainForm.toList[i]? = some c → c ≠ ' ' →
        ∃ s < 12, (e.depthLine s).toList[i]? = some c) := by
  refine ⟨(toList_plainForm e).symm, ?_, ?_, ?_, ?_, overlay_depthView_eq_plainForm_iff e⟩
  · exact fun s => ⟨length_depthLine e s, fun i c => depthLine_within_plainForm⟩
  · exact fun s t i c d => sweeps_disjoint
  · exact fun compound i c => shown_by_one_sweep compound
  · exact fun leaf => ⟨plainForm_of_leaf leaf, fun i => leaf_hidden leaf⟩

/-- A chain of twelve operators is shown to its end, one of thirteen is not: its last operator, in
column 50, is left to a thirteenth sweep. -/
theorem sweeps_partition_long_chain :
    let chain : Nat → Expr := fun n => Nat.repeat (binary (.identifier "a") "$") n (.identifier "z")
    overlay (chain 12).depthView = (chain 12).plainForm ∧
      overlay (chain 13).depthView ≠ (chain 13).plainForm ∧ (chain 13).bare.isLeaf = false ∧
      ∀ t, ((chain 13).depthLine t).toList[50]? = some '$' ↔ t = 12 := by
  intro chain
  obtain ⟨-, -, -, compound, -, whole⟩ := sweeps_partition_plain_form (chain 12)
  obtain ⟨-, -, -, compound', -, whole'⟩ := sweeps_partition_plain_form (chain 13)
  have early : ∀ column ∈ (chain 12).columns 0, ∀ s ∈ column.sweep?, s < 12 := by decide +kernel
  have late : ((chain 13).columns 0)[50]? = some (.mark '$' 12) := by decide +kernel
  have operator := plainForm_column late
  have only : ∀ t, ((chain 13).depthLine t).toList[50]? = some '$' ↔ t = 12 := by
    obtain ⟨column, s, here, shown, once⟩ := compound' rfl 50 '$' operator (by decide)
    rw [late, Option.some_inj] at here
    subst here
    cases shown
    exact once
  refine ⟨whole.mpr fun i c found solid => ?_, fun same => ?_, rfl, only⟩
  · obtain ⟨column, s, here, shown, once⟩ := compound rfl i c found solid
    exact ⟨s, early column (List.mem_of_getElem? here) s shown, (once s).mpr rfl⟩
  · obtain ⟨s, bound, seen⟩ := whole'.mp same 50 '$' operator (by decide)
    rw [(only s).mp seen] at bound
    exact absurd bound (Nat.lt_irrefl 12)

end Expr

end InfixTree
