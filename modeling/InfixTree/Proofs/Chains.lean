import InfixTree.Proofs.Grouping

/-!
Chains of operators that clash: an operator and the one that its operand is made with, where no
parentheses stand between them. `clashes` lists them with the place in the line at which the later
of the two stands, in the order in which a reader from the left meets them.
-/
namespace InfixTree.Expr

structure Clash where
  left : String
  right : String
  index : Nat
  deriving DecidableEq, Repr

def link (index : Nat) : Option String → Option String → List Clash
  | some left, some right =>
    if (Fixity.lookup left).clashes (.lookup right) then [⟨left, right, index⟩] else []
  | _, _ => []

mutual

/-- The clashes of a tree whose first token has the index `index`, those with the operator
`waiting` included that the tree is the right operand of. -/
def clashes (waiting : Option String) (index : Nat) : Expr → List Clash
  | .number _ | .identifier _ => []
  | .application callee args =>
    callee.clashes none index ++ clashesAll (index + callee.spelling.length) args
  | .parenthesized inner => inner.clashes none (index + 1)
  | .binary left operator right =>
    let here := index + left.spelling.length
    left.clashes none index ++ (link here left.operator? (some operator) ++
      (link here waiting (some operator) ++ right.clashes (some operator) (here + 1)))

def clashesAll (index : Nat) : List Expr → List Clash
  | [] => []
  | a :: rest => a.clashes none index ++ clashesAll (index + a.spelling.length) rest

end

def unchainedHere : Expr → Bool
  | .binary left operator right =>
    (left.operator?.all fun l => !(Fixity.lookup l).clashes (.lookup operator)) &&
      right.operator?.all fun r => !(Fixity.lookup operator).clashes (.lookup r)
  | _ => true

/-- No operator clashes with the one that an operand of it is made with. -/
def Unchained (e : Expr) : Prop := e.EveryNode unchainedHere

instance (e : Expr) : Decidable e.Unchained :=
  inferInstanceAs (Decidable (e.EveryNode unchainedHere))

@[simp] theorem unchained_number {v : UInt64} : (Expr.number v).Unchained :=
  everyNode_number.mpr rfl

@[simp] theorem unchained_identifier {n : String} : (Expr.identifier n).Unchained :=
  everyNode_identifier.mpr rfl

@[simp] theorem unchained_application {f : Expr} {args : List Expr} :
    (Expr.application f args).Unchained ↔ f.Unchained ∧ ∀ a ∈ args, a.Unchained :=
  everyNode_application.trans (and_congr .rfl (and_iff_left rfl))

@[simp] theorem unchained_parenthesized {e : Expr} :
    (Expr.parenthesized e).Unchained ↔ e.Unchained :=
  everyNode_parenthesized.trans (and_iff_left rfl)

theorem unchained_binary {l r : Expr} {o : String} :
    (Expr.binary l o r).Unchained ↔ l.Unchained ∧ r.Unchained ∧
      (∀ p ∈ l.operator?, (Fixity.lookup p).clashes (.lookup o) = false) ∧
        ∀ p ∈ r.operator?, (Fixity.lookup o).clashes (.lookup p) = false := by
  simp [Unchained, everyNode_binary, unchainedHere, Option.all_eq_true]

theorem link_eq_nil_iff {index : Nat} {f g : Option String} :
    link index f g = [] ↔ ∀ p ∈ f, ∀ q ∈ g, (Fixity.lookup p).clashes (.lookup q) = false := by
  cases f <;> cases g <;> simp [link]

theorem link_eq_cons {index : Nat} {f g : Option String} {c : Clash} {rest : List Clash}
    (clash : link index f g = c :: rest) :
    f = some c.left ∧ g = some c.right ∧ c.index = index ∧
      (Fixity.lookup c.left).clashes (.lookup c.right) := by
  match f, g with
  | none, _ => simp [link] at clash
  | some _, none => simp [link] at clash
  | some p, some q =>
    simp only [link] at clash
    split at clash
    · rename_i same
      obtain ⟨rfl, -⟩ := List.cons.inj clash
      exact ⟨rfl, rfl, rfl, same⟩
    · simp at clash

theorem clashes_eq_nil_iff (e : Expr) (waiting : Option String) (index : Nat) :
    e.clashes waiting index = [] ↔ e.Unchained ∧ link index waiting e.operator? = [] := by
  induction e generalizing waiting index with
  | number value => cases waiting <;> simp [clashes, operator?, link]
  | identifier name => cases waiting <;> simp [clashes, operator?, link]
  | application callee args ihf ih =>
    have all : ∀ i, clashesAll i args = [] ↔ ∀ a ∈ args, a.Unchained := by
      clear ihf
      induction args with
      | nil => simp [clashesAll]
      | cons a rest tail =>
        intro i
        have first := ih a (by simp) none i
        simp only [clashesAll, List.append_eq_nil_iff, first,
          tail (fun b hb => ih b (by simp [hb])), List.mem_cons, forall_eq_or_imp]
        simp [link]
    simp only [clashes, List.append_eq_nil_iff, ihf, all, unchained_application]
    cases waiting <;> simp [operator?, link]
  | parenthesized inner ih =>
    cases waiting <;> simp [clashes, ih, operator?, link]
  | binary left operator right ihl ihr =>
    simp only [clashes, List.append_eq_nil_iff, ihl, ihr, unchained_binary, operator?]
    simp only [link_eq_nil_iff, Option.mem_def, Option.some.injEq, reduceCtorEq, false_implies,
      forall_eq', implies_true, and_true]
    constructor
    · rintro ⟨hl, below, above, hr, beyond⟩
      exact ⟨⟨hl, hr, below, beyond⟩, above⟩
    · rintro ⟨⟨hl, hr, below, beyond⟩, above⟩
      exact ⟨hl, below, above, hr, beyond⟩

/-- Where the waiting operator does not clash it might as well not be there. -/
theorem clashes_of_apart {e : Expr} {waiting : Option String} (index : Nat)
    (apart : ∀ w ∈ waiting, ∀ p ∈ e.operator?, (Fixity.lookup w).clashes (.lookup p) = false) :
    e.clashes waiting index = e.clashes none index := by
  cases e with
  | binary l o r =>
    have here : link (index + l.spelling.length) waiting (some o) = [] :=
      link_eq_nil_iff.mpr apart
    have alone : link (index + l.spelling.length) none (some o) = [] := rfl
    simp only [clashes, here, alone]
  | _ => rfl

/-- On the right edge only the root can clash with an operator that the root goes before. -/
theorem edge_unchained {l r : Expr} {p : String} {f : Fixity} (grouped : (binary l p r).Grouped)
    (unchained : (binary l p r).Unchained) (before : (Fixity.lookup p).reducesBefore f) :
    ∀ q ∈ r.edge, (Fixity.lookup q).clashes f = false := by
  induction r generalizing l p with
  | binary a q b _ ih =>
    obtain ⟨-, hr, -, waits⟩ := grouped_binary.mp grouped
    obtain ⟨-, ur, -, apart⟩ := unchained_binary.mp unchained
    have next := Fixity.reducesBefore_of_waits before (waits q rfl)
    intro k hk
    rcases List.mem_cons.mp hk with rfl | below
    · exact Fixity.not_clashes_of_waits before (waits k rfl) (apart k rfl)
    · exact ih hr ur next k below
  | _ => simp [edge]

theorem left_edge_unchained {l r : Expr} {o : String} (grouped : (binary l o r).Grouped)
    (unchained : l.Unchained)
    (apart : ∀ p ∈ l.operator?, (Fixity.lookup p).clashes (.lookup o) = false) :
    ∀ q ∈ l.edge, (Fixity.lookup q).clashes (.lookup o) = false := by
  obtain ⟨gl, -, before, -⟩ := grouped_binary.mp grouped
  cases l with
  | binary a q b =>
    intro k hk
    rcases List.mem_cons.mp hk with rfl | below
    · exact apart k rfl
    · exact edge_unchained gl unchained (before q rfl) k below
  | _ => simp [edge]

end InfixTree.Expr
