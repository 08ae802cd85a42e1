import InfixTree.Proofs.Precedence
import InfixTree.Parse.Level

/-!
Which lines the parser accepts, told by counting. It never asks whether operands and operators take
turns. It asks whether an operator finds two trees when a later one, or the end of the level, makes
it take them; how many there are depends on how many operators have taken theirs by then.
-/
namespace InfixTree.Tally

/-- One step of a level: an operand, whatever it is made of, or an operator. -/
inductive Slot where
  | operand
  | operator (spelling : String)
  deriving DecidableEq, Repr

def Slot.spelling? : Slot → Option String
  | operand => none
  | operator spelling => some spelling

def operands (slots : List Slot) : Nat := slots.count .operand

def operators (slots : List Slot) : List String := slots.filterMap Slot.spelling?

/-- The operators that still wait once all of these have been read: no later one goes after them. -/
def waiting : List String → List String
  | [] => []
  | o :: later =>
    if later.any fun p => (Fixity.lookup o).reducesBefore (.lookup p) then waiting later
    else o :: waiting later

theorem waiting_cons (o : String) (later : List String) :
    waiting (o :: later) =
      if later.any fun p => (Fixity.lookup o).reducesBefore (.lookup p) then waiting later
      else o :: waiting later := rfl

/-- How many operators no longer wait. -/
def settled (ops : List String) : Nat := ops.length - (waiting ops).length

/-- What an operator asks of the slots before it. -/
structure Admits (mode : Mode) (before : List Slot) (operator : String) : Prop where
  supplied : settled (operators before ++ [operator]) = 0 ∨
    settled (operators before ++ [operator]) < operands before
  apart : mode = .strict →
    ∀ w ∈ waiting (operators before), (Fixity.lookup w).clashes (.lookup operator) = false

/-- Every operator of the slots is admitted when `before` stands in front of them. -/
def Admitted (mode : Mode) (before : List Slot) : List Slot → Prop
  | [] => True
  | .operand :: rest => Admitted mode (before ++ [.operand]) rest
  | .operator o :: rest => Admits mode before o ∧ Admitted mode (before ++ [.operator o]) rest

/-- The slots of a level from which one tree is left. -/
structure AddsUp (mode : Mode) (slots : List Slot) : Prop where
  admitted : Admitted mode [] slots
  complete : operands slots = (operators slots).length + 1

/-- The slots that an operand takes: none where it is an argument. -/
def fresh (applying : Bool) : List Slot := if applying then [] else [.operand]

/-- The slots of the tokens that follow in a level in which an application is open or not. An
identifier opens one, an operator closes it. Every group is a level that adds up. -/
inductive Outline (mode : Mode) : Bool → List Kind → List Slot → Prop where
  | nil (applying : Bool) : Outline mode applying [] []
  | number (value : UInt64) {applying : Bool} {ks : List Kind} {slots : List Slot}
      (rest : Outline mode applying ks slots) :
      Outline mode applying (.number value :: ks) (fresh applying ++ slots)
  | identifier (name : String) {applying : Bool} {ks : List Kind} {slots : List Slot}
      (rest : Outline mode true ks slots) :
      Outline mode applying (.identifier name :: ks) (fresh applying ++ slots)
  | operator (spelling : String) {applying : Bool} {ks : List Kind} {slots : List Slot}
      (rest : Outline mode false ks slots) :
      Outline mode applying (.operator spelling :: ks) (.operator spelling :: slots)
  | group {applying : Bool} {xs ks : List Kind} {inner slots : List Slot}
      (inside : Outline mode false xs inner) (sound : AddsUp mode inner)
      (rest : Outline mode applying ks slots) :
      Outline mode applying (.opening :: (xs ++ .closing :: ks)) (fresh applying ++ slots)

def Accepted (mode : Mode) (line : List Kind) : Prop :=
  ∃ slots, Outline mode false line slots ∧ AddsUp mode slots

@[simp] theorem operands_append (ss ts : List Slot) :
    operands (ss ++ ts) = operands ss + operands ts := List.count_append

@[simp] theorem operators_append (ss ts : List Slot) :
    operators (ss ++ ts) = operators ss ++ operators ts := List.filterMap_append

@[simp] theorem operands_operand : operands [.operand] = 1 := rfl

@[simp] theorem operands_operator (o : String) : operands [.operator o] = 0 := rfl

@[simp] theorem operators_operand : operators [.operand] = [] := rfl

@[simp] theorem operators_operator (o : String) : operators [.operator o] = [o] := rfl

theorem admitted_append {mode : Mode} {before ss ts : List Slot} :
    Admitted mode before (ss ++ ts) ↔ Admitted mode before ss ∧ Admitted mode (before ++ ss) ts := by
  induction ss generalizing before with
  | nil => simp [Admitted]
  | cons s rest ih => cases s <;> simp [Admitted, ih, and_assoc]

theorem admitted_fresh {mode : Mode} {before : List Slot} (applying : Bool) :
    Admitted mode before (fresh applying) := by
  cases applying <;> simp [fresh, Admitted]

theorem mem_of_mem_waiting {ops : List String} {w : String} (h : w ∈ waiting ops) : w ∈ ops := by
  induction ops with
  | nil => exact absurd h List.not_mem_nil
  | cons o later ih =>
    rw [waiting_cons] at h
    split at h
    · exact List.mem_cons_of_mem o (ih h)
    · rcases List.mem_cons.mp h with rfl | below
      · exact List.mem_cons_self
      · exact List.mem_cons_of_mem o (ih below)

/-- A waiting operator waits for every one that still waits and came after it. -/
theorem waiting_ordered (ops : List String) :
    (waiting ops).Pairwise fun f g => (Fixity.lookup f).reducesBefore (.lookup g) = false := by
  induction ops with
  | nil => exact .nil
  | cons o later ih =>
    rw [waiting_cons]
    split
    · exact ih
    · rename_i waits
      refine List.pairwise_cons.mpr ⟨fun g hg => ?_, ih⟩
      simp only [List.any_eq_true, not_exists, not_and] at waits
      simpa using waits g (mem_of_mem_waiting hg)

theorem waiting_concat (ops : List String) (o : String) :
    waiting (ops ++ [o]) =
      (waiting ops).filter (fun w => !(Fixity.lookup w).reducesBefore (.lookup o)) ++ [o] := by
  induction ops with
  | nil => rfl
  | cons p later ih =>
    cases taken : later.any fun q => (Fixity.lookup p).reducesBefore (.lookup q) <;>
      cases now : (Fixity.lookup p).reducesBefore (.lookup o) <;>
        simp [waiting_cons, ih, taken, now]

example : waiting ["*", "+", "$", "^"] = ["$", "^"] := by decide +kernel

theorem length_waiting_le (ops : List String) : (waiting ops).length ≤ ops.length := by
  induction ops with
  | nil => exact Nat.le_refl 0
  | cons o later ih =>
    rw [waiting_cons]
    split
    · exact Nat.le_succ_of_le ih
    · exact Nat.succ_le_succ ih

theorem length_waiting_add_settled (ops : List String) :
    (waiting ops).length + settled ops = ops.length := by
  have := length_waiting_le ops
  rw [settled]
  omega

/-- What settles at an operator are the waiting ones that go before it. -/
theorem settled_concat (ops : List String) (o : String) :
    settled (ops ++ [o]) = settled ops +
      (waiting ops).countP fun w => (Fixity.lookup w).reducesBefore (.lookup o) := by
  have parts := (waiting ops).length_eq_countP_add_countP
    fun w => (Fixity.lookup w).reducesBefore (.lookup o)
  have before := length_waiting_add_settled ops
  have after := length_waiting_add_settled (ops ++ [o])
  simp only [waiting_concat, List.length_append, List.length_singleton,
    ← List.countP_eq_length_filter] at after
  simp only [Bool.not_eq_true, Bool.decide_eq_false] at parts
  omega

end InfixTree.Tally
