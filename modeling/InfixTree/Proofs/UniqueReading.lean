import InfixTree.Expr.Form
import InfixTree.Proofs.Pieces

/-!
The precedence form determines the tree. Braces stand both around an application and around an
operator with its operands, and no blank keeps an operator from its operands; but every name, number
and operator ends where its class of characters ends, and what follows the first tree behind a brace
tells the two apart. This holds of all trees whose names and operators a line can spell, also of
those that are no tree of any line.
-/
namespace InfixTree

namespace Text

/-- A text splits in only one way into a run of one class and what does not continue it. -/
theorem run_append_inj {inClass : Char → Bool} {xs ys r s : List Char}
    (inside : ∀ c ∈ xs, inClass c) (inside' : ∀ c ∈ ys, inClass c)
    (ends : ∀ c ∈ r.head?, inClass c = false) (ends' : ∀ c ∈ s.head?, inClass c = false)
    (same : xs ++ r = ys ++ s) : xs = ys ∧ r = s := by
  have run_of : ∀ {run rest : List Char}, (∀ c ∈ run, inClass c) →
      (∀ c ∈ rest.head?, inClass c = false) → (run ++ rest).takeWhile inClass = run := by
    intro run rest inside ends
    rw [List.takeWhile_append_of_pos inside]
    cases rest with
    | nil => simp
    | cons c others => simp [ends c rfl]
  have runs : xs = ys := by
    rw [← run_of inside ends, same, run_of inside' ends']
  subst runs
  exact ⟨rfl, List.append_cancel_left same⟩

theorem isLetter_eq_false_of_gap {c : Char} (gap : inGap c.toNat c.toNat) : isLetter c = false := by
  cases letter : isLetter c with
  | false => rfl
  | true =>
    have outside := outside_of_isLetter letter gap
    omega

theorem isWordRest_eq_false_of_gap {c : Char} (gap : inGap c.toNat c.toNat)
    (other : (c.isDigit || c == '_') = false) : isWordRest c = false := by
  rw [isWordRest, isLetter_eq_false_of_gap gap, Bool.false_or, other]

theorem isWordRest_eq_false_of_isSymbol {c : Char} (symbol : isSymbol c) :
    isWordRest c = false := by
  have every : symbols.all fun s => inGap s.toNat s.toNat && !(s.isDigit || s == '_') := by decide
  have here := List.all_eq_true.mp every c (by simpa [isSymbol] using symbol)
  rw [Bool.and_eq_true, Bool.not_eq_true'] at here
  exact isWordRest_eq_false_of_gap here.1 here.2

theorem isWordRest_of_mem_decimal {n : Nat} {c : Char} (digit : c ∈ decimal n) : isWordRest c := by
  simp [isWordRest, isDigit_of_mem_decimal digit]

theorem isWordRest_of_isName {name : String} (letters : isName name) :
    ∀ c ∈ name.toList, isWordRest c := by
  unfold isName at letters
  cases h : name.toList with
  | nil => simp
  | cons d rest =>
    obtain ⟨letter, others⟩ : isLetter d ∧ ∀ c ∈ rest, isWordRest c := by simpa [h] using letters
    intro c member
    rcases List.mem_cons.mp member with rfl | behind
    · simp [isWordRest, letter]
    · exact others c behind

/-- No name and no number goes on in the text. -/
def EndsWord (text : List Char) : Prop := ∀ c ∈ text.head?, isWordRest c = false

theorem endsWord_nil : EndsWord [] := by simp [EndsWord]

theorem endsWord_cons {c : Char} (outside : isWordRest c = false) (text : List Char) :
    EndsWord (c :: text) := by
  simpa [EndsWord] using outside

theorem endsWord_run {spelling : String} (run : isRun spelling) (text : List Char) :
    EndsWord (spelling.toList ++ text) := by
  cases h : spelling.toList with
  | nil => exact absurd h (ne_nil_of_isRun run)
  | cons c rest =>
    have symbol : isSymbol c := isSymbol_of_isRun run c (by simp [h])
    exact endsWord_cons (isWordRest_eq_false_of_isSymbol symbol) _

end Text

open Text

namespace Expr

/-- The shape that the first character of the precedence form begins; a brace begins none. -/
def firstShape : Expr → Shape
  | .number _ => .digits
  | .identifier _ => .word
  | .parenthesized _ => .opening
  | .application .. | .binary .. => .stray

theorem ofFirst_brace : Shape.ofFirst '{' = .stray := by
  have no_letter : isLetter '{' = false := isLetter_eq_false_of_gap (by decide)
  rw [Shape.ofFirst, no_letter]
  decide

theorem exists_first {e : Expr} (writable : e.Writable) :
    ∃ c text, e.precedenceChars = c :: text ∧ Shape.ofFirst c = e.firstShape := by
  cases e with
  | number value =>
    cases h : decimal value.toNat with
    | nil => exact absurd h Nat.toDigits_ne_nil
    | cons c rest =>
      have digit : c.isDigit := isDigit_of_mem_decimal (n := value.toNat) (by simp [h])
      exact ⟨c, rest, h, ofFirst_of_isDigit digit⟩
  | identifier name =>
    rw [writable_identifier, isName] at writable
    cases h : name.toList with
    | nil => simp [h] at writable
    | cons c rest =>
      have letter : isLetter c := by simp_all
      exact ⟨c, rest, h, ofFirst_of_isLetter letter⟩
  | parenthesized inner => exact ⟨'(', _, rfl, rfl⟩
  | application callee args => exact ⟨'{', _, rfl, ofFirst_brace⟩
  | binary left operator right => exact ⟨'{', _, rfl, ofFirst_brace⟩

theorem firstShape_eq_of_append {d e : Expr} (writable : d.Writable) (writable' : e.Writable)
    {r s : List Char} (same : d.precedenceChars ++ r = e.precedenceChars ++ s) :
    d.firstShape = e.firstShape := by
  obtain ⟨c, text, form, shape⟩ := exists_first writable
  obtain ⟨c', text', form', shape'⟩ := exists_first writable'
  rw [form, form', List.cons_append, List.cons_append] at same
  obtain rfl : c = c' := (List.cons.inj same).1
  rw [← shape, shape']

/-- No operator goes on in front of a tree. -/
theorem isSymbol_head_precedenceChars {e : Expr} (writable : e.Writable) (r : List Char) :
    ∀ c ∈ (e.precedenceChars ++ r).head?, isSymbol c = false := by
  obtain ⟨c, text, form, shape⟩ := exists_first writable
  rw [form]
  intro d head
  obtain rfl : c = d := by simpa using head
  cases symbol : isSymbol c with
  | false => rfl
  | true =>
    rw [ofFirst_of_isSymbol symbol] at shape
    cases e <;> cases shape

/-- Behind the callee stands a blank, or else the brace that ends the application. -/
theorem exists_precedenceArgs_append (args : List Expr) (r : List Char) :
    ∃ c text, precedenceArgs args ++ '}' :: r = c :: text ∧ isWordRest c = false ∧
      isSymbol c = false := by
  cases args with
  | nil => exact ⟨'}', r, rfl, isWordRest_eq_false_of_gap (by decide) (by decide), by decide⟩
  | cons a rest => exact ⟨' ', _, rfl, isWordRest_eq_false_of_gap (by decide) (by decide), by decide⟩

theorem endsWord_precedenceArgs (args : List Expr) (r : List Char) :
    EndsWord (precedenceArgs args ++ '}' :: r) := by
  obtain ⟨c, text, form, outside, -⟩ := exists_precedenceArgs_append args r
  rw [form]
  exact endsWord_cons outside text

/-- What follows the callee of an application is not what follows a left operand. -/
theorem precedenceArgs_append_ne {operator : String} (run : isRun operator) (args : List Expr)
    (r s : List Char) : precedenceArgs args ++ '}' :: r ≠ operator.toList ++ s := by
  obtain ⟨c, text, form, -, solid⟩ := exists_precedenceArgs_append args r
  rw [form]
  intro same
  cases h : operator.toList with
  | nil => exact ne_nil_of_isRun run h
  | cons d rest =>
    rw [h] at same
    obtain rfl : c = d := (List.cons.inj same).1
    rw [isSymbol_of_isRun run c (by simp [h])] at solid
    contradiction

/-- In front of any text that does not continue it, the form of the tree is that of no other. -/
def Separable (d : Expr) : Prop :=
  ∀ e : Expr, e.Writable → ∀ r s : List Char, EndsWord r → EndsWord s →
    d.precedenceChars ++ r = e.precedenceChars ++ s → d = e ∧ r = s

theorem precedenceArgs_append_inj {as bs : List Expr} (separable : ∀ a ∈ as, a.Separable)
    (writable : ∀ b ∈ bs, b.Writable) {r s : List Char}
    (same : precedenceArgs as ++ '}' :: r = precedenceArgs bs ++ '}' :: s) : as = bs ∧ r = s := by
  induction as generalizing bs with
  | nil =>
    cases bs with
    | nil => exact ⟨rfl, (List.cons.inj same).2⟩
    | cons b rest => simp [precedenceArgs] at same
  | cons a others ih =>
    cases bs with
    | nil => simp [precedenceArgs] at same
    | cons b rest =>
      simp only [precedenceArgs, List.cons_append, List.append_assoc, List.cons.injEq,
        true_and] at same
      obtain ⟨rfl, tails⟩ := separable a List.mem_cons_self b (writable b List.mem_cons_self) _ _
        (endsWord_precedenceArgs others r) (endsWord_precedenceArgs rest s) same
      obtain ⟨rfl, rfl⟩ := ih (fun c hc => separable c (List.mem_cons_of_mem _ hc))
        (fun c hc => writable c (List.mem_cons_of_mem _ hc)) tails
      exact ⟨rfl, rfl⟩

theorem separable_number (m : UInt64) : (number m).Separable := by
  intro e writable r s ends ends' same
  cases e with
  | number n =>
    obtain ⟨digits, rest⟩ := run_append_inj (fun _ => isWordRest_of_mem_decimal)
      (fun _ => isWordRest_of_mem_decimal) ends ends' same
    have value : some m = some n := by
      rw [← word?_decimal m, ← word?_decimal n]
      exact congrArg word? digits
    exact ⟨congrArg number (Option.some.inj value), rest⟩
  | _ => cases firstShape_eq_of_append writable_number writable same

theorem separable_identifier {name : String} (letters : isName name) :
    (identifier name).Separable := by
  intro e writable r s ends ends' same
  cases e with
  | identifier other =>
    obtain ⟨chars, rest⟩ := run_append_inj (isWordRest_of_isName letters)
      (isWordRest_of_isName (writable_identifier.mp writable)) ends ends' same
    exact ⟨congrArg identifier (String.toList_inj.mp chars), rest⟩
  | _ => cases firstShape_eq_of_append (writable_identifier.mpr letters) writable same

theorem parenthesized_append (inner : Expr) (r : List Char) :
    (parenthesized inner).precedenceChars ++ r = '(' :: (inner.precedenceChars ++ ')' :: r) := by
  simp [precedenceChars]

theorem application_append (callee : Expr) (args : List Expr) (r : List Char) :
    (application callee args).precedenceChars ++ r =
      '{' :: (callee.precedenceChars ++ (precedenceArgs args ++ '}' :: r)) := by
  simp [precedenceChars]

theorem binary_append (left : Expr) (operator : String) (right : Expr) (r : List Char) :
    (binary left operator right).precedenceChars ++ r =
      '{' :: (left.precedenceChars ++ (operator.toList ++ (right.precedenceChars ++ '}' :: r))) := by
  simp [precedenceChars]

theorem separable_parenthesized {inner : Expr} (separable : inner.Separable)
    (writable : inner.Writable) : (parenthesized inner).Separable := by
  intro e writable' r s _ _ same
  cases e with
  | parenthesized other =>
    rw [parenthesized_append, parenthesized_append] at same
    have closes : ∀ text, EndsWord (')' :: text) :=
      endsWord_cons (isWordRest_eq_false_of_gap (by decide) (by decide))
    obtain ⟨rfl, rest⟩ := separable other (writable_parenthesized.mp writable') _ _
      (closes r) (closes s) (List.cons.inj same).2
    exact ⟨rfl, (List.cons.inj rest).2⟩
  | _ => cases firstShape_eq_of_append (writable_parenthesized.mpr writable) writable' same

theorem separable_application {callee : Expr} {args : List Expr} (first : callee.Separable)
    (each : ∀ a ∈ args, a.Separable) (writable : (application callee args).Writable) :
    (application callee args).Separable := by
  intro e writable' r s _ _ same
  cases e with
  | application other others =>
    obtain ⟨other_writable, others_writable⟩ := writable_application.mp writable'
    rw [application_append, application_append] at same
    obtain ⟨rfl, tails⟩ := first other other_writable _ _ (endsWord_precedenceArgs args r)
      (endsWord_precedenceArgs others s) (List.cons.inj same).2
    obtain ⟨rfl, rfl⟩ := precedenceArgs_append_inj each others_writable tails
    exact ⟨rfl, rfl⟩
  | binary left operator right =>
    obtain ⟨left_writable, run, -⟩ := writable_binary.mp writable'
    rw [application_append, binary_append] at same
    obtain ⟨-, tails⟩ := first left left_writable _ _ (endsWord_precedenceArgs args r)
      (endsWord_run run _) (List.cons.inj same).2
    exact absurd tails (precedenceArgs_append_ne run args r _)
  | _ => cases firstShape_eq_of_append writable writable' same

theorem separable_binary {left right : Expr} {operator : String} (first : left.Separable)
    (second : right.Separable) (writable : (binary left operator right).Writable) :
    (binary left operator right).Separable := by
  intro e writable' r s _ _ same
  obtain ⟨-, run, right_writable⟩ := writable_binary.mp writable
  cases e with
  | application other others =>
    obtain ⟨other_writable, -⟩ := writable_application.mp writable'
    rw [binary_append, application_append] at same
    obtain ⟨-, tails⟩ := first other other_writable _ _ (endsWord_run run _)
      (endsWord_precedenceArgs others s) (List.cons.inj same).2
    exact absurd tails.symm (precedenceArgs_append_ne run others s _)
  | binary left' operator' right' =>
    obtain ⟨left_writable', run', right_writable'⟩ := writable_binary.mp writable'
    rw [binary_append, binary_append] at same
    obtain ⟨rfl, tails⟩ := first left' left_writable' _ _ (endsWord_run run _)
      (endsWord_run run' _) (List.cons.inj same).2
    obtain ⟨symbols, operands⟩ := run_append_inj (isSymbol_of_isRun run) (isSymbol_of_isRun run')
      (isSymbol_head_precedenceChars right_writable _)
      (isSymbol_head_precedenceChars right_writable' _) tails
    obtain rfl := String.toList_inj.mp symbols
    have closes : ∀ text, EndsWord ('}' :: text) :=
      endsWord_cons (isWordRest_eq_false_of_gap (by decide) (by decide))
    obtain ⟨rfl, rest⟩ := second right' right_writable' _ _ (closes r) (closes s) operands
    exact ⟨rfl, (List.cons.inj rest).2⟩
  | _ => cases firstShape_eq_of_append writable writable' same

theorem separable_of_writable {d : Expr} (writable : d.Writable) : d.Separable := by
  induction d with
  | number m => exact separable_number m
  | identifier name => exact separable_identifier (writable_identifier.mp writable)
  | application callee args callee_ih args_ih =>
    obtain ⟨callee_writable, args_writable⟩ := writable_application.mp writable
    exact separable_application (callee_ih callee_writable)
      (fun a ha => args_ih a ha (args_writable a ha)) writable
  | parenthesized inner ih =>
    have inner_writable := writable_parenthesized.mp writable
    exact separable_parenthesized (ih inner_writable) inner_writable
  | binary left operator right left_ih right_ih =>
    obtain ⟨left_writable, -, right_writable⟩ := writable_binary.mp writable
    exact separable_binary (left_ih left_writable) (right_ih right_writable) writable

/-- Trees with names and operators that a line can spell have the same precedence form only if they
are the same tree. -/
theorem precedenceForm_determines_tree {d e : Expr} (writable : d.Writable)
    (writable' : e.Writable) (same : d.precedenceForm = e.precedenceForm) : d = e := by
  have chars : d.precedenceChars ++ [] = e.precedenceChars ++ [] := by
    rw [String.ofList_injective same]
  exact (separable_of_writable writable e writable' [] [] endsWord_nil endsWord_nil chars).1

/-- An application without arguments is applied to an operator that has no parentheses. -/
theorem precedenceForm_determines_bare_argument :
    let bare : Expr := .application (.identifier "f") []
    let sum : Expr := .binary (.number 1) "+" (.identifier "x_1")
    let written : Expr := .application bare [sum]
    written.Writable ∧ (bare.apply [sum]).Writable ∧
      written.precedenceForm = (bare.apply [sum]).precedenceForm ∧ written = bare.apply [sum] := by
  intro bare sum written
  have writable : written.Writable := by decide +kernel
  have same : written.precedenceForm = (bare.apply [sum]).precedenceForm := rfl
  exact ⟨writable, writable, same, precedenceForm_determines_tree writable writable same⟩

/-- A name with braces in it would be taken for an application. -/
example : (identifier "\x7bf\x7d").precedenceForm =
    (application (.identifier "f") []).precedenceForm := rfl

end Expr

end InfixTree
