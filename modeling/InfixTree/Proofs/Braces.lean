import InfixTree.Proofs.Scanning
import InfixTree.Proofs.UniqueReading

/-!
The precedence form without its braces. Where a blank stands for each of them, the text is scanned
into the pieces of the plain form, which is spaced by other rules: no blank is left around an
operator, and none is needed, since a name or a number ends in front of it and it ends in front of
every tree.
-/
namespace InfixTree

open Text

def unbrace (c : Char) : Char := if c = '{' ∨ c = '}' then ' ' else c

/-- The text with a blank for every brace. -/
def unbraced (text : String) : String := text.map unbrace

namespace Text

theorem isWordRest_blank : isWordRest ' ' = false :=
  isWordRest_eq_false_of_gap (by decide) (by decide)

theorem isDigit_eq_false_of_isWordRest {c : Char} (outside : isWordRest c = false) :
    c.isDigit = false := by
  simp only [isWordRest, Bool.or_eq_false_iff] at outside
  exact outside.1.2

theorem map_unbrace {text : List Char} (inside : ∀ c ∈ text, isWordRest c ∨ isSymbol c) :
    text.map unbrace = text := by
  have no_brace : ∀ c, c = '{' ∨ c = '}' → ¬ (isWordRest c ∨ isSymbol c) := by
    rintro c (rfl | rfl)
    · rw [isWordRest_eq_false_of_gap (by decide) (by decide)]
      decide
    · rw [isWordRest_eq_false_of_gap (by decide) (by decide)]
      decide
  calc text.map unbrace
      = text.map id :=
        List.map_congr_left fun c hc => if_neg fun brace => no_brace c brace (inside c hc)
    _ = text := List.map_id text

theorem isSymbol_unbrace {c : Char} (other : isSymbol c = false) : isSymbol (unbrace c) = false := by
  unfold unbrace
  split
  · decide
  · exact other

end Text

namespace Expr

/-- The characters of the precedence form with a blank for every brace. -/
def bareChars (e : Expr) : List Char := e.precedenceChars.map unbrace

def bareArgs (args : List Expr) : List Char := (precedenceArgs args).map unbrace

theorem bareChars_application (callee : Expr) (args : List Expr) :
    (application callee args).bareChars = [' '] ++ (callee.bareChars ++ (bareArgs args ++ [' '])) := by
  simp [bareChars, bareArgs, precedenceChars, unbrace]

theorem bareChars_parenthesized (inner : Expr) :
    (parenthesized inner).bareChars = ['('] ++ (inner.bareChars ++ [')']) := by
  simp [bareChars, precedenceChars, unbrace]

theorem bareChars_binary {operator : String} (run : isRun operator) (left right : Expr) :
    (binary left operator right).bareChars =
      [' '] ++ (left.bareChars ++ (operator.toList ++ (right.bareChars ++ [' ']))) := by
  have solid := map_unbrace fun c hc => .inr (isSymbol_of_isRun run c hc)
  simp [bareChars, precedenceChars, solid, unbrace]

theorem bareArgs_cons (a : Expr) (rest : List Expr) :
    bareArgs (a :: rest) = [' '] ++ (a.bareChars ++ bareArgs rest) := by
  simp [bareChars, bareArgs, precedenceArgs, unbrace]

theorem endsWord_bareArgs (args : List Expr) (text : List Char) :
    EndsWord (bareArgs args ++ ' ' :: text) := by
  cases args with
  | nil => exact endsWord_cons isWordRest_blank text
  | cons a rest =>
    rw [bareArgs_cons]
    exact endsWord_cons isWordRest_blank _

theorem isSymbol_head_bareChars {e : Expr} (writable : e.Writable) (text : List Char) :
    ∀ c ∈ (e.bareChars ++ text).head?, isSymbol c = false := by
  obtain ⟨c, rest, form, -⟩ := exists_first writable
  have first := isSymbol_head_precedenceChars writable [] c (by simp [form])
  intro d head
  obtain rfl : unbrace c = d := by simpa [bareChars, form] using head
  exact isSymbol_unbrace first

theorem scans_bareArgs {args : List Expr} {rest : List Char}
    (scans : ∀ a ∈ args, ∀ more, EndsWord more → Scans a.bareChars a.spelling more) :
    Scans (bareArgs args) (spellings args) (' ' :: rest) := by
  induction args with
  | nil => exact scans_nil
  | cons a others ih =>
    have first := scans a (by simp) _ (endsWord_bareArgs others rest)
    have tail := ih fun b hb => scans b (by simp [hb])
    rw [bareArgs_cons]
    exact scans_blank.append (first.append tail)

theorem scans_bareChars {e : Expr} (writable : e.Writable) {rest : List Char}
    (ends : EndsWord rest) : Scans e.bareChars e.spelling rest := by
  induction e generalizing rest with
  | number value =>
    have digits : (number value).bareChars = decimal value.toNat :=
      map_unbrace fun c hc => .inl (isWordRest_of_mem_decimal hc)
    rw [digits]
    exact scans_number value fun d hd => isDigit_eq_false_of_isWordRest (ends d hd)
  | identifier name =>
    have letters := writable_identifier.mp writable
    have same : (identifier name).bareChars = name.toList :=
      map_unbrace fun c hc => .inl (isWordRest_of_isName letters c hc)
    rw [same]
    exact scans_identifier letters ends
  | application callee args ihf ih =>
    obtain ⟨callee_writable, args_writable⟩ := writable_application.mp writable
    have first := ihf callee_writable (endsWord_bareArgs args rest)
    have second : Scans (bareArgs args) (spellings args) (' ' :: rest) :=
      scans_bareArgs fun a ha more outside => ih a ha (args_writable a ha) outside
    have whole := scans_blank.append
      (Scans.append (by simpa using first) (second.append scans_blank))
    rw [bareChars_application]
    simpa [spelling] using whole
  | parenthesized inner ih =>
    have closes : EndsWord (')' :: rest) :=
      endsWord_cons (isWordRest_eq_false_of_gap (by decide) (by decide)) rest
    have middle := ih (writable_parenthesized.mp writable) closes
    rw [bareChars_parenthesized]
    exact scans_opening.append (middle.append scans_closing)
  | binary left operator right ihl ihr =>
    obtain ⟨left_writable, run, right_writable⟩ := writable_binary.mp writable
    have first := ihl left_writable (endsWord_run run (right.bareChars ++ ' ' :: rest))
    have second := scans_operator run (isSymbol_head_bareChars right_writable (' ' :: rest))
    have third := ihr right_writable (endsWord_cons isWordRest_blank rest)
    have whole := scans_blank.append (Scans.append (by simpa using first)
      (Scans.append (by simpa using second) (third.append scans_blank)))
    rw [bareChars_binary run]
    simpa [spelling] using whole

end Expr

/-- With blanks for its braces, the precedence form of a tree has the same tokens as the plain form,
those that the tree spells. -/
theorem unbraced_form_has_tokens_of_plainForm {e : Expr} (writable : e.Writable) :
    ∃ tokens plain, tokenize (unbraced e.precedenceForm) = .ok tokens ∧
      tokenize e.plainForm = .ok plain ∧ kinds tokens = e.spelling ∧ kinds plain = e.spelling := by
  obtain ⟨plain, scanned, spelled⟩ := Expr.tokenize_plainForm writable
  obtain ⟨tokens, same, found⟩ := Expr.scans_bareChars writable endsWord_nil .start
  refine ⟨tokens, plain, tokenize_eq_ok_iff.mpr ?_, scanned, same, spelled⟩
  simpa [items, unbraced, Expr.precedenceForm, Expr.bareChars, itemsFrom] using found

/-- No line has this tree: an operator with its operands is applied, the argument is a name applied
to nothing, and the right operand of `§` has a looser operator. -/
theorem unbraced_form_of_bare_callee :
    let callee : Expr := .binary (.number 1) "." (.number 2)
    let sum : Expr := .binary (.identifier "a_1") "+" (.parenthesized (.number 0))
    let e : Expr := .binary (.application callee [.application (.identifier "f") []]) "§" sum
    e.Writable ∧ unbraced e.precedenceForm = "   1.2   f  § a_1+(0)  " ∧
      ∃ tokens plain, tokenize (unbraced e.precedenceForm) = .ok tokens ∧
        tokenize e.plainForm = .ok plain ∧ kinds tokens = e.spelling ∧
          kinds plain = e.spelling := by
  intro callee sum e
  have writable : e.Writable := by decide +kernel
  exact ⟨writable, by decide +kernel, unbraced_form_has_tokens_of_plainForm writable⟩

end InfixTree
