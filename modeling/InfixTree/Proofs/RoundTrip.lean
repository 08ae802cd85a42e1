import InfixTree.Proofs.Contents
import InfixTree.Proofs.InfixLines
import InfixTree.Proofs.Scanning

/-!
From a tree to its plain form and back. A tree that groups as fixities say, with names and
operators that a line can spell, is read back from its plain form. Parsing accepts lines whose
trees do not group so; those trees come back as other ones.
-/
namespace InfixTree

/-- The trees that are readings of a line. -/
structure Expr.Canonical (e : Expr) : Prop where
  applied : e.Applied
  writable : e.Writable
  grouped : e.Grouped

/-- The plain form is an infix line with the tokens of the tree, and is parsed to the same tree
exactly when that groups as fixities say and, in strict mode, has no clash. -/
theorem reparse_plainForm {e : Expr} (applied : e.Applied) (writable : e.Writable) :
    ∃ tokens, tokenize e.plainForm = .ok tokens ∧ kinds tokens = e.spelling ∧
      Grammar.IsLevel (kinds tokens) ∧
      ∀ mode, parse mode tokens = .ok e ↔ e.Grouped ∧ (mode = .strict → e.Unchained) := by
  obtain ⟨tokens, scanned, spelled⟩ := Expr.tokenize_plainForm writable
  have level : Grammar.IsLevel (kinds tokens) := by
    rw [spelled]
    exact Grammar.isLevel_spelling applied
  refine ⟨tokens, scanned, spelled, level, fun mode => ?_⟩
  rw [parse_eq_ok_iff_reads level]
  constructor
  · rintro ⟨reads, unchained⟩
    exact ⟨reads.grouped, unchained⟩
  · rintro ⟨grouped, unchained⟩
    exact ⟨⟨spelled.symm, applied, grouped⟩, unchained⟩

theorem canonical_tree_is_read_back {e : Expr} (canonical : e.Canonical) :
    ∃ tokens, tokenize e.plainForm = .ok tokens ∧ kinds tokens = e.spelling ∧
      parse .lenient tokens = .ok e := by
  obtain ⟨tokens, scanned, spelled, -, back⟩ :=
    reparse_plainForm canonical.applied canonical.writable
  exact ⟨tokens, scanned, spelled, (back .lenient).mpr ⟨canonical.grouped, by simp⟩⟩

/-- The largest number, letters of two scripts, an operator of no table below one of the table,
and a chain under parentheses as an argument. -/
theorem wide_tree_is_read_back :
    let chain : Expr := .binary (.binary (.identifier "Ω_1") "==" (.number 0)) "<$" (.number 7)
    let e : Expr := .binary (.application (.identifier "straße") [.identifier "x",
      .parenthesized chain, .number 18446744073709551615]) "." (.binary (.number 1) "§" (.number 2))
    e.Canonical ∧ ∃ tokens, tokenize e.plainForm = .ok tokens ∧ kinds tokens = e.spelling ∧
      parse .lenient tokens = .ok e := by
  intro chain e
  have canonical : e.Canonical := ⟨by decide +kernel, by decide +kernel, by decide +kernel⟩
  exact ⟨canonical, canonical_tree_is_read_back canonical⟩

theorem writable_of_accepted {mode : Mode} {line : String} {tokens : List Token} {e : Expr}
    (scanned : tokenize line = .ok tokens) (parsed : parse mode tokens = .ok e) : e.Writable :=
  fun k hk => isWritable_of_tokenize scanned k ((Parse.spelling_perm_of_parse parsed).mem_iff.mp hk)

/-- The plain form of the tree of an accepted line is always an infix line. It gives the tree once
more when the line was infix itself, and else only where the tree groups as if it had been. -/
theorem plainForm_of_accepted_line {mode : Mode} {line : String} {tokens : List Token} {e : Expr}
    (scanned : tokenize line = .ok tokens) (parsed : parse mode tokens = .ok e) :
    ∃ again, tokenize e.plainForm = .ok again ∧ kinds again = e.spelling ∧
      Grammar.IsLevel (kinds again) ∧
      (parse mode again = .ok e ↔ e.Grouped ∧ (mode = .strict → e.Unchained)) ∧
      (Grammar.IsLevel (kinds tokens) → parse mode again = .ok e) := by
  obtain ⟨again, rescanned, spelled, level, back⟩ :=
    reparse_plainForm (Parse.applied_of_parse parsed) (writable_of_accepted scanned parsed)
  refine ⟨again, rescanned, spelled, level, back mode, fun line => (back mode).mpr ?_⟩
  obtain ⟨reads, unchained⟩ := (parse_eq_ok_iff_reads line).mp parsed
  exact ⟨reads.grouped, unchained⟩

/-- The tokens of `0 1 2 + $ * 3`, in which three operators have no operand between them. -/
def movedSum : List Token :=
  [⟨.number 0, "0", ⟨1, 1, 0⟩⟩, ⟨.number 1, "1", ⟨1, 3, 2⟩⟩, ⟨.number 2, "2", ⟨1, 5, 4⟩⟩,
    ⟨.operator "+", "+", ⟨1, 7, 6⟩⟩, ⟨.operator "$", "$", ⟨1, 9, 8⟩⟩,
    ⟨.operator "*", "*", ⟨1, 11, 10⟩⟩, ⟨.number 3, "3", ⟨1, 13, 12⟩⟩]

def sumTimesThree : Expr :=
  .binary (.number 0) "$" (.binary (.binary (.number 1) "+" (.number 2)) "*" (.number 3))

theorem tokenize_movedSum : tokenize "0 1 2 + $ * 3" = .ok movedSum :=
  tokenize_of_toOption (by decide +kernel)

theorem parse_movedSum (mode : Mode) : parse mode movedSum = .ok sumTimesThree := by
  cases mode <;> rfl

theorem plainForm_of_movedSum :
    tokenize "0 1 2 + $ * 3" = .ok movedSum ∧ parse .strict movedSum = .ok sumTimesThree ∧
      ∃ again, tokenize sumTimesThree.plainForm = .ok again ∧
        kinds again = sumTimesThree.spelling ∧ Grammar.IsLevel (kinds again) ∧
        (parse .strict again = .ok sumTimesThree ↔
          sumTimesThree.Grouped ∧ (Mode.strict = .strict → sumTimesThree.Unchained)) ∧
        (Grammar.IsLevel (kinds movedSum) → parse .strict again = .ok sumTimesThree) :=
  ⟨tokenize_movedSum, parse_movedSum .strict,
    plainForm_of_accepted_line tokenize_movedSum (parse_movedSum .strict)⟩

/-- The sum is a factor without parentheses, so the plain form means another tree. -/
theorem accepted_line_not_read_back :
    ¬ ∀ (mode : Mode) (line : String) (tokens : List Token) (e : Expr),
      tokenize line = .ok tokens → parse mode tokens = .ok e →
        ∃ again, tokenize e.plainForm = .ok again ∧ parse mode again = .ok e := by
  intro claimed
  obtain ⟨again, scanned, parsed⟩ :=
    claimed .lenient _ _ _ tokenize_movedSum (parse_movedSum .lenient)
  obtain ⟨tokens, rescanned, -, -, back⟩ :=
    reparse_plainForm (Parse.applied_of_parse (parse_movedSum .lenient))
      (writable_of_accepted tokenize_movedSum (parse_movedSum .lenient))
  obtain rfl : again = tokens := by
    rw [scanned] at rescanned
    exact Except.ok.inj rescanned
  have apart : ¬ sumTimesThree.Grouped := by decide +kernel
  exact apart ((back .lenient).mp parsed).1

end InfixTree
