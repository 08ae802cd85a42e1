import InfixTree.Proofs.RoundTrip

/-!
Formatting what has been formatted changes nothing. A plain form may be parsed to another tree than
the one it was written from, but to one that spells the same, and the text depends on no more than
that: one blank between two pieces, save behind an opening and before a closing parenthesis.
-/
namespace InfixTree

namespace Text

def blankIf (due : Bool) : List Char := if due then [' '] else []

/-- The pieces of a line with the blanks between them; one is due before the first when a piece
stands before it that is not an opening parenthesis. -/
def spaced (due : Bool) : List Kind → List Char
  | [] => []
  | k :: rest => blankIf (due && k ≠ .closing) ++ (k.text.toList ++ spaced (k ≠ .opening) rest)

@[simp] theorem spaced_opening (due : Bool) (rest : List Kind) :
    spaced due (.opening :: rest) = blankIf due ++ '(' :: spaced false rest := by
  simp [spaced, Kind.text]

@[simp] theorem spaced_closing (due : Bool) (rest : List Kind) :
    spaced due (.closing :: rest) = ')' :: spaced true rest := by
  simp [spaced, Kind.text, blankIf]

theorem spaced_solid {k : Kind} (opening : k ≠ .opening) (closing : k ≠ .closing) (due : Bool)
    (rest : List Kind) :
    spaced due (k :: rest) = blankIf due ++ (k.text.toList ++ spaced true rest) := by
  simp [spaced, opening, closing]

end Text

open Text

namespace Expr

/-- Every argument has its blank before it. -/
theorem spaced_spellings {args : List Expr}
    (written : ∀ a ∈ args, ∀ due rest,
      spaced due (a.spelling ++ rest) = blankIf due ++ (a.plainChars ++ spaced true rest))
    (rest : List Kind) :
    spaced true (spellings args ++ rest) = plainArgs args ++ spaced true rest := by
  induction args with
  | nil => rfl
  | cons a others ih =>
    have tail := ih fun b hb => written b (by simp [hb])
    calc spaced true (spellings (a :: others) ++ rest)
        = spaced true (a.spelling ++ (spellings others ++ rest)) := by simp [spellings]
      _ = ' ' :: (a.plainChars ++ spaced true (spellings others ++ rest)) :=
        written a (by simp) true _
      _ = plainArgs (a :: others) ++ spaced true rest := by simp [tail, plainArgs]

/-- A tree is written as its pieces are, whatever stands around it. -/
theorem spaced_spelling (e : Expr) (due : Bool) (rest : List Kind) :
    spaced due (e.spelling ++ rest) = blankIf due ++ (e.plainChars ++ spaced true rest) := by
  induction e generalizing due rest with
  | number value => simp [spelling, plainChars, spaced_solid, Kind.text]
  | identifier name => simp [spelling, plainChars, spaced_solid, Kind.text]
  | application callee args ihf ih =>
    have arguments := spaced_spellings (fun a ha due rest => ih a ha due rest) rest
    simp [spelling, plainChars, ihf, arguments]
  | parenthesized inner ih =>
    have inside : spaced false (inner.spelling ++ .closing :: rest) =
        inner.plainChars ++ ')' :: spaced true rest := by simp [ih, blankIf]
    simp [spelling, plainChars, inside]
  | binary left operator right ihl ihr =>
    simp [spelling, plainChars, ihl, ihr, spaced_solid, Kind.text, blankIf]

theorem plainForm_eq_spaced (e : Expr) : e.plainForm = String.ofList (spaced false e.spelling) := by
  have alone := spaced_spelling e false []
  simp only [List.append_nil] at alone
  simp [plainForm, alone, blankIf, spaced]

theorem plainForm_eq_of_spelling {d e : Expr} (same : d.spelling = e.spelling) :
    d.plainForm = e.plainForm := by
  rw [plainForm_eq_spaced, plainForm_eq_spaced, same]

end Expr

/-- The plain form of an accepted line is an accepted line of the same plain form, also where its
tree is another one because the operands and operators of the line did not alternate. -/
theorem plainForm_of_plainForm {line : String} {tokens : List Token} {e : Expr}
    (scanned : tokenize line = .ok tokens) (parsed : parse .lenient tokens = .ok e) :
    ∃ again, tokenize e.plainForm = .ok again ∧ kinds again = e.spelling ∧
      ∃ u, parse .lenient again = .ok u ∧ u.plainForm = e.plainForm := by
  obtain ⟨again, rescanned, spelled, level, -⟩ :=
    reparse_plainForm (Parse.applied_of_parse parsed) (writable_of_accepted scanned parsed)
  obtain ⟨u, reads⟩ := level.tree
  have reparsed : parse .lenient again = .ok u := Parse.parse_of_reads reads (by simp)
  have same : u.spelling = e.spelling := reads.spelled.trans spelled
  exact ⟨again, rescanned, spelled, u, reparsed, Expr.plainForm_eq_of_spelling same⟩

/-- Here the plain form `0 $ 1 + 2 * 3` has another tree than the line. -/
theorem plainForm_of_plainForm_movedSum :
    tokenize "0 1 2 + $ * 3" = .ok movedSum ∧ parse .lenient movedSum = .ok sumTimesThree ∧
      ∃ again, tokenize sumTimesThree.plainForm = .ok again ∧
        kinds again = sumTimesThree.spelling ∧
        ∃ u, parse .lenient again = .ok u ∧ u.plainForm = sumTimesThree.plainForm :=
  ⟨tokenize_movedSum, parse_movedSum .lenient,
    plainForm_of_plainForm tokenize_movedSum (parse_movedSum .lenient)⟩

end InfixTree
