import InfixTree.Proofs.Refusal
import InfixTree.Proofs.Scanning

/-!
On infix lines the parser gives the reading of the line: the one tree that spells it and groups as
fixities say. Strict mode gives the same tree, or none when the tree has a chain that clashes.
-/
namespace InfixTree

theorem reads_unique {d e : Expr} {tokens : List Token} (hd : d.Reads (kinds tokens))
    (he : e.Reads (kinds tokens)) : d = e := by
  have first : parse .lenient tokens = .ok d := Parse.parse_of_reads hd (by simp)
  rw [Parse.parse_of_reads he (by simp)] at first
  exact (Except.ok.inj first).symm

/-- What parsing gives on an infix line, in either mode. -/
theorem parse_eq_ok_iff_reads {mode : Mode} {tokens : List Token} {e : Expr}
    (line : Grammar.IsLevel (kinds tokens)) :
    parse mode tokens = .ok e ↔ e.Reads (kinds tokens) ∧ (mode = .strict → e.Unchained) := by
  constructor
  · intro parsed
    obtain ⟨d, reads⟩ := line.tree
    have same : (mode = .strict → d.Unchained) → d = e := fun unchained => by
      rw [Parse.parse_of_reads reads unchained] at parsed
      exact Except.ok.inj parsed
    cases mode with
    | lenient =>
      obtain rfl := same (by simp)
      exact ⟨reads, by simp⟩
    | strict =>
      cases clashes : d.clashes none 0 with
      | nil =>
        have unchained := Parse.unchained_of_clashes clashes
        obtain rfl := same fun _ => unchained
        exact ⟨reads, fun _ => unchained⟩
      | cons c rest =>
        obtain ⟨t, -, refused⟩ := Parse.parse_strict_of_clashes reads clashes
        rw [refused] at parsed
        contradiction
  · rintro ⟨reads, unchained⟩
    exact Parse.parse_of_reads reads unchained

theorem infix_line_has_one_reading {tokens : List Token} (line : Grammar.IsLevel (kinds tokens)) :
    ∃ e, parse .lenient tokens = .ok e ∧ e.Reads (kinds tokens) ∧
      ∀ d : Expr, d.Reads (kinds tokens) → d = e := by
  obtain ⟨e, reads⟩ := line.tree
  exact ⟨e, Parse.parse_of_reads reads (by simp), reads, fun d hd => reads_unique hd reads⟩

/-- A chain of one precedence that groups both ways, with an application, a level of its own, a
tighter chain and an operator of no table in it. -/
theorem mixed_chain_has_one_reading :
    ∃ tokens, tokenize "a <$> b == f 2 (1 - 3 ~~ 4 - 5) : 6 : 7 <* 8" = .ok tokens ∧
      Grammar.IsLevel (kinds tokens) ∧ ∃ e, parse .lenient tokens = .ok e ∧
        e.Reads (kinds tokens) ∧ ∀ d : Expr, d.Reads (kinds tokens) → d = e := by
  let group : Expr := .binary (.binary (.number 1) "-" (.binary (.number 3) "~~" (.number 4)))
    "-" (.number 5)
  let list : Expr := .binary (.application (.identifier "f") [.number 2, .parenthesized group])
    ":" (.binary (.number 6) ":" (.number 7))
  let whole : Expr := .binary (.binary (.identifier "a") "<$>"
    (.binary (.identifier "b") "==" list)) "<*" (.number 8)
  obtain ⟨tokens, scanned, spelled⟩ := Expr.tokenize_plainForm (by decide +kernel : whole.Writable)
  have line : Grammar.IsLevel (kinds tokens) := by
    rw [spelled]
    exact Grammar.isLevel_spelling (by decide +kernel)
  exact ⟨tokens, scanned, line, infix_line_has_one_reading line⟩

end InfixTree
