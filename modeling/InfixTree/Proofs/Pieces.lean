import InfixTree.Proofs.Spelling
import InfixTree.Token.Scan

/-!
Which shape a character begins, and where a piece ends. The classes of letters, digits, symbols,
blanks and parentheses have no character in common, so the order in which a piece's shape is
looked for does not matter.
-/
namespace InfixTree.Text

/-- Stretches of characters without a letter. All blanks, digits and symbols lie in them. -/
def gaps : List (Nat × Nat) :=
  [(0x00, 0x40), (0x5B, 0x60), (0x7B, 0xA9), (0xB6, 0xB9), (0xBB, 0xBF), (0x1680, 0x1680),
    (0x2000, 0x205F), (0x20AC, 0x20AC), (0x3000, 0x3000)]

def inGap (low high : Nat) : Bool := gaps.any fun g => g.1.ble low && high.ble g.2

theorem letters_outside_gaps :
    gaps.all fun g => letterRanges.all fun r => g.2.blt r.1 || r.2.blt g.1 := by
  decide +kernel

theorem outside_of_isLetter {c : Char} {low high : Nat} (letter : isLetter c)
    (gap : inGap low high) : c.toNat < low ∨ high < c.toNat := by
  obtain ⟨r, hr, above, below⟩ := isLetter_iff.mp letter
  obtain ⟨g, hg, inside⟩ := List.any_eq_true.mp gap
  have outside := List.all_eq_true.mp (List.all_eq_true.mp letters_outside_gaps g hg) r hr
  simp only [Bool.or_eq_true, Bool.and_eq_true, Nat.blt_eq, Nat.ble_eq] at inside outside
  omega

theorem isBlank_eq_false_of_isLetter {c : Char} (letter : isLetter c) : isBlank c = false := by
  have covered : blankRanges.all fun b => inGap b.1 b.2 := by decide +kernel
  simp only [isBlank, List.any_eq_false, Bool.and_eq_true, decide_eq_true_eq]
  intro b hb inside
  have := outside_of_isLetter letter (List.all_eq_true.mp covered b hb)
  omega

theorem lt_of_isLetter {c : Char} (letter : isLetter c) : 0x39 < c.toNat := by
  have covered : inGap 0 0x39 := by decide +kernel
  have := outside_of_isLetter letter covered
  omega

theorem isDigit_eq_false_of_isLetter {c : Char} (letter : isLetter c) : c.isDigit = false := by
  have above := lt_of_isLetter letter
  by_cases digit : c.isDigit
  · have : c.toNat ≤ 0x39 := by
      simp only [Char.isDigit, Bool.and_eq_true, decide_eq_true_eq, UInt32.le_iff_toNat_le] at digit
      exact digit.2
    omega
  · simpa using digit

theorem isSymbol_eq_false_of_isLetter {c : Char} (letter : isLetter c) : isSymbol c = false := by
  have covered : symbols.all fun s => inGap s.toNat s.toNat := by decide +kernel
  by_cases symbol : isSymbol c
  · have gap := List.all_eq_true.mp covered c (by simpa [isSymbol] using symbol)
    have := outside_of_isLetter letter gap
    omega
  · simpa using symbol

theorem ofFirst_of_isLetter {c : Char} (letter : isLetter c) : Shape.ofFirst c = .word := by
  have above := lt_of_isLetter letter
  have opening : c ≠ '(' := by rintro rfl; exact absurd above (by decide)
  have closing : c ≠ ')' := by rintro rfl; exact absurd above (by decide)
  simp [Shape.ofFirst, isBlank_eq_false_of_isLetter letter, opening, closing,
    isDigit_eq_false_of_isLetter letter, isSymbol_eq_false_of_isLetter letter, letter]

theorem ofFirst_of_isDigit {c : Char} (digit : c.isDigit) : Shape.ofFirst c = .digits := by
  have bounds : 0x30 ≤ c.toNat ∧ c.toNat ≤ 0x39 := by
    simpa [Char.isDigit, UInt32.le_iff_toNat_le] using digit
  have solid : isBlank c = false := by
    simp only [isBlank, List.any_eq_false, Bool.and_eq_true, decide_eq_true_eq]
    rintro b hb ⟨above, below⟩
    have apart : ∀ b ∈ blankRanges, b.2 < 0x30 ∨ 0x39 < b.1 := by decide
    have := apart b hb
    omega
  have opening : c ≠ '(' := by rintro rfl; simp at digit
  have closing : c ≠ ')' := by rintro rfl; simp at digit
  simp [Shape.ofFirst, solid, opening, closing, digit]

theorem ofFirst_of_isSymbol {c : Char} (symbol : isSymbol c) : Shape.ofFirst c = .symbols := by
  have every : symbols.all (Shape.ofFirst · == .symbols) := by decide +kernel
  simpa using List.all_eq_true.mp every c (by simpa [isSymbol] using symbol)

theorem isLetter_of_ofFirst {c : Char} (shape : Shape.ofFirst c = .word) : isLetter c := by
  grind [Shape.ofFirst]

theorem isSymbol_of_ofFirst {c : Char} (shape : Shape.ofFirst c = .symbols) : isSymbol c := by
  grind [Shape.ofFirst]

/-- A piece of the shape of `c` ends before the text. -/
def Ends (c : Char) (text : List Char) : Prop :=
  ∀ d ∈ text.head?, (Shape.ofFirst c).runsOn d = false

/-- Every piece ends before the text. -/
def Breaks (text : List Char) : Prop := ∀ d ∈ text.head?, ∀ s : Shape, s.runsOn d = false

theorem breaks_nil : Breaks [] := by simp [Breaks]

theorem breaks_blank (text : List Char) : Breaks (' ' :: text) := by
  have all : ∀ s : Shape, s.runsOn ' ' = false := by intro s; cases s <;> decide +kernel
  simpa [Breaks] using all

theorem breaks_closing (text : List Char) : Breaks (')' :: text) := by
  have all : ∀ s : Shape, s.runsOn ')' = false := by intro s; cases s <;> decide +kernel
  simpa [Breaks] using all

theorem Breaks.ends {text : List Char} (breaks : Breaks text) (c : Char) : Ends c text :=
  fun d hd => breaks d hd _

theorem cut_append {c : Char} {run rest : List Char} (inside : ∀ d ∈ run, (Shape.ofFirst c).runsOn d)
    (ends : Ends c rest) : cut (c :: (run ++ rest)) = ⟨c, run⟩ :: cut rest := by
  rw [cut_cons, List.takeWhile_append_of_pos inside, List.dropWhile_append_of_pos inside]
  cases rest with
  | nil => simp
  | cons d others => simp [ends d rfl]

/-- All of the piece is of its shape, and the piece ends before the text. -/
structure Piece.Whole (p : Piece) (after : List Char) : Prop where
  inside : ∀ d ∈ p.rest, p.shape.runsOn d
  ends : Ends p.first after

theorem Piece.Whole.cut_eq {p : Piece} {after : List Char} (whole : p.Whole after) :
    cut (p.chars ++ after) = p :: cut after :=
  cut_append whole.inside whole.ends

theorem exists_whole_piece (c : Char) (text : List Char) :
    ∃ (p : Piece) (after : List Char), c :: text = p.chars ++ after ∧ p.Whole after := by
  let p : Piece := ⟨c, text.takeWhile (Shape.ofFirst c).runsOn⟩
  refine ⟨p, text.dropWhile (Shape.ofFirst c).runsOn, ?_, ?_, ?_⟩
  · simp [p, Piece.chars, List.takeWhile_append_dropWhile]
  · exact fun d hd => List.all_eq_true.mp List.all_takeWhile d hd
  · intro d hd
    have stopped := List.head?_dropWhile_not (Shape.ofFirst c).runsOn text
    rwa [Option.mem_def.mp hd] at stopped

/-- Induction on a text from its end, piece by piece. -/
theorem piece_induction {motive : List Char → Prop} (nil : motive [])
    (piece : ∀ (p : Piece) (after : List Char), p.Whole after → motive after →
      motive (p.chars ++ after)) (text : List Char) : motive text := by
  induction h : text.length using Nat.strongRecOn generalizing text with
  | ind n ih =>
    cases text with
    | nil => exact nil
    | cons c others =>
      obtain ⟨p, after, split, whole⟩ := exists_whole_piece c others
      have shorter : after.length < n := by
        have lengths := congrArg List.length split
        simp only [Piece.chars, List.length_append, List.length_cons] at lengths h
        omega
      rw [split]
      exact piece p after whole (ih _ shorter after rfl)

/-- What the first character of a piece settles holds of all of it. -/
theorem runsOn_of_mem_cut {text : List Char} {p : Piece} (piece : p ∈ cut text) :
    ∀ d ∈ p.rest, p.shape.runsOn d := by
  induction text using piece_induction with
  | nil => simp at piece
  | piece q after whole ih =>
    rw [whole.cut_eq] at piece
    rcases List.mem_cons.mp piece with rfl | later
    · exact whole.inside
    · exact ih later

end InfixTree.Text
