import InfixTree.Proofs.Pieces

/-!
What may stand in a line, told without the order in which it is looked for: the texts that each
pattern matches, and what an item says of the text it stands for. A piece is the longest match of
any pattern, and its item says what the piece is.
-/
namespace InfixTree

namespace Text

/-- Whether the text is, all of it, of the shape. No text is of the shape of a stray character. -/
def Shape.accepts : Shape → List Char → Bool
  | .blank, text => !text.isEmpty && text.all isBlank
  | .opening, text => text == ['(']
  | .closing, text => text == [')']
  | .digits, text => !text.isEmpty && text.all Char.isDigit
  | .symbols, text => isRun (.ofList text)
  | .word, text => isName (.ofList text)
  | .stray, _ => false

/-- No shape has a longer text at the beginning of `text ++ after` than `text`. -/
def Longest (text after : List Char) : Prop :=
  ∀ (s : Shape) (found : List Char), s.accepts found → found <+: text ++ after →
    found.length ≤ text.length

/-- All characters of the run are of the class, and neither of those around it is. -/
structure MaximalRun (inClass : Char → Bool) (before run after : List Char) : Prop where
  nonempty : run ≠ []
  inside : ∀ c ∈ run, inClass c
  begins : ∀ c ∈ before.getLast?, inClass c = false
  ends : ∀ c ∈ after.head?, inClass c = false

end Text

open Text

namespace Item

/-- The piece of the line that the item is about. -/
def text : Item → List Char
  | .ok t => t.lexeme.toList
  | .error (.unexpectedCharacter c _) => [c]
  | .error (.numberOutOfRange digits _) => digits.toList

def location : Item → Location
  | .ok t => t.location
  | .error (.unexpectedCharacter _ l) | .error (.numberOutOfRange _ l) => l

/-- The item says what stands between `before` and `after`. -/
inductive Names (before after : List Char) : Item → Prop
  | opening (l : Location) : Names before after (.ok ⟨.opening, "(", l⟩)
  | closing (l : Location) : Names before after (.ok ⟨.closing, ")", l⟩)
  | number {digits : String} {value : UInt64} (l : Location)
      (run : MaximalRun Char.isDigit before digits.toList after)
      (exact : decimalValue digits.toList = value.toNat) :
      Names before after (.ok ⟨.number value, digits, l⟩)
  | outOfRange {digits : String} (l : Location)
      (run : MaximalRun Char.isDigit before digits.toList after)
      (large : UInt64.size ≤ decimalValue digits.toList) :
      Names before after (.error (.numberOutOfRange digits l))
  | operator {spelling : String} (l : Location)
      (run : MaximalRun isSymbol before spelling.toList after) :
      Names before after (.ok ⟨.operator spelling, spelling, l⟩)
  | identifier {name : String} (l : Location) (letters : isName name)
      (ends : ∀ c ∈ after.head?, isWordRest c = false) :
      Names before after (.ok ⟨.identifier name, name, l⟩)
  | stray {c : Char} (l : Location) (unmatched : ∀ s : Shape, ∀ run, s.accepts (c :: run) = false) :
      Names before after (.error (.unexpectedCharacter c l))

end Item

namespace Text

theorem isDigit_of_ofFirst {c : Char} (shape : Shape.ofFirst c = .digits) : c.isDigit := by
  grind [Shape.ofFirst]

theorem eq_of_ofFirst_opening {c : Char} (shape : Shape.ofFirst c = .opening) : c = '(' := by
  grind [Shape.ofFirst]

theorem eq_of_ofFirst_closing {c : Char} (shape : Shape.ofFirst c = .closing) : c = ')' := by
  grind [Shape.ofFirst]

theorem isBlank_of_ofFirst {c : Char} (shape : Shape.ofFirst c = .blank) : isBlank c := by
  grind [Shape.ofFirst]

theorem ofFirst_of_isBlank {c : Char} (blank : isBlank c) : Shape.ofFirst c = .blank := by
  simp [Shape.ofFirst, blank]

/-- The first character of a text settles which shape it can be of, and the shape which characters
follow. Blanks alone are cut one by one. -/
theorem ofFirst_of_accepts {s : Shape} {c : Char} {run : List Char}
    (accepts : s.accepts (c :: run)) :
    Shape.ofFirst c = s ∧ (s = .blank ∨ ∀ d ∈ run, s.runsOn d) := by
  cases s with
  | blank =>
    have all : isBlank c ∧ ∀ d ∈ run, isBlank d := by simpa [Shape.accepts] using accepts
    exact ⟨ofFirst_of_isBlank all.1, .inl rfl⟩
  | opening =>
    obtain ⟨rfl, rfl⟩ : c = '(' ∧ run = [] := by simpa [Shape.accepts] using accepts
    exact ⟨by decide +kernel, .inr (by simp)⟩
  | closing =>
    obtain ⟨rfl, rfl⟩ : c = ')' ∧ run = [] := by simpa [Shape.accepts] using accepts
    exact ⟨by decide +kernel, .inr (by simp)⟩
  | digits =>
    have all : c.isDigit ∧ ∀ d ∈ run, d.isDigit := by simpa [Shape.accepts] using accepts
    exact ⟨ofFirst_of_isDigit all.1, .inr all.2⟩
  | symbols =>
    have all : isSymbol c ∧ ∀ d ∈ run, isSymbol d := by simpa [Shape.accepts, isRun] using accepts
    exact ⟨ofFirst_of_isSymbol all.1, .inr all.2⟩
  | word =>
    have all : isLetter c ∧ ∀ d ∈ run, isWordRest d := by
      simpa [Shape.accepts, isName] using accepts
    exact ⟨ofFirst_of_isLetter all.1, .inr all.2⟩
  | stray => simp [Shape.accepts] at accepts

theorem accepts_of_stray {c : Char} (stray : Shape.ofFirst c = .stray) (s : Shape)
    (run : List Char) : s.accepts (c :: run) = false := by
  cases accepts : s.accepts (c :: run) with
  | false => rfl
  | true =>
    obtain rfl : Shape.stray = s := stray.symm.trans (ofFirst_of_accepts accepts).1
    simp [Shape.accepts] at accepts

theorem length_le_of_prefix {inClass : Char → Bool} {found run after : List Char}
    (inside : ∀ d ∈ found, inClass d) (ends : ∀ d ∈ after.head?, inClass d = false)
    (begins : found <+: run ++ after) : found.length ≤ run.length := by
  obtain ⟨tail, whole⟩ := begins
  rcases List.append_eq_append_iff.mp whole with ⟨more, rfl, -⟩ | ⟨beyond, rfl, rfl⟩
  · simp
  · cases beyond with
    | nil => simp
    | cons d others =>
      have last : inClass d := inside d (by simp)
      rw [ends d (by simp)] at last
      contradiction

/-- Only a word has characters in it that it could not begin with. -/
theorem ofFirst_of_runsOn {s : Shape} {c : Char} (solid : s ≠ .word) (runs : s.runsOn c) :
    Shape.ofFirst c = s := by
  cases s with
  | digits => exact ofFirst_of_isDigit runs
  | symbols => exact ofFirst_of_isSymbol runs
  | word => contradiction
  | _ => simp [Shape.runsOn] at runs

theorem decimalValue_of_word? {digits : List Char} {value : UInt64}
    (read : word? digits = some value) : decimalValue digits = value.toNat := by
  obtain ⟨small, rfl⟩ : decimalValue digits < UInt64.size ∧ .ofNat (decimalValue digits) = value := by
    simpa [word?] using read
  exact (UInt64.toNat_ofNat_of_lt small).symm

/-- No run goes on across the boundary, unless that of a word. -/
def Seam (before after : List Char) : Prop :=
  ∀ s : Shape, s ≠ .word → ∀ c ∈ before.getLast?, ∀ d ∈ after.head?, s.runsOn c →
    s.runsOn d = false

theorem seam_start (text : List Char) : Seam [] text := by simp [Seam]

namespace Piece

variable {p : Piece} {before after : List Char}

theorem Whole.longest (whole : p.Whole after) (solid : p.shape ≠ .blank) :
    Longest p.chars after := by
  intro s found accepts begins
  cases found with
  | nil => simp
  | cons c run =>
    obtain ⟨rfl, others⟩ : c = p.first ∧ run <+: p.rest ++ after := by
      simpa [chars] using begins
    obtain ⟨rfl, rule⟩ : p.shape = s ∧ _ := ofFirst_of_accepts accepts
    have runs : ∀ d ∈ run, p.shape.runsOn d := rule.resolve_left solid
    have short := length_le_of_prefix runs whole.ends others
    simpa [chars] using short

theorem Whole.chars_eq (whole : p.Whole after) (alone : ∀ d, p.shape.runsOn d = false) :
    p.chars = [p.first] := by
  have none : p.rest = [] := by
    refine List.eq_nil_iff_forall_not_mem.mpr fun d hd => ?_
    have runs := whole.inside d hd
    rw [alone d] at runs
    contradiction
  rw [chars, none]

/-- A piece goes on over whatever could go on behind one of its characters. -/
theorem Whole.runsOn {s : Shape} (whole : p.Whole after) (solid : s ≠ .word) {c d : Char}
    (member : c ∈ p.chars) (here : s.runsOn c) (next : s.runsOn d) : p.shape.runsOn d := by
  have starts := ofFirst_of_runsOn solid here
  rcases List.mem_cons.mp member with rfl | later
  · rw [shape, starts]
    exact next
  · have within := whole.inside c later
    by_cases word : p.shape = .word
    · rw [word] at within ⊢
      -- of the characters that a word goes on over, digits alone begin a run of another shape
      simp only [Shape.runsOn, isWordRest, Bool.or_eq_true, beq_iff_eq] at within
      obtain (letter | digit) | rfl := within
      · rw [ofFirst_of_isLetter letter] at starts
        exact absurd starts.symm solid
      · rw [ofFirst_of_isDigit digit] at starts
        subst starts
        have digit : d.isDigit := next
        simp [Shape.runsOn, isWordRest, digit]
      · have stray : Shape.ofFirst '_' = .stray := by decide +kernel
        obtain rfl : .stray = s := by rw [← starts, stray]
        simp [Shape.runsOn] at here
    · rw [← ofFirst_of_runsOn word within, starts]
      exact next

theorem Whole.seam (whole : p.Whole after) : Seam (before ++ p.chars) after := by
  intro s solid c hc d hd here
  have member : c ∈ p.chars := by
    have last : c ∈ p.chars.getLast? := by simpa [chars, List.getLast?_append] using hc
    exact List.mem_of_getLast? last
  cases next : s.runsOn d with
  | false => rfl
  | true =>
    have more := whole.runsOn solid member here next
    rw [shape, whole.ends d hd] at more
    contradiction

theorem Whole.maximalRun {s : Shape} (whole : p.Whole after) (seam : Seam before p.chars)
    (shape : p.shape = s) (solid : s ≠ .word) (first : s.runsOn p.first) :
    MaximalRun s.runsOn before p.chars after := by
  subst shape
  refine ⟨by simp [chars], ?_, ?_, whole.ends⟩
  · intro c hc
    rcases List.mem_cons.mp hc with rfl | later
    · exact first
    · exact whole.inside c later
  · intro c hc
    cases here : p.shape.runsOn c with
    | false => rfl
    | true =>
      have apart := seam p.shape solid c hc p.first (by simp [chars]) here
      rw [first] at apart
      contradiction

/-- A piece that is not blank makes an item that says what the piece is. -/
theorem Whole.exists_item (whole : p.Whole after) (seam : Seam before p.chars)
    (solid : p.shape ≠ .blank) (l : Location) :
    ∃ item, p.item l = some item ∧ item.text = p.chars ∧ item.location = l ∧
      item.Names before after := by
  have back : (String.ofList p.chars).toList = p.chars := String.toList_ofList
  cases shape : p.shape with
  | blank => contradiction
  | opening =>
    have alone : p.chars = ['('] := by
      rw [whole.chars_eq (by simp [shape, Shape.runsOn]), eq_of_ofFirst_opening shape]
    refine ⟨.ok ⟨.opening, "(", l⟩, ?_, ?_, rfl, .opening l⟩
    · simp [item, shape, alone]
    · simp [Item.text, alone]
  | closing =>
    have alone : p.chars = [')'] := by
      rw [whole.chars_eq (by simp [shape, Shape.runsOn]), eq_of_ofFirst_closing shape]
    refine ⟨.ok ⟨.closing, ")", l⟩, ?_, ?_, rfl, .closing l⟩
    · simp [item, shape, alone]
    · simp [Item.text, alone]
  | digits =>
    have run : MaximalRun Char.isDigit before p.chars after :=
      whole.maximalRun seam shape (by decide) (isDigit_of_ofFirst shape)
    rw [← back] at run
    cases read : word? p.chars with
    | some value =>
      refine ⟨.ok ⟨.number value, .ofList p.chars, l⟩, ?_, back, rfl, .number l run ?_⟩
      · simp [item, shape, read]
      · rw [back, decimalValue_of_word? read]
    | none =>
      refine ⟨.error (.numberOutOfRange (.ofList p.chars) l), ?_, back, rfl, .outOfRange l run ?_⟩
      · simp [item, shape, read]
      · rw [back]
        exact word?_eq_none_iff.mp read
  | symbols =>
    have run : MaximalRun isSymbol before p.chars after :=
      whole.maximalRun seam shape (by decide) (isSymbol_of_ofFirst shape)
    rw [← back] at run
    refine ⟨.ok ⟨.operator (.ofList p.chars), .ofList p.chars, l⟩, ?_, back, rfl, .operator l run⟩
    simp [item, shape]
  | word =>
    have others : ∀ d ∈ p.rest, isWordRest d := by
      have inside := whole.inside
      rwa [shape] at inside
    have letters : isName (.ofList p.chars) := by
      simpa [isName, chars, isLetter_of_ofFirst shape] using others
    have ends : ∀ d ∈ after.head?, isWordRest d = false := by
      have ends := whole.ends
      rwa [Ends, ← Piece.shape, shape] at ends
    refine ⟨.ok ⟨.identifier (.ofList p.chars), .ofList p.chars, l⟩, ?_, back, rfl,
      .identifier l letters ends⟩
    simp [item, shape]
  | stray =>
    refine ⟨.error (.unexpectedCharacter p.first l), ?_, ?_, rfl,
      .stray l fun s run => accepts_of_stray shape s run⟩
    · simp [item, shape]
    · rw [whole.chars_eq (by simp [shape, Shape.runsOn])]
      rfl

end Piece

end Text

end InfixTree
