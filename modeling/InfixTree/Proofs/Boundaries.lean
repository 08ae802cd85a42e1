import InfixTree.Proofs.Decomposition

/-!
Scanning in parts. No piece runs over a blank, a parenthesis or a character that nothing can be made
of, so a line that is cut at such a character is scanned as its two parts are; what the second part
gives is only moved behind the first.
-/
namespace InfixTree

/-- The place in the whole line of what its last part has at `l`, when that part begins at
`base`. -/
def Location.within (base l : Location) : Location where
  line := base.line + (l.line - 1)
  column := if l.line = 1 then base.column + (l.column - 1) else l.column
  offset := base.offset + l.offset

namespace Item

/-- The same item at another place. -/
def placed : Item → Location → Item
  | .ok t, l => .ok { t with location := l }
  | .error (.unexpectedCharacter c _), l => .error (.unexpectedCharacter c l)
  | .error (.numberOutOfRange digits _), l => .error (.numberOutOfRange digits l)

/-- What the item says, wherever it stands: the kind and the lexeme of a token, or what is wrong. -/
def content (item : Item) : Item := item.placed .start

/-- The item in the whole line of one in its last part, when that part begins at `base`. -/
def behind (base : Location) (item : Item) : Item := item.placed (base.within item.location)

@[simp] theorem location_placed (item : Item) (l : Location) : (item.placed l).location = l := by
  match item with
  | .ok _ => rfl
  | .error (.unexpectedCharacter _ _) => rfl
  | .error (.numberOutOfRange _ _) => rfl

@[simp] theorem placed_placed (item : Item) (l m : Location) :
    (item.placed l).placed m = item.placed m := by
  match item with
  | .ok _ => rfl
  | .error (.unexpectedCharacter _ _) => rfl
  | .error (.numberOutOfRange _ _) => rfl

@[simp] theorem content_behind (base : Location) (item : Item) :
    (item.behind base).content = item.content := placed_placed item _ _

theorem offset_behind (base : Location) (item : Item) :
    (item.behind base).location.offset = base.offset + item.location.offset := by
  rw [behind, location_placed]
  rfl

end Item

namespace Text

/-- A blank, a parenthesis, or a character that no piece can begin with or go on over. -/
def IsBoundary (c : Char) : Prop :=
  isBlank c ∨ c = '(' ∨ c = ')' ∨
    (isLetter c = false ∧ c.isDigit = false ∧ isSymbol c = false ∧ c ≠ '_')

/-- The item of a boundary, which a blank has not. -/
def boundaryItem (c : Char) (l : Location) : Option Item :=
  if isBlank c then none
  else if c = '(' then some (.ok ⟨.opening, "(", l⟩)
  else if c = ')' then some (.ok ⟨.closing, ")", l⟩)
  else some (.error (.unexpectedCharacter c l))

theorem cut_append_of_breaks {text rest : List Char} (breaks : Breaks rest) :
    cut (text ++ rest) = cut text ++ cut rest := by
  induction text using piece_induction with
  | nil => simp
  | piece p after whole ih =>
    have ends : Ends p.first (after ++ rest) := by
      cases after with
      | nil => exact breaks.ends p.first
      | cons d others => exact whole.ends
    have longer : p.Whole (after ++ rest) := ⟨whole.inside, ends⟩
    rw [List.append_assoc, longer.cut_eq, whole.cut_eq, ih, List.cons_append]

theorem itemsFrom_append (l : Location) (ps qs : List Piece) :
    itemsFrom l (ps ++ qs) =
      itemsFrom l ps ++ itemsFrom (l.advance (ps.flatMap Piece.chars)) qs := by
  induction ps generalizing l with
  | nil => rfl
  | cons p ps ih =>
    rw [List.cons_append, itemsFrom, itemsFrom, ih, List.flatMap_cons, Location.advance_append,
      List.append_assoc]

theorem item_behind (p : Piece) (base l : Location) :
    p.item (base.within l) = (p.item l).map (Item.behind base) := by
  unfold Piece.item
  cases p.shape with
  | digits =>
    dsimp only
    split <;> rfl
  | _ => rfl

end Text

namespace Location

/-- Lines and columns are counted from 1. -/
def Counted (l : Location) : Prop := 1 ≤ l.line ∧ 1 ≤ l.column

theorem counted_next {l : Location} (counted : l.Counted) (c : Char) : (l.next c).Counted := by
  obtain ⟨line, column⟩ := counted
  unfold next
  split
  · exact ⟨by dsimp only; omega, Nat.le_refl 1⟩
  · exact ⟨line, by dsimp only; omega⟩

theorem within_next (base : Location) {l : Location} (counted : l.Counted) (c : Char) :
    (base.within l).next c = base.within (l.next c) := by
  obtain ⟨line, column⟩ := counted
  by_cases feed : c = '\n'
  · have later : l.line + 1 ≠ 1 := by omega
    simp only [next, within, if_pos feed, if_neg later, mk.injEq, true_and]
    omega
  · simp only [next, within, if_neg feed, mk.injEq, true_and]
    split <;> omega

theorem counted_advance {l : Location} (counted : l.Counted) (text : List Char) :
    (l.advance text).Counted := by
  induction text generalizing l with
  | nil => exact counted
  | cons c rest ih => exact ih (counted_next counted c)

theorem within_advance (base : Location) {l : Location} (counted : l.Counted) (text : List Char) :
    (base.within l).advance text = base.within (l.advance text) := by
  induction text generalizing l with
  | nil => rfl
  | cons c rest ih =>
    rw [advance_cons, advance_cons, within_next base counted]
    exact ih (counted_next counted c)

theorem counted_start : start.Counted := ⟨Nat.le_refl 1, Nat.le_refl 1⟩

end Location

namespace Text

theorem itemsFrom_within (base : Location) {l : Location} (counted : l.Counted) (ps : List Piece) :
    itemsFrom (base.within l) ps = (itemsFrom l ps).map (Item.behind base) := by
  induction ps generalizing l with
  | nil => rfl
  | cons p ps ih =>
    rw [itemsFrom, itemsFrom, item_behind, Location.within_advance base counted,
      ih (Location.counted_advance counted p.chars), List.map_append]
    cases p.item l <;> rfl

/-- Scanned behind other text, pieces give what they give on their own. -/
theorem itemsFrom_behind (base : Location) (ps : List Piece) :
    itemsFrom base ps = (itemsFrom .start ps).map (Item.behind base) :=
  itemsFrom_within base Location.counted_start ps

/-- No class of characters that pieces are made of has a boundary. -/
theorem IsBoundary.outside {c : Char} (boundary : IsBoundary c) :
    isLetter c = false ∧ c.isDigit = false ∧ isSymbol c = false ∧ c ≠ '_' := by
  have apart : ∀ {s : Shape}, Shape.ofFirst c = s → s ≠ .word → s ≠ .digits → s ≠ .symbols →
      isLetter c = false ∧ c.isDigit = false ∧ isSymbol c = false := by
    intro s shape word digits symbols
    refine ⟨?_, ?_, ?_⟩
    · cases letter : isLetter c with
      | false => rfl
      | true => exact absurd (shape.symm.trans (ofFirst_of_isLetter letter)) word
    · cases digit : c.isDigit with
      | false => rfl
      | true => exact absurd (shape.symm.trans (ofFirst_of_isDigit digit)) digits
    · cases symbol : isSymbol c with
      | false => rfl
      | true => exact absurd (shape.symm.trans (ofFirst_of_isSymbol symbol)) symbols
  rcases boundary with blank | rfl | rfl | outside
  · obtain ⟨letter, digit, symbol⟩ :=
      apart (ofFirst_of_isBlank blank) (by decide) (by decide) (by decide)
    refine ⟨letter, digit, symbol, ?_⟩
    rintro rfl
    exact absurd blank (by decide +kernel)
  · decide +kernel
  · decide +kernel
  · exact outside

theorem IsBoundary.breaks {c : Char} (boundary : IsBoundary c) (text : List Char) :
    Breaks (c :: text) := by
  obtain ⟨letter, digit, symbol, underscore⟩ := boundary.outside
  intro d hd s
  obtain rfl : c = d := by simpa using hd
  cases s <;> simp [Shape.runsOn, isWordRest, letter, digit, symbol, underscore]

theorem IsBoundary.item {c : Char} (boundary : IsBoundary c) (l : Location) :
    (Piece.mk c []).item l = boundaryItem c l := by
  obtain ⟨letter, digit, symbol, -⟩ := boundary.outside
  by_cases blank : isBlank c
  · simp [Piece.item, Piece.shape, boundaryItem, ofFirst_of_isBlank blank, blank]
  · by_cases opening : c = '('
    · subst opening
      rfl
    · by_cases closing : c = ')'
      · subst closing
        rfl
      · simp [Piece.item, Piece.shape, boundaryItem, Shape.ofFirst, blank, opening, closing, digit,
          symbol, letter]

theorem IsBoundary.cut_eq {c : Char} (boundary : IsBoundary c) (text : List Char) :
    cut (c :: text) = ⟨c, []⟩ :: cut text := by
  have alone : ∀ d, (Shape.ofFirst c).runsOn d = false := by
    intro d
    obtain ⟨letter, digit, symbol, -⟩ := boundary.outside
    simp only [Shape.ofFirst, letter, digit, symbol, Bool.false_eq_true, if_false]
    split
    · rfl
    · split
      · rfl
      · split <;> rfl
  have whole : (Piece.mk c []).Whole text := ⟨by simp, fun d _ => alone d⟩
  exact whole.cut_eq

theorem itemsFrom_boundary {c : Char} (boundary : IsBoundary c) (l : Location)
    (text more : List Char) :
    itemsFrom l (cut (text ++ c :: more)) =
      itemsFrom l (cut text) ++ (boundaryItem c (l.advance text)).toList ++
        itemsFrom (l.advance (text ++ [c])) (cut more) := by
  rw [cut_append_of_breaks (boundary.breaks more), boundary.cut_eq, itemsFrom_append, itemsFrom,
    chars_cut, boundary.item, List.append_assoc, Location.advance_append]
  rfl

end Text

open Text

/-- What a boundary and the text before it leave of the rest of the line: its items, moved. -/
theorem items_append_boundary {c : Char} (boundary : IsBoundary c) (s t : String) :
    items (s ++ String.singleton c ++ t) =
      items s ++ (boundaryItem c (Location.start.advance s.toList)).toList ++
        (items t).map (Item.behind (Location.start.advance (s.toList ++ [c]))) := by
  have line : (s ++ String.singleton c ++ t).toList = s.toList ++ c :: t.toList := by simp
  rw [items, line, itemsFrom_boundary boundary, itemsFrom_behind (Location.start.advance _)]
  rfl

end InfixTree
