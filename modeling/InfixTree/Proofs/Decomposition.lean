import InfixTree.Proofs.Patterns
import InfixTree.Proofs.Scanning

/-!
A line is nothing but its items and the blanks between them: `Covers` reads it from its beginning,
item by item, and `Decomposition` says of the whole line what follows. An error ends no more than its
own piece, so the line is covered behind it too.
-/
namespace InfixTree

namespace Text

def bytes (text : List Char) : Nat := (String.ofList text).utf8ByteSize

@[simp] theorem bytes_nil : bytes [] = 0 := rfl

@[simp] theorem bytes_append (cs ds : List Char) : bytes (cs ++ ds) = bytes cs + bytes ds := by
  simp [bytes]

@[simp] theorem bytes_cons (c : Char) (cs : List Char) :
    bytes (c :: cs) = c.utf8Size + bytes cs := by
  rw [← List.singleton_append, bytes_append]
  simp [bytes]

theorem offset_advance (l : Location) (text : List Char) :
    (l.advance text).offset = l.offset + bytes text := by
  induction text generalizing l with
  | nil => rfl
  | cons c rest ih =>
    have step : (l.next c).offset = l.offset + c.utf8Size := by
      unfold Location.next
      split <;> rfl
    simp [ih, step, Nat.add_assoc]

theorem decimalValue_zeros (zeros : Nat) (digits : List Char) :
    decimalValue (List.replicate zeros '0' ++ digits) = decimalValue digits := by
  induction zeros with
  | zero => rfl
  | succ n ih =>
    rw [← ih, List.replicate_succ]
    simp [decimalValue, Nat.ofDigitChars]

theorem isBlank_eq_false_of_ofFirst {c : Char} {s : Shape} (shape : Shape.ofFirst c = s)
    (solid : s ≠ .blank) : isBlank c = false := by
  cases blank : isBlank c with
  | false => rfl
  | true =>
    rw [ofFirst_of_isBlank blank] at shape
    exact absurd shape.symm solid

theorem isBlank_eq_false_of_isWordRest {c : Char} (rest : isWordRest c) : isBlank c = false := by
  simp only [isWordRest, Bool.or_eq_true, beq_iff_eq] at rest
  obtain (letter | digit) | rfl := rest
  · exact isBlank_eq_false_of_isLetter letter
  · exact isBlank_eq_false_of_ofFirst (ofFirst_of_isDigit digit) (by decide)
  · decide +kernel

theorem isBlank_eq_false_of_isName {name : String} (letters : isName name) :
    ∀ c ∈ name.toList, isBlank c = false := by
  intro c hc
  cases chars : name.toList with
  | nil => simp [chars] at hc
  | cons d run =>
    obtain ⟨letter, others⟩ : isLetter d ∧ ∀ r ∈ run, isWordRest r := by
      simpa [isName, chars] using letters
    rw [chars] at hc
    rcases List.mem_cons.mp hc with rfl | later
    · exact isBlank_eq_false_of_isLetter letter
    · exact isBlank_eq_false_of_isWordRest (others c later)

end Text

open Text

namespace Item

theorem Names.solid {item : Item} {before after : List Char} (names : item.Names before after) :
    ∀ c ∈ item.text, isBlank c = false := by
  intro c hc
  cases names with
  | opening | closing =>
    obtain rfl : c = _ := by simpa [text] using hc
    decide +kernel
  | number l run | outOfRange l run =>
    exact isBlank_eq_false_of_ofFirst (ofFirst_of_isDigit (run.inside c hc)) (by decide)
  | operator l run =>
    exact isBlank_eq_false_of_ofFirst (ofFirst_of_isSymbol (run.inside c hc)) (by decide)
  | @identifier name l letters =>
    exact isBlank_eq_false_of_isName letters c hc
  | stray l unmatched =>
    obtain rfl : c = _ := by simpa [text] using hc
    simpa [Shape.accepts] using unmatched .blank []

/-- Where the item ends, in bytes; it begins at the offset of its location. -/
def stop (item : Item) : Nat := item.location.offset + bytes item.text

/-- The byte of the line at this offset is one of the item's. -/
def Spans (item : Item) (offset : Nat) : Prop := item.location.offset ≤ offset ∧ offset < item.stop

/-- The item is about what stands in its line between `before` and `after`. -/
structure Stands (item : Item) (before after : List Char) : Prop where
  offset : item.location.offset = bytes before
  nonempty : item.text ≠ []
  names : item.Names before after
  longest : Longest item.text after

theorem Stands.stop_eq {item : Item} {before after : List Char} (stands : item.Stands before after) :
    item.stop = bytes (before ++ item.text) := by
  rw [stop, stands.offset, bytes_append]

end Item

/-- Behind `before`, the text is made of blanks and of what the items are about. -/
inductive Covers : List Char → List Item → List Char → Prop
  | done (before : List Char) : Covers before [] []
  | blank {before rest : List Char} {c : Char} {found : List Item} (blank : isBlank c)
      (more : Covers (before ++ [c]) found rest) : Covers before found (c :: rest)
  | piece {before after : List Char} {item : Item} {found : List Item}
      (stands : item.Stands before after) (more : Covers (before ++ item.text) found after) :
      Covers before (item :: found) (item.text ++ after)

/-- What the items of a line have to do with the line. -/
structure Decomposition (line : List Char) (found : List Item) : Prop where
  stands : ∀ item ∈ found, ∃ before after,
    line = before ++ (item.text ++ after) ∧ item.Stands before after
  ordered : found.Pairwise fun i j => i.stop ≤ j.location.offset
  covered : ∀ before c after, line = before ++ c :: after →
    (isBlank c = false ↔ ∃ item ∈ found, item.Spans (bytes before))
  lossless : found.flatMap Item.text = line.filter fun c => !isBlank c

namespace Covers

variable {before text : List Char} {found : List Item}

theorem of_cut (seam : Seam before text) {l : Location} (place : l.offset = bytes before) :
    Covers before (itemsFrom l (cut text)) text := by
  induction text using piece_induction generalizing before l with
  | nil => simpa [itemsFrom] using Covers.done before
  | piece p after whole ih =>
    have next : Covers (before ++ p.chars) (itemsFrom (l.advance p.chars) (cut after)) after := by
      refine ih whole.seam ?_
      rw [offset_advance, place, bytes_append]
    rw [whole.cut_eq, itemsFrom]
    by_cases solid : p.shape = .blank
    · have alone : p.chars = [p.first] := whole.chars_eq (by simp [solid, Shape.runsOn])
      have none : p.item l = none := by simp [Piece.item, solid]
      rw [alone] at next
      rw [none, alone]
      exact .blank (isBlank_of_ofFirst solid) next
    · have front : Seam before p.chars := by
        intro s word c hc d hd
        exact seam s word c hc d (by simpa [Piece.chars] using hd)
      obtain ⟨item, made, text_eq, here, names⟩ := whole.exists_item front solid l
      rw [made, ← text_eq]
      refine .piece ⟨?_, ?_, names, ?_⟩ ?_
      · rw [here, place]
      · simp [text_eq, Piece.chars]
      · rw [text_eq]
        exact whole.longest solid
      · rw [text_eq]
        exact next

theorem stands (covers : Covers before found text) : ∀ item ∈ found, ∃ front after,
    before ++ text = front ++ (item.text ++ after) ∧ item.Stands front after := by
  induction covers with
  | done => simp
  | blank _ _ ih => simpa using ih
  | @piece before after item found here _ ih =>
    intro other member
    rcases List.mem_cons.mp member with rfl | later
    · exact ⟨before, after, rfl, here⟩
    · simpa using ih other later

theorem begins_behind (covers : Covers before found text) :
    ∀ item ∈ found, bytes before ≤ item.location.offset := by
  induction covers with
  | done => simp
  | blank _ _ ih =>
    intro item member
    have behind := ih item member
    rw [bytes_append] at behind
    omega
  | piece here _ ih =>
    intro other member
    rcases List.mem_cons.mp member with rfl | later
    · exact Nat.le_of_eq here.offset.symm
    · have behind := ih other later
      rw [bytes_append] at behind
      omega

theorem ordered (covers : Covers before found text) :
    found.Pairwise fun i j => i.stop ≤ j.location.offset := by
  induction covers with
  | done => exact .nil
  | blank _ _ ih => exact ih
  | piece here more ih =>
    refine List.pairwise_cons.mpr ⟨fun other later => ?_, ih⟩
    rw [here.stop_eq]
    exact more.begins_behind other later

theorem lossless (covers : Covers before found text) :
    found.flatMap Item.text = text.filter fun c => !isBlank c := by
  induction covers with
  | done => rfl
  | blank blank _ ih => simpa [blank] using ih
  | @piece before after item found here _ ih =>
    have kept : item.text.filter (fun c => !isBlank c) = item.text :=
      List.filter_eq_self.mpr fun c hc => by simp [here.names.solid c hc]
    rw [List.flatMap_cons, List.filter_append, kept, ih]

/-- A character is in an item's piece exactly when it is not blank. -/
theorem covered (covers : Covers before found text) {front after : List Char} {c : Char}
    (place : text = front ++ c :: after) :
    isBlank c = false ↔ ∃ item ∈ found, item.Spans (bytes (before ++ front)) := by
  induction covers generalizing front with
  | done => simp at place
  | @blank before rest d found blank more ih =>
    cases front with
    | nil =>
      obtain ⟨rfl, -⟩ := List.cons.inj place
      constructor
      · intro solid
        rw [blank] at solid
        contradiction
      · intro ⟨item, member, begins, _⟩
        have behind := more.begins_behind item member
        have wide := d.utf8Size_pos
        simp only [bytes_append, bytes_cons, bytes_nil] at begins behind
        omega
    | cons f others =>
      obtain ⟨rfl, later⟩ := List.cons.inj place
      simpa using ih later
  | @piece before rest item found here more ih =>
    have extent : item.location.offset = bytes before ∧ item.stop = bytes before + bytes item.text := by
      rw [here.stop_eq, bytes_append]
      exact ⟨here.offset, rfl⟩
    -- the character is behind the item, or in it
    have behind : ∀ between, front = item.text ++ between → rest = between ++ c :: after →
        (isBlank c = false ↔ ∃ other ∈ item :: found, other.Spans (bytes (before ++ front))) := by
      intro between split later
      have far : ¬ item.Spans (bytes (before ++ front)) := by
        simp only [Item.Spans, split, bytes_append]
        omega
      have tail := ih later
      rw [List.append_assoc, ← split] at tail
      simpa only [List.mem_cons, exists_eq_or_imp, far, false_or] using tail
    rcases List.append_eq_append_iff.mp place with ⟨between, split, later⟩ | ⟨beyond, split, later⟩
    · exact behind between split later
    · cases beyond with
      | nil => exact behind [] (by simpa using split.symm) (by simpa using later.symm)
      | cons d others =>
        obtain ⟨rfl, -⟩ := List.cons.inj later
        have solid : isBlank c = false := here.names.solid c (by simp [split])
        have wide := c.utf8Size_pos
        have inside : item.Spans (bytes (before ++ front)) := by
          simp only [split, bytes_append, bytes_cons] at extent
          simp only [Item.Spans, bytes_append]
          omega
        exact iff_of_true solid ⟨item, by simp, inside⟩

theorem decomposition (covers : Covers [] found text) : Decomposition text found where
  stands := by simpa using covers.stands
  ordered := covers.ordered
  covered _ _ _ place := by simpa using covers.covered place
  lossless := covers.lossless

end Covers

/-- The items of a line are about pieces of it that leave out its blanks alone, each the longest
there is where it stands. Tokenizing gives all of them, or the first that is an error. -/
theorem items_decompose_line (line : String) :
    Decomposition line.toList (items line) ∧
      (∀ tokens, tokenize line = .ok tokens ↔ items line = tokens.map .ok) ∧
      (∀ e, tokenize line = .error e ↔ ∃ (tokens : List Token) (rest : List Item),
        items line = tokens.map .ok ++ .error e :: rest) ∧
      ∀ zeros digits, decimalValue (List.replicate zeros '0' ++ digits) = decimalValue digits :=
  ⟨(Covers.of_cut (seam_start line.toList) rfl).decomposition, fun _ => tokenize_eq_ok_iff,
    fun _ => tokenize_eq_error_iff, decimalValue_zeros⟩

end InfixTree
