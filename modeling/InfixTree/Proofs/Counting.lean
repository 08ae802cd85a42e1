import InfixTree.Proofs.Decomposition
import Mathlib.Data.List.DropRight

/-!
Places told by counting. Scanning carries a place along from piece to piece; what it says of an item
is what counting lines, characters and bytes in all of the text before the item gives, whatever
blanks, line feeds and errors that text has.
-/
namespace InfixTree

namespace Location

/-- The place behind a text, counted from the beginning of the text: its line feeds, the characters
behind the last of them, and all its bytes. -/
def behind (text : List Char) : Location where
  line := 1 + text.count '\n'
  column := 1 + (text.rtakeWhile (· != '\n')).length
  offset := Text.bytes text

theorem behind_concat (text : List Char) (c : Char) :
    behind (text ++ [c]) = (behind text).next c := by
  by_cases feed : c = '\n'
  · subst feed
    simp [behind, next, Nat.add_assoc]
  · simp [behind, next, feed, Nat.add_assoc]

theorem advance_start (text : List Char) : start.advance text = behind text := by
  induction text using List.reverseRecOn with
  | nil => rfl
  | append_singleton text c ih => rw [advance_append, ih, behind_concat, advance_cons, advance_nil]

end Location

namespace Text

/-- Cut after any number of its pieces, a text is cut into these pieces. -/
theorem cut_of_prefix {text : List Char} {front others : List Piece}
    (pieces : cut text = front ++ others) : cut (front.flatMap Piece.chars) = front := by
  induction text using piece_induction generalizing front with
  | nil =>
    obtain ⟨rfl, -⟩ := List.append_eq_nil_iff.mp (pieces.symm.trans cut_nil)
    exact cut_nil
  | piece p after whole ih =>
    rw [whole.cut_eq] at pieces
    cases front with
    | nil => exact cut_nil
    | cons q rest =>
      obtain ⟨rfl, behind⟩ := List.cons.inj pieces
      have ends : Ends p.first (rest.flatMap Piece.chars) := by
        cases rest with
        | nil => exact breaks_nil.ends p.first
        | cons r more =>
          have text : after = r.chars ++ (more ++ others).flatMap Piece.chars := by
            rw [← chars_cut after, behind]
            rfl
          -- Of the text behind the piece only the first character counts, and that has not changed.
          intro d first
          exact whole.ends d (by rw [text]; exact first)
      have shorter : p.Whole (rest.flatMap Piece.chars) := ⟨whole.inside, ends⟩
      rw [List.flatMap_cons, shorter.cut_eq, ih behind]

theorem item_of_mem_cut {text : List Char} {p : Piece} (piece : p ∈ cut text) {l : Location}
    {item : Item} (made : p.item l = some item) : item.text = p.chars ∧ item.location = l := by
  have whole : p.Whole [] := ⟨runsOn_of_mem_cut piece, breaks_nil.ends p.first⟩
  have solid : p.shape ≠ .blank := by
    intro blank
    simp [Piece.item, blank] at made
  obtain ⟨same, found, text, place, -⟩ := whole.exists_item (seam_start p.chars) solid l
  obtain rfl := Option.some.inj (found.symm.trans made)
  exact ⟨text, place⟩

/-- An item is that of some piece, and the pieces before it have the items before it. -/
theorem piece_of_itemsFrom {l : Location} {pieces : List Piece} {k : Nat} {item : Item}
    (found : (itemsFrom l pieces)[k]? = some item) :
    ∃ front p others, pieces = front ++ p :: others ∧
      p.item (l.advance (front.flatMap Piece.chars)) = some item ∧
        itemsFrom l front = (itemsFrom l pieces).take k := by
  induction pieces generalizing l k with
  | nil => simp [itemsFrom] at found
  | cons q rest ih =>
    rw [itemsFrom] at found
    cases here : q.item l with
    | none =>
      rw [here] at found
      obtain ⟨front, p, others, rfl, made, before⟩ := ih found
      refine ⟨q :: front, p, others, rfl, ?_, ?_⟩
      · rw [List.flatMap_cons, Location.advance_append]
        exact made
      · rw [itemsFrom, itemsFrom, here]
        exact before
    | some first =>
      rw [here] at found
      cases k with
      | zero => exact ⟨[], q, rest, rfl, here.trans found, rfl⟩
      | succ k =>
        obtain ⟨front, p, others, rfl, made, before⟩ := ih found
        refine ⟨q :: front, p, others, rfl, ?_, ?_⟩
        · rw [List.flatMap_cons, Location.advance_append]
          exact made
        · rw [itemsFrom, itemsFrom, here]
          exact congrArg (first :: ·) before

end Text

open Text

theorem items_begin_in_order (line : String) :
    ((items line).map fun item => item.location.offset).Pairwise (· < ·) := by
  have covers : Covers [] (items line) line.toList := Covers.of_cut (seam_start line.toList) rfl
  rw [List.pairwise_map]
  apply covers.ordered.imp_of_mem
  intro i j member _ behind
  obtain ⟨before, after, -, stands⟩ := covers.stands i member
  have wide : 0 < bytes i.text := by
    obtain ⟨c, rest, chars⟩ := List.exists_cons_of_ne_nil stands.nonempty
    have size := c.utf8Size_pos
    rw [chars, bytes_cons]
    omega
  rw [Item.stop] at behind
  omega

/-- Each item stands behind the text that has the items before it, at the place which counting in
that text gives; and each begins behind the beginning of the one before it. -/
theorem items_stand_where_counted (line : String) :
    (∀ k item, (items line)[k]? = some item → ∃ before after,
      line.toList = before ++ (item.text ++ after) ∧ item.text ≠ [] ∧
        items (String.ofList before) = (items line).take k ∧ item.location = .behind before) ∧
      ((items line).map fun item => item.location.offset).Pairwise (· < ·) := by
  refine ⟨?_, items_begin_in_order line⟩
  intro k item found
  obtain ⟨front, p, others, pieces, made, earlier⟩ := piece_of_itemsFrom found
  have piece : p ∈ cut line.toList := by simp [pieces]
  obtain ⟨text, place⟩ := item_of_mem_cut piece made
  refine ⟨front.flatMap Piece.chars, others.flatMap Piece.chars, ?_, ?_, ?_, ?_⟩
  · rw [text, ← chars_cut line.toList, pieces, List.flatMap_append, List.flatMap_cons]
  · simp [text, Piece.chars]
  · rw [items, String.toList_ofList, cut_of_prefix pieces]
    exact earlier
  · rw [place, Location.advance_start]

/-- Behind two characters of more than one byte, an error, a carriage return with its line feed and
a tab. -/
theorem number_behind_error_stands_where_counted :
    let line := "\u00E9€ \\\r\n\t12"
    let number : Item := .ok ⟨.number 12, "12", ⟨2, 2, 10⟩⟩
    (items line)[3]? = some number ∧ ∃ before after,
      line.toList = before ++ (number.text ++ after) ∧ number.text ≠ [] ∧
        items (String.ofList before) = (items line).take 3 ∧ number.location = .behind before := by
  intro line number
  have found : (items line)[3]? = some number := by decide +kernel
  exact ⟨found, (items_stand_where_counted line).1 3 number found⟩

end InfixTree
