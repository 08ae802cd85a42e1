import InfixTree.Expr.Form
import InfixTree.Proofs.Pieces

/-!
The plain form of a tree is scanned into what the tree spells. Its blanks and parentheses keep the
pieces apart that would else run together, so that every piece is scanned as if it stood alone. On
the way back, what is scanned from any line is something that a plain form can write.
-/
namespace InfixTree

open Text

theorem collect_eq_ok_iff {found : List Item} {tokens : List Token} :
    (Scan.collect found).outcome = .ok tokens ↔ found = tokens.map .ok := by
  induction found generalizing tokens with
  | nil => cases tokens <;> simp [Scan.collect]
  | cons item rest ih =>
    match item with
    | .error e => cases tokens <;> simp [Scan.collect, Except.bind]
    | .ok t =>
      match tokens with
      | [] => cases h : (Scan.collect rest).outcome <;> simp [Scan.collect, Except.bind, h]
      | u :: others =>
        have tail : (Scan.collect rest).outcome = .ok others ↔ rest = others.map .ok := ih
        cases h : (Scan.collect rest).outcome <;> simp_all [Scan.collect, Except.bind]

theorem collect_eq_error_iff {found : List Item} {e : ScanError} :
    (Scan.collect found).outcome = .error e ↔
      ∃ (tokens : List Token) (rest : List Item), found = tokens.map .ok ++ .error e :: rest := by
  induction found with
  | nil => simp [Scan.collect]
  | cons item rest ih =>
    cases item with
    | error f =>
      constructor
      · intro failed
        obtain rfl : f = e := by simpa [Scan.collect, Except.bind] using failed
        exact ⟨[], rest, rfl⟩
      · intro ⟨tokens, others, split⟩
        cases tokens with
        | nil =>
          obtain ⟨⟨⟩, -⟩ := List.cons.inj split
          simp [Scan.collect, Except.bind]
        | cons t ts => simp at split
    | ok t =>
      have step : (Scan.collect (.ok t :: rest)).outcome = .error e ↔
          (Scan.collect rest).outcome = .error e := by
        cases h : (Scan.collect rest).outcome <;> simp [Scan.collect, Except.bind, h]
      rw [step, ih]
      constructor
      · rintro ⟨tokens, others, rfl⟩
        exact ⟨t :: tokens, others, rfl⟩
      · intro ⟨tokens, others, split⟩
        cases tokens with
        | nil => simp at split
        | cons u us => exact ⟨us, others, (List.cons.inj split).2⟩

theorem tokenize_eq_ok_iff {line : String} {tokens : List Token} :
    tokenize line = .ok tokens ↔ items line = tokens.map .ok := by
  rw [← collect_eq_ok_iff]
  cases h : (Scan.collect (items line)).outcome <;> simp [tokenize, Scan.run, Except.bind, h]

theorem tokenize_eq_error_iff {line : String} {e : ScanError} :
    tokenize line = .error e ↔
      ∃ (tokens : List Token) (rest : List Item), items line = tokens.map .ok ++ .error e :: rest := by
  rw [← collect_eq_error_iff]
  cases h : (Scan.collect (items line)).outcome <;> simp [tokenize, Scan.run, Except.bind, h]

theorem tokenize_of_toOption {line : String} {tokens : List Token}
    (found : (tokenize line).toOption = some tokens) : tokenize line = .ok tokens := by
  cases h : tokenize line with
  | error e => simp [h, Except.toOption] at found
  | ok ts => simpa [h, Except.toOption] using found

namespace Text

/-- In front of `rest` the text is scanned into tokens of these kinds, wherever it stands. -/
def Scans (text : List Char) (ks : List Kind) (rest : List Char) : Prop :=
  ∀ location, ∃ tokens, kinds tokens = ks ∧ itemsFrom location (cut (text ++ rest)) =
    tokens.map .ok ++ itemsFrom (location.advance text) (cut rest)

section Scans

variable {text more rest : List Char} {ks ls : List Kind}

theorem scans_nil : Scans [] [] rest := fun _ => ⟨[], rfl, rfl⟩

theorem Scans.append (first : Scans text ks (more ++ rest)) (second : Scans more ls rest) :
    Scans (text ++ more) (ks ++ ls) rest := by
  intro location
  obtain ⟨ts, hts, begins⟩ := first location
  obtain ⟨us, hus, goes_on⟩ := second (location.advance text)
  refine ⟨ts ++ us, by rw [kinds_append, hts, hus], ?_⟩
  rw [List.append_assoc, begins, goes_on, Location.advance_append, List.map_append,
    List.append_assoc]

/-- A piece that makes a token of the kind, whatever its place. -/
theorem scans_piece {c : Char} {run : List Char} {kind : Kind}
    (inside : ∀ d ∈ run, (Shape.ofFirst c).runsOn d) (ends : Ends c rest)
    (item : ∀ location, (Piece.mk c run).item location =
      some (.ok ⟨kind, String.ofList (c :: run), location⟩)) :
    Scans (c :: run) [kind] rest := by
  intro location
  refine ⟨[⟨kind, String.ofList (c :: run), location⟩], rfl, ?_⟩
  rw [List.cons_append, cut_append inside ends, itemsFrom, item location]
  rfl

theorem scans_blank : Scans [' '] [] rest := by
  intro location
  have alone : cut (' ' :: ([] ++ rest)) = ⟨' ', []⟩ :: cut rest :=
    cut_append (by simp) (fun _ _ => rfl)
  refine ⟨[], rfl, ?_⟩
  rw [List.cons_append, alone, itemsFrom]
  rfl

theorem scans_opening : Scans ['('] [.opening] rest :=
  scans_piece (by simp) (fun _ _ => rfl) (fun _ => rfl)

theorem scans_closing : Scans [')'] [.closing] rest :=
  scans_piece (by simp) (fun _ _ => rfl) (fun _ => rfl)

theorem scans_number (value : UInt64) (ends : ∀ d ∈ rest.head?, d.isDigit = false) :
    Scans (decimal value.toNat) [.number value] rest := by
  have digits : ∀ c ∈ decimal value.toNat, c.isDigit := fun c hc => isDigit_of_mem_decimal hc
  have reads := word?_decimal value
  cases h : decimal value.toNat with
  | nil => exact absurd h Nat.toDigits_ne_nil
  | cons c run =>
    rw [h] at digits reads
    have shape := ofFirst_of_isDigit (digits c (by simp))
    refine scans_piece (fun d hd => ?_) (fun d hd => ?_) fun location => ?_
    · rw [shape]
      exact digits d (by simp [hd])
    · rw [shape]
      exact ends d hd
    · simp [Piece.item, Piece.shape, Piece.chars, shape, reads]

theorem scans_identifier {name : String} (writable : isName name)
    (ends : ∀ d ∈ rest.head?, isWordRest d = false) :
    Scans name.toList [.identifier name] rest := by
  have back : String.ofList name.toList = name := String.ofList_toList
  cases h : name.toList with
  | nil => simp [isName, h] at writable
  | cons c run =>
    rw [h] at back
    obtain ⟨letter, others⟩ : isLetter c ∧ ∀ d ∈ run, isWordRest d := by
      simpa [isName, h] using writable
    have shape := ofFirst_of_isLetter letter
    refine scans_piece (fun d hd => ?_) (fun d hd => ?_) fun location => ?_
    · rw [shape]
      exact others d hd
    · rw [shape]
      exact ends d hd
    · simp [Piece.item, Piece.shape, Piece.chars, shape, back]

theorem scans_operator {spelling : String} (writable : isRun spelling)
    (ends : ∀ d ∈ rest.head?, isSymbol d = false) :
    Scans spelling.toList [.operator spelling] rest := by
  have back : String.ofList spelling.toList = spelling := String.ofList_toList
  cases h : spelling.toList with
  | nil => simp [isRun, h] at writable
  | cons c run =>
    rw [h] at back
    obtain ⟨symbol, others⟩ : isSymbol c ∧ ∀ d ∈ run, isSymbol d := by
      simpa [isRun, h] using writable
    have shape := ofFirst_of_isSymbol symbol
    refine scans_piece (fun d hd => ?_) (fun d hd => ?_) fun location => ?_
    · rw [shape]
      exact others d hd
    · rw [shape]
      exact ends d hd
    · simp [Piece.item, Piece.shape, Piece.chars, shape, back]

end Scans

end Text

namespace Expr

theorem breaks_plainArgs (args : List Expr) {rest : List Char} (breaks : Breaks rest) :
    Breaks (plainArgs args ++ rest) := by
  cases args with
  | nil => exact breaks
  | cons a others => exact breaks_blank _

theorem scans_plainArgs {args : List Expr} {rest : List Char} (breaks : Breaks rest)
    (scans : ∀ a ∈ args, ∀ more, Breaks more → Scans a.plainChars a.spelling more) :
    Scans (plainArgs args) (spellings args) rest := by
  induction args with
  | nil => exact scans_nil
  | cons a others ih =>
    have first := scans a (by simp) _ (breaks_plainArgs others breaks)
    have tail := ih fun b hb => scans b (by simp [hb])
    exact scans_blank.append (first.append tail)

theorem scans_plainChars {e : Expr} (writable : e.Writable) {rest : List Char}
    (breaks : Breaks rest) : Scans e.plainChars e.spelling rest := by
  induction e generalizing rest with
  | number value => exact scans_number value fun d hd => breaks d hd .digits
  | identifier name =>
    exact scans_identifier (writable (.identifier name) (by simp [spelling])) fun d hd =>
      breaks d hd .word
  | application callee args ihf ih =>
    have first := ihf (fun k hk => writable k (by simp [spelling, hk])) (breaks_plainArgs args breaks)
    refine first.append (scans_plainArgs breaks fun a ha more between => ih a ha ?_ between)
    intro k hk
    refine writable k ?_
    simp only [spelling, spellings_eq_flatMap, List.mem_append, List.mem_flatMap]
    exact Or.inr ⟨a, ha, hk⟩
  | parenthesized inner ih =>
    have middle := ih (fun k hk => writable k (by simp [spelling, hk])) (breaks_closing rest)
    exact scans_opening.append (middle.append scans_closing)
  | binary left operator right ihl ihr =>
    have first := ihl (fun k hk => writable k (by simp [spelling, hk]))
      (breaks_blank (operator.toList ++ ' ' :: (right.plainChars ++ rest)))
    have second := scans_operator (writable (.operator operator) (by simp [spelling])) fun d hd =>
      breaks_blank (right.plainChars ++ rest) d hd .symbols
    have third := ihr (fun k hk => writable k (by simp [spelling, hk])) breaks
    have whole := scans_blank.append (second.append (scans_blank.append third))
    simpa [plainChars, spelling] using Scans.append (by simpa using first) whole

theorem tokenize_plainForm {e : Expr} (writable : e.Writable) :
    ∃ tokens, tokenize e.plainForm = .ok tokens ∧ kinds tokens = e.spelling := by
  obtain ⟨tokens, spelled, found⟩ := scans_plainChars writable breaks_nil .start
  refine ⟨tokens, tokenize_eq_ok_iff.mpr ?_, spelled⟩
  simpa [items, plainForm, itemsFrom] using found

end Expr

namespace Text

theorem isWritable_of_item {text : List Char} {p : Piece} (piece : p ∈ cut text)
    {location : Location} {t : Token} (item : p.item location = some (.ok t)) :
    t.kind.isWritable := by
  have inside := runsOn_of_mem_cut piece
  cases shape : p.shape with
  | symbols =>
    have symbol := isSymbol_of_ofFirst shape
    obtain rfl : _ = t := by simpa [Piece.item, shape] using item
    simpa [Kind.isWritable, isRun, Piece.chars, shape, Shape.runsOn, symbol] using inside
  | word =>
    have letter := isLetter_of_ofFirst shape
    obtain rfl : _ = t := by simpa [Piece.item, shape] using item
    simpa [Kind.isWritable, isName, Piece.chars, shape, Shape.runsOn, letter] using inside
  | digits =>
    simp only [Piece.item, shape] at item
    split at item
    · obtain rfl : _ = t := by simpa using item
      rfl
    · simp at item
  | opening | closing =>
    obtain rfl : _ = t := by simpa [Piece.item, shape] using item
    rfl
  | blank | stray => simp [Piece.item, shape] at item

theorem exists_piece_of_mem_itemsFrom {location : Location} {pieces : List Piece} {item : Item}
    (found : item ∈ itemsFrom location pieces) :
    ∃ p ∈ pieces, ∃ place, p.item place = some item := by
  induction pieces generalizing location with
  | nil => simp [itemsFrom] at found
  | cons p rest ih =>
    rcases List.mem_append.mp found with here | later
    · exact ⟨p, by simp, location, by simpa using here⟩
    · obtain ⟨q, hq, made⟩ := ih later
      exact ⟨q, by simp [hq], made⟩

end Text

theorem isWritable_of_tokenize {line : String} {tokens : List Token}
    (scanned : tokenize line = .ok tokens) : ∀ k ∈ kinds tokens, k.isWritable := by
  intro k hk
  obtain ⟨t, ht, rfl⟩ := List.mem_map.mp hk
  have found : Except.ok t ∈ items line := by
    rw [tokenize_eq_ok_iff.mp scanned]
    exact List.mem_map_of_mem ht
  obtain ⟨p, piece, place, item⟩ := exists_piece_of_mem_itemsFrom found
  exact isWritable_of_item piece item

end InfixTree
