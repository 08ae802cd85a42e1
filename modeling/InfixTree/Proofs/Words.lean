import InfixTree.Analysis
import InfixTree.Proofs.Boundaries
import InfixTree.Proofs.Renaming

/-!
Lines that are given in words. A line has the items of its words, one word after the other, so it
does not matter for its tree at which spaces it was cut, nor how many spaces there were.
-/
namespace InfixTree

open Text

/-- What the items of a text say, wherever the text stands. -/
def contents (text : List Char) : List Item := (itemsFrom .start (cut text)).map Item.content

theorem contents_itemsFrom (base : Location) (text : List Char) :
    (itemsFrom base (cut text)).map Item.content = contents text := by
  rw [itemsFrom_behind, List.map_map]
  exact List.map_congr_left fun item _ => Item.content_behind base item

theorem isBoundary_space : IsBoundary ' ' := .inl (by decide +kernel)

theorem contents_space (text more : List Char) :
    contents (text ++ ' ' :: more) = contents text ++ contents more := by
  have silent : boundaryItem ' ' (Location.start.advance text) = none := by
    rw [boundaryItem, if_pos (by decide +kernel)]
  have whole := itemsFrom_boundary isBoundary_space .start text more
  rw [silent, Option.toList_none, List.append_nil] at whole
  rw [contents, whole, List.map_append, contents_itemsFrom _ more]
  rfl

theorem contents_joinWords (words : List String) :
    contents (joinWords words).toList = words.flatMap fun w => contents w.toList := by
  unfold joinWords
  induction words with
  | nil => simp [contents, itemsFrom]
  | cons w rest ih =>
    cases rest with
    | nil => simp
    | cons v others =>
      rw [String.intercalate_cons_cons, List.flatMap_cons, ← ih, ← contents_space]
      simp

/-- The words that a line is cut into at some of its spaces. Spaces may also be left out, in front
of a word or behind the last. -/
inductive Splits : List Char → List String → Prop where
  | done : Splits [] []
  | word (w : String) : Splits w.toList [w]
  | cut (w : String) {rest : List Char} {words : List String} (more : Splits rest words) :
      Splits (w.toList ++ ' ' :: rest) (w :: words)
  | skip {rest : List Char} {words : List String} (more : Splits rest words) :
      Splits (' ' :: rest) words

theorem Splits.contents_eq {line : List Char} {words : List String} (splits : Splits line words) :
    contents line = words.flatMap fun w => contents w.toList := by
  induction splits with
  | done => simp [contents, itemsFrom]
  | word w => simp
  | cut w _ ih => rw [contents_space, ih, List.flatMap_cons]
  | @skip rest words _ ih =>
    have nothing : contents [] = [] := by simp [contents, itemsFrom]
    have blank : contents (' ' :: rest) = contents [] ++ contents rest := contents_space [] rest
    rw [blank, nothing, List.nil_append, ih]

/-! ### What the contents alone decide -/

theorem exists_tokens {found : List Item} (every : ∀ item ∈ found, ∃ t : Token, item = .ok t) :
    ∃ tokens : List Token, found = tokens.map .ok := by
  induction found with
  | nil => exact ⟨[], rfl⟩
  | cons item rest ih =>
    obtain ⟨t, rfl⟩ := every item List.mem_cons_self
    obtain ⟨tokens, rfl⟩ := ih fun other member => every other (List.mem_cons_of_mem _ member)
    exact ⟨t :: tokens, rfl⟩

theorem content_eq_ok_iff (item : Item) :
    (∃ t : Token, item.content = .ok t) ↔ ∃ t : Token, item = .ok t := by
  match item with
  | .ok t => exact ⟨fun _ => ⟨t, rfl⟩, fun _ => ⟨_, rfl⟩⟩
  | .error (.unexpectedCharacter _ _) => simp [Item.content, Item.placed]
  | .error (.numberOutOfRange _ _) => simp [Item.content, Item.placed]

theorem tokenizes_iff (line : String) :
    (∃ tokens, tokenize line = .ok tokens) ↔
      ∀ item ∈ contents line.toList, ∃ t : Token, item = .ok t := by
  rw [contents, List.forall_mem_map]
  simp only [tokenize_eq_ok_iff, content_eq_ok_iff]
  constructor
  · intro ⟨tokens, found⟩ item member
    rw [← items, found] at member
    obtain ⟨t, -, rfl⟩ := List.mem_map.mp member
    exact ⟨t, rfl⟩
  · exact exists_tokens

theorem tokenizes_joinWords (words : List String) :
    (∃ tokens, tokenize (joinWords words) = .ok tokens) ↔
      ∀ w ∈ words, ∃ tokens, tokenize w = .ok tokens := by
  simp only [tokenizes_iff, contents_joinWords, List.mem_flatMap]
  constructor
  · intro every w member item found
    exact every item ⟨w, member, found⟩
  · intro every item ⟨w, member, found⟩
    exact every w member item found

/-- The kinds that contents hold. -/
def contentKinds (found : List Item) : List Kind :=
  found.filterMap fun item => item.toOption.map Token.kind

theorem contentKinds_of_tokenize {line : String} {tokens : List Token}
    (scanned : tokenize line = .ok tokens) :
    contentKinds (contents line.toList) = kinds tokens := by
  rw [contents, ← items, tokenize_eq_ok_iff.mp scanned, List.map_map, contentKinds,
    List.filterMap_map]
  change tokens.filterMap (some ∘ Token.kind) = tokens.map Token.kind
  rw [List.filterMap_eq_map]

theorem analyze_eq_ok_iff {mode : Mode} {line : String} {e : Expr} :
    analyze mode line = .ok e ↔
      ∃ tokens, tokenize line = .ok tokens ∧ parse mode tokens = .ok e := by
  unfold analyze Analysis.run tokenize parse
  cases h : (Scan.run line).outcome with
  | error f => simp [Traced.within, Except.bind, Except.mapError, h]
  | ok tokens =>
    cases h' : (Parse.run mode tokens).outcome <;>
      simp [Traced.within, Except.bind, Except.mapError, h, h']

/-- A line's tree depends on no more than what its items say. -/
theorem analyze_of_contents {mode : Mode} {s t : String}
    (same : contents s.toList = contents t.toList) {e : Expr} (analyzed : analyze mode s = .ok e) :
    analyze mode t = .ok e := by
  obtain ⟨tokens, scanned, parsed⟩ := analyze_eq_ok_iff.mp analyzed
  obtain ⟨others, also⟩ : ∃ others, tokenize t = .ok others := by
    rw [tokenizes_iff, ← same]
    exact (tokenizes_iff s).mp ⟨tokens, scanned⟩
  have alike : kinds tokens = kinds others := by
    rw [← contentKinds_of_tokenize scanned, ← contentKinds_of_tokenize also, same]
  have kept : (parse mode others).toOption = some e := by
    rw [← parse_of_kinds alike, parsed]
    rfl
  apply analyze_eq_ok_iff.mpr
  refine ⟨others, also, ?_⟩
  cases h : parse mode others with
  | error f => simp [h, Except.toOption] at kept
  | ok e' => simpa [h, Except.toOption] using kept

theorem analyze_toOption_of_contents {mode : Mode} {s t : String}
    (same : contents s.toList = contents t.toList) :
    (analyze mode s).toOption = (analyze mode t).toOption := by
  cases hs : analyze mode s with
  | ok e => rw [analyze_of_contents same hs]
  | error f =>
    cases ht : analyze mode t with
    | error g => rfl
    | ok e =>
      rw [analyze_of_contents same.symm ht] at hs
      exact absurd hs (by simp)

theorem Splits.analyze_eq {line : String} {words : List String} (splits : Splits line.toList words)
    (mode : Mode) : (analyze mode (joinWords words)).toOption = (analyze mode line).toOption := by
  apply analyze_toOption_of_contents
  rw [contents_joinWords, splits.contents_eq]

/-- Scanning a line is scanning its parts, at every boundary: the items of what stands before it,
its own, and those of the rest, which say the same as on their own and stand as many bytes further
on as the line has had. So a line given in words has the items of its words and is accepted by the
scanner exactly when each word is, and its tree is the same at whichever spaces it is cut. -/
theorem scanning_is_compositional :
    (∀ c, IsBoundary c → ∀ s t : String,
      items (s ++ String.singleton c ++ t) =
        items s ++ (boundaryItem c (Location.start.advance s.toList)).toList ++
          (items t).map (Item.behind (Location.start.advance (s.toList ++ [c])))) ∧
    (∀ (text : List Char) (item : Item),
      (item.behind (Location.start.advance text)).content = item.content ∧
        (item.behind (Location.start.advance text)).location.offset =
          bytes text + item.location.offset) ∧
    (∀ words : List String, (items (joinWords words)).map Item.content =
      words.flatMap fun w => (items w).map Item.content) ∧
    (∀ words : List String, (∃ tokens, tokenize (joinWords words) = .ok tokens) ↔
      ∀ w ∈ words, ∃ tokens, tokenize w = .ok tokens) ∧
    (∀ (mode : Mode) (line : String) (words : List String), Splits line.toList words →
      (analyze mode (joinWords words)).toOption = (analyze mode line).toOption) := by
  refine ⟨fun c boundary s t => items_append_boundary boundary s t, ?_, contents_joinWords,
    tokenizes_joinWords, fun mode line words splits => splits.analyze_eq mode⟩
  intro text item
  have total : (Location.start.advance text).offset = bytes text := by
    rw [offset_advance]
    exact Nat.zero_add _
  constructor
  · exact Item.content_behind _ item
  · rw [Item.offset_behind, total]

/-- An overlong number in front of a stray character, a line feed behind it, and a line with a group
that is cut inside the group, next to more than one space. -/
theorem scanning_around_stray_character :
    items ("99999999999999999999" ++ String.singleton '\\' ++ "\n2") =
      [.error (.numberOutOfRange "99999999999999999999" .start),
        .error (.unexpectedCharacter '\\' ⟨1, 21, 20⟩), .ok ⟨.number 2, "2", ⟨2, 1, 22⟩⟩] ∧
    (analyze .lenient (joinWords ["(f", "x)", " + y"])).toOption =
      some (.binary (.parenthesized (.application (.identifier "f") [.identifier "x"])) "+"
        (.identifier "y")) := by
  have boundary : IsBoundary '\\' := .inr (.inr (.inr (by decide +kernel)))
  have parts := scanning_is_compositional.1 '\\' boundary "99999999999999999999" "\n2"
  have splits : Splits "(f  x)  + y".toList ["(f", "x)", " + y"] :=
    .cut "(f" (.skip (.cut "x)" (.word " + y")))
  have joined := scanning_is_compositional.2.2.2.2 .lenient "(f  x)  + y" _ splits
  constructor
  · exact parts.trans (by decide +kernel)
  · exact joined.trans (by decide +kernel)

end InfixTree
