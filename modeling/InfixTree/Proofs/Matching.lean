import InfixTree.Proofs.Conservation

/-!
Which parentheses belong together, told by their places in the line. A level ends in front of the
first closing parenthesis that has no opening one in it, or at the end of the line. So every group
inside it is a level that could be read on its own, and gives there what it gives in the whole.
-/
namespace InfixTree

namespace Nesting

/-- The parenthesis at `i` opens a group, and the one at `j` closes it. -/
structure Matched (whole : List Kind) (i j : Nat) : Prop where
  opens : whole[i]? = some .opening
  closes : whole[j]? = some .closing
  before : i < j
  inside : Balanced (whole.extract (i + 1) j)

/-- The parenthesis at `n` closes no group that was opened from `start` on. -/
structure Stray (whole : List Kind) (start n : Nat) : Prop where
  behind : start ≤ n
  closes : whole[n]? = some .closing
  unmatched : ∀ i, start ≤ i → ¬ Matched whole i n

/-- A level that begins at `start` ends at the first stray parenthesis, or with the line. -/
inductive EndsAt (whole : List Kind) (start : Nat) : Nat → Prop where
  | stray {stop : Nat} (stray : Stray whole start stop)
      (first : ∀ n, Stray whole start n → stop ≤ n) : EndsAt whole start stop
  | line (none : ∀ n, ¬ Stray whole start n) : EndsAt whole start whole.length

/-- Where parentheses open from `start` on and before `stop`. -/
def openingPlaces (whole : List Kind) (start stop : Nat) : List Nat :=
  (List.range' start (stop - start)).filter fun i => whole[i]? = some .opening

/-! ### Counting parentheses -/

theorem Balanced.count_eq {whole : List Kind} (balanced : Balanced whole) :
    whole.count .opening = whole.count .closing := by
  induction balanced with
  | nil => rfl
  | plain solid _ ih => simp [solid.1, solid.2, ih]
  | group _ _ ihInside ih =>
    simp only [List.count_cons, List.count_append, beq_self_eq_true, reduceCtorEq, beq_iff_eq,
      if_true, if_false]
    omega

theorem Balanced.count_take_le {whole : List Kind} (balanced : Balanced whole) (n : Nat) :
    (whole.take n).count .closing ≤ (whole.take n).count .opening := by
  induction balanced generalizing n with
  | nil => simp
  | plain solid _ ih =>
    cases n with
    | zero => simp
    | succ n => simpa [solid.1, solid.2] using ih n
  | @group xs ks inside _ ihInside ih =>
    cases n with
    | zero => simp
    | succ n =>
      have within := ihInside n
      cases past : n - xs.length with
      | zero =>
        simp only [List.take_succ_cons, List.take_append, past, List.take_zero, List.append_nil,
          List.count_cons, beq_self_eq_true, reduceCtorEq, beq_iff_eq, if_true, if_false]
        omega
      | succ m =>
        have all : xs.take n = xs := List.take_of_length_le (by omega)
        have equal := inside.count_eq
        have later := ih m
        simp only [List.take_succ_cons, List.take_append, past, all, List.count_cons,
          List.count_append, beq_self_eq_true, reduceCtorEq, beq_iff_eq, if_true, if_false]
        omega

/-- What follows an opening parenthesis has the closing one in it. -/
theorem not_balanced_behind_opening {before after : List Kind}
    (balanced : Balanced (before ++ .opening :: after)) : ¬ Balanced after := by
  intro rest
  have total := balanced.count_eq
  have front := balanced.count_take_le before.length
  have equal := rest.count_eq
  simp only [List.take_left', List.count_append, List.count_cons, beq_self_eq_true, reduceCtorEq,
    beq_iff_eq, if_true, if_false] at total front
  omega

/-! ### A balanced stretch of a line -/

theorem at_of_drop {α : Type} {whole rest : List α} {start : Nat} {a : α}
    (split : whole.drop start = a :: rest) :
    whole[start]? = some a ∧ whole.drop (start + 1) = rest := by
  constructor
  · have here : (whole.drop start)[0]? = whole[start]? := List.getElem?_drop
    rw [split] at here
    exact here.symm
  · rw [← List.drop_drop, split]
    rfl

theorem drop_append_of_drop {α : Type} {whole front rest : List α} {start : Nat}
    (split : whole.drop start = front ++ rest) : whole.drop (start + front.length) = rest := by
  rw [← List.drop_drop, split, List.drop_left']
  rfl

theorem matched_of_drop {whole xs rest : List Kind} {start : Nat}
    (split : whole.drop start = .opening :: (xs ++ .closing :: rest)) (inside : Balanced xs) :
    Matched whole start (start + 1 + xs.length) := by
  obtain ⟨opens, behind⟩ := at_of_drop split
  obtain ⟨closes, -⟩ := at_of_drop (drop_append_of_drop behind)
  have stretch : whole.extract (start + 1) (start + 1 + xs.length) = xs := by
    simp [List.extract, behind]
  refine ⟨opens, closes, by omega, ?_⟩
  rw [stretch]
  exact inside

/-- Every closing parenthesis in a balanced stretch has its opening one there. -/
theorem matched_within {whole xs rest : List Kind} {start n : Nat} (balanced : Balanced xs)
    (split : whole.drop start = xs ++ rest) (behind : start ≤ n) (within : n < start + xs.length)
    (closes : whole[n]? = some .closing) : ∃ i, start ≤ i ∧ Matched whole i n := by
  induction balanced generalizing start rest with
  | nil =>
    simp only [List.length_nil] at within
    omega
  | @plain k ks solid _ ih =>
    obtain ⟨here, later⟩ := at_of_drop split
    have further : n ≠ start := by
      intro same
      rw [same, here] at closes
      exact solid.2 (Option.some.inj closes)
    simp only [List.length_cons] at within
    obtain ⟨i, above, matched⟩ := ih later (by omega) (by omega)
    exact ⟨i, by omega, matched⟩
  | @group xs ks inside _ ihInside ih =>
    rw [List.cons_append, List.append_assoc, List.cons_append] at split
    have outer := matched_of_drop split inside
    obtain ⟨opens, behindOpening⟩ := at_of_drop split
    obtain ⟨-, behindGroup⟩ := at_of_drop (drop_append_of_drop behindOpening)
    have further : n ≠ start := by
      intro same
      rw [same, opens] at closes
      contradiction
    simp only [List.length_cons, List.length_append] at within
    rcases Nat.lt_trichotomy n (start + 1 + xs.length) with inner | same | later
    · obtain ⟨i, above, matched⟩ := ihInside behindOpening (by omega) inner
      exact ⟨i, by omega, matched⟩
    · rw [same]
      exact ⟨start, Nat.le_refl start, outer⟩
    · obtain ⟨i, above, matched⟩ := ih behindGroup (by omega) (by omega)
      exact ⟨i, by omega, matched⟩

/-- A balanced stretch opens nothing that the parenthesis behind it could close. -/
theorem stray_behind {whole xs rest : List Kind} {start : Nat} (balanced : Balanced xs)
    (split : whole.drop start = xs ++ .closing :: rest) :
    Stray whole start (start + xs.length) := by
  obtain ⟨closes, -⟩ := at_of_drop (drop_append_of_drop split)
  refine ⟨by omega, closes, ?_⟩
  intro i above matched
  have before := matched.before
  -- An opening parenthesis inside the stretch has its own closing one there, so what lies between it
  -- and the end of the stretch has one too many.
  obtain ⟨front, opened, same, length⟩ :
      ∃ front opened, xs = front ++ opened ∧ front.length = i - start :=
    ⟨xs.take (i - start), xs.drop (i - start), (List.take_append_drop _ _).symm,
      List.length_take_of_le (by omega)⟩
  have place : start + front.length = i := by omega
  have behind : whole.drop i = opened ++ .closing :: rest := by
    rw [← place]
    exact drop_append_of_drop (by rw [split, same, List.append_assoc])
  cases opened with
  | nil =>
    simp only [same, List.append_nil] at before
    omega
  | cons k after =>
    obtain ⟨here, later⟩ := at_of_drop behind
    obtain rfl : k = .opening := Option.some.inj (here.symm.trans matched.opens)
    have inside : whole.extract (i + 1) (start + xs.length) = after := by
      have length : start + xs.length - (i + 1) = after.length := by
        simp only [same, List.length_append, List.length_cons]
        omega
      simp [List.extract, later, length]
    have rest := matched.inside
    rw [inside] at rest
    rw [same] at balanced
    exact not_balanced_behind_opening balanced rest

theorem endsAt_of_balanced {whole xs rest : List Kind} {start : Nat} (balanced : Balanced xs)
    (split : whole.drop start = xs ++ rest) (some : xs ≠ [])
    (ends : rest = [] ∨ ∃ ks, rest = .closing :: ks) : EndsAt whole start (start + xs.length) := by
  have first : ∀ n, Stray whole start n → start + xs.length ≤ n := by
    intro n stray
    by_contra inside
    obtain ⟨i, above, matched⟩ := matched_within balanced split stray.behind (by omega) stray.closes
    exact stray.unmatched i above matched
  rcases ends with rfl | ⟨ks, rfl⟩
  · have length : start + xs.length = whole.length := by
      have lengths := congrArg List.length split
      have positive := List.length_pos_iff.mpr some
      simp only [List.length_drop, List.length_append, List.length_nil] at lengths
      omega
    rw [length]
    refine .line ?_
    intro n stray
    have bound := (List.getElem?_eq_some_iff.mp stray.closes).1
    have past := first n stray
    omega
  · exact .stray (stray_behind balanced split) first

/-! ### Places in parts of a line -/

theorem openingPlaces_append (whole : List Kind) (start m n : Nat) :
    openingPlaces whole start (start + (m + n)) =
      openingPlaces whole start (start + m) ++ openingPlaces whole (start + m) (start + m + n) := by
  simp only [openingPlaces, Nat.add_sub_cancel_left, ← List.filter_append, List.range'_append_1]

theorem openingPlaces_cons {whole : List Kind} {start : Nat} {k : Kind}
    (here : whole[start]? = some k) (n : Nat) :
    openingPlaces whole start (start + (n + 1)) =
      (if k = .opening then [start] else []) ++
        openingPlaces whole (start + 1) (start + 1 + n) := by
  have one : openingPlaces whole start (start + 1) = if k = .opening then [start] else [] := by
    simp [openingPlaces, here, List.filter_cons]
  rw [Nat.add_comm n 1, openingPlaces_append, one]

theorem openingPlaces_self (whole : List Kind) (n : Nat) : openingPlaces whole n (n + 0) = [] := by
  simp [openingPlaces]

theorem mem_openingPlaces {whole : List Kind} {start stop i : Nat}
    (member : i ∈ openingPlaces whole start stop) : start ≤ i ∧ whole[i]? = some .opening := by
  simp only [openingPlaces, List.mem_filter, List.mem_range'_1, decide_eq_true_eq] at member
  exact ⟨member.1.1, member.2⟩

theorem openingPlaces_increasing (whole : List Kind) (start stop : Nat) :
    (openingPlaces whole start stop).Pairwise (· < ·) :=
  List.Pairwise.filter _ List.pairwise_lt_range'

theorem length_openingPlaces_le (whole : List Kind) (start n : Nat) :
    (openingPlaces whole start (start + n)).length ≤ (whole.drop start).count .opening := by
  rw [openingPlaces, Nat.add_sub_cancel_left, ← List.countP_eq_length_filter]
  induction n generalizing start with
  | zero => exact Nat.zero_le _
  | succ n ih =>
    have later := ih (start + 1)
    rw [List.range'_succ, List.countP_cons]
    by_cases inside : start < whole.length
    · rw [List.drop_eq_getElem_cons inside, List.count_cons, List.getElem?_eq_getElem inside]
      simp only [Option.some.injEq, decide_eq_true_eq, beq_iff_eq]
      omega
    · have past := Nat.le_of_not_lt inside
      rw [List.drop_eq_nil_of_le (Nat.le_succ_of_le past)] at later
      rw [List.drop_eq_nil_of_le past, List.getElem?_eq_none past]
      exact later

end Nesting

open Nesting

theorem kinds_drop (tokens : List Token) (n : Nat) :
    kinds (tokens.drop n) = (kinds tokens).drop n :=
  List.map_drop

/-- Read as a level of its own, the group that opens at `i` gives this tree, and the level ends
where the group closes. -/
def GroupAt (mode : Mode) (tokens : List Token) (i : Nat) (inner : Expr) : Prop :=
  ∃ close, Matched (kinds tokens) i close ∧ parseFrom mode tokens (i + 1) = .ok (inner, close)

namespace Parse

variable {mode : Mode} {tokens : List Token}

theorem Takes.ne_nil {m : Level} {ts : List Token} {e : Expr} (taken : Takes mode .empty ts m)
    (yields : m.Yields e) : ts ≠ [] := by
  rintro rfl
  exact e.spelling_ne_nil (spelling_perm_of_takes taken yields).eq_nil

theorem balanced_of_parse {e : Expr} (parsed : parse mode tokens = .ok e) :
    Balanced (kinds tokens) := by
  obtain ⟨m, taken, -⟩ := parse_eq_ok_iff.mp parsed
  exact taken.balanced

theorem inorder_groups : Inorder Expr.groups := by
  constructor
  · intro callee args
    rw [Expr.groups, Expr.groupsAll_eq_flatMap]
  · intro l o r
    rfl

theorem groupAt_of_takes {k : Level} {t u : Token} {inner rest : List Token} {e : Expr}
    {start : Nat}
    (split : tokens.drop start = t :: (inner ++ u :: rest)) (opens : t.kind = .opening)
    (inside : Takes mode .empty inner k) (yields : k.Yields e) (closes : u.kind = .closing) :
    GroupAt mode tokens start e := by
  refine ⟨start + 1 + inner.length, ?_, ?_⟩
  · have line : (kinds tokens).drop start =
        .opening :: (kinds inner ++ .closing :: kinds rest) := by
      rw [← kinds_drop, split, kinds_cons, kinds_append, kinds_cons, opens, closes]
    rw [← length_kinds inner]
    exact matched_of_drop line inside.balanced
  · obtain ⟨-, behind⟩ := at_of_drop split
    exact parseFrom_eq_ok_iff.mpr
      ⟨inner, u :: rest, k, behind, inside, yields, rfl, Or.inr ⟨u, rest, rfl, closes⟩⟩

/-- The groups that a level takes are those that open in its tokens, in their order. -/
theorem groups_of_takes {l m : Level} {ts rest : List Token} {start : Nat}
    (taken : Takes mode l ts m) (split : tokens.drop start = ts ++ rest) :
    ∃ added, m.inorder Expr.groups = l.inorder Expr.groups ++ added ∧
      List.Forall₂ (GroupAt mode tokens)
        (openingPlaces (kinds tokens) start (start + ts.length)) added := by
  have first : ∀ {i : Nat} {t : Token} {others : List Token}, tokens.drop i = t :: others →
      (kinds tokens)[i]? = some t.kind ∧ tokens.drop (i + 1) = others := by
    intro i t others here
    obtain ⟨found, behind⟩ := at_of_drop here
    exact ⟨by rw [kinds, List.getElem?_map, found, Option.map_some], behind⟩
  induction taken generalizing start rest with
  | nil l => exact ⟨[], by simp, by simp [openingPlaces]⟩
  | @number l m t ts value kind _ ih =>
    obtain ⟨here, behind⟩ := first split
    obtain ⟨added, collected, agree⟩ := ih behind
    refine ⟨added, ?_, ?_⟩
    · rw [collected, l.inorder_operand inorder_groups, Expr.groups, List.append_nil]
    · rw [List.length_cons, openingPlaces_cons here, kind]
      exact agree
  | @identifier l m t ts name kind _ ih =>
    obtain ⟨here, behind⟩ := first split
    obtain ⟨added, collected, agree⟩ := ih behind
    refine ⟨added, ?_, ?_⟩
    · rw [collected, l.inorder_identifier inorder_groups, Expr.groups, List.append_nil]
    · rw [List.length_cons, openingPlaces_cons here, kind]
      exact agree
  | @operator l k m t ts spelling kind pushed _ ih =>
    obtain ⟨here, behind⟩ := first split
    obtain ⟨added, collected, agree⟩ := ih behind
    refine ⟨added, ?_, ?_⟩
    · rw [collected, Level.inorder_operator inorder_groups pushed]
    · rw [List.length_cons, openingPlaces_cons here, kind]
      exact agree
  | @group l k m t u inner ts e opens inside yields closes _ ihInside ih =>
    rw [List.cons_append, List.append_assoc, List.cons_append] at split
    obtain ⟨opening, within⟩ := first split
    obtain ⟨closing, behind⟩ := first (drop_append_of_drop within)
    obtain ⟨held, gathered, agreeInside⟩ := ihInside within
    obtain ⟨added, collected, agree⟩ := ih behind
    have same : e.groups = held := (yields.inorder inorder_groups).trans gathered
    -- First the group, then those inside it, then those behind it: so they open.
    refine ⟨e :: held ++ added, ?_, ?_⟩
    · rw [collected, l.inorder_operand inorder_groups, Expr.groups, same, List.append_assoc]
    · have length : (t :: (inner ++ u :: ts)).length = inner.length + (ts.length + 1) + 1 := by
        simp only [List.length_cons, List.length_append]
      rw [length, openingPlaces_cons opening, openingPlaces_append, openingPlaces_cons closing,
        opens, closes]
      exact .cons (groupAt_of_takes split opens inside yields closes)
        (List.rel_append agreeInside agree)

end Parse

/-- A reading from `start` takes at least one token and ends in front of the first closing
parenthesis that none from `start` on opens, or at the end of the line. The trees in its parentheses
are those of the levels that begin behind each opening parenthesis on the way, in the order in which
these open. So a line that has a tree is balanced. -/
theorem reading_ends_at_first_stray (mode : Mode) (tokens : List Token) :
    (∀ start stop e, parseFrom mode tokens start = .ok (e, stop) →
      start < stop ∧ EndsAt (kinds tokens) start stop ∧
        List.Forall₂ (GroupAt mode tokens) (openingPlaces (kinds tokens) start stop) e.groups) ∧
      ∀ e, parse mode tokens = .ok e → Balanced (kinds tokens) := by
  constructor
  · intro start stop e parsed
    obtain ⟨taken, rest, m, split, takes, yields, rfl, ends⟩ := Parse.parseFrom_eq_ok_iff.mp parsed
    have line : (kinds tokens).drop start = kinds taken ++ kinds rest := by
      rw [← kinds_drop, split, kinds_append]
    have some := takes.ne_nil yields
    have positive := List.length_pos_iff.mpr some
    obtain ⟨added, collected, agree⟩ := Parse.groups_of_takes takes split
    have groups : e.groups = added := (yields.inorder Parse.inorder_groups).trans collected
    refine ⟨by omega, ?_, ?_⟩
    · rw [← length_kinds taken]
      apply endsAt_of_balanced takes.balanced line (mt kinds_eq_nil some)
      rcases ends with rfl | ⟨u, us, rfl, closes⟩
      · exact Or.inl rfl
      · exact Or.inr ⟨kinds us, by rw [kinds_cons, closes]⟩
    · rw [groups]
      exact agree
  · intro e parsed
    exact Parse.balanced_of_parse parsed

/-- `( a ) ) f ( ( 1 2 + ) - b ) * ( 3 ) ) 4`: behind a stray parenthesis, an argument with a group
inside it, whose operator stands behind its operands, and a group that is an operand. -/
def nestedGroups : List Token :=
  let token (kind : Kind) : Token := ⟨kind, "", .start⟩
  [.opening, .identifier "a", .closing, .closing, .identifier "f", .opening, .opening, .number 1,
    .number 2, .operator "+", .closing, .operator "-", .identifier "b", .closing, .operator "*",
    .opening, .number 3, .closing, .closing, .number 4].map token

def nestedTree : Expr :=
  .binary
    (.application (.identifier "f") [.parenthesized (.binary
      (.parenthesized (.binary (.number 1) "+" (.number 2))) "-" (.identifier "b"))])
    "*" (.parenthesized (.number 3))

theorem reading_of_nested_groups_ends :
    parseFrom .strict nestedGroups 4 = .ok (nestedTree, 18) ∧
      (4 < 18 ∧ EndsAt (kinds nestedGroups) 4 18 ∧
        List.Forall₂ (GroupAt .strict nestedGroups) (openingPlaces (kinds nestedGroups) 4 18)
          nestedTree.groups) ∧
      parse .strict (nestedGroups.extract 4 18) = .ok nestedTree ∧
      Balanced (kinds (nestedGroups.extract 4 18)) := by
  have parsed : parseFrom .strict nestedGroups 4 = .ok (nestedTree, 18) := by rfl
  have whole : parse .strict (nestedGroups.extract 4 18) = .ok nestedTree := by rfl
  exact ⟨parsed, (reading_ends_at_first_stray .strict nestedGroups).1 4 18 nestedTree parsed, whole,
    (reading_ends_at_first_stray .strict (nestedGroups.extract 4 18)).2 nestedTree whole⟩

end InfixTree
