import InfixTree.Proofs.InfixLines

/-!
Which clash strict mode reports. Two operators of a tree are neighbours when one of them is at the
root of an operand of the other and no parentheses stand between them. Of the neighbours that
clash, strict mode reports those whose later operator comes first in the line, and where none
clash it gives the same tree as lenient mode.
-/
namespace InfixTree

namespace Expr

/-- Two operators and the indices of their tokens, in the order of the line. -/
structure Neighbours where
  left : String
  right : String
  first : Nat
  second : Nat
  deriving DecidableEq, Repr

/-- The neighbours in a tree whose first token has the index in the second place. -/
inductive Adjoins : Expr → Nat → Neighbours → Prop where
  | leftOperand (a b r : Expr) (q o : String) (index : Nat) :
      Adjoins (.binary (.binary a q b) o r) index
        ⟨q, o, index + a.spelling.length, index + (Expr.binary a q b).spelling.length⟩
  | rightOperand (l a b : Expr) (o q : String) (index : Nat) :
      Adjoins (.binary l o (.binary a q b)) index
        ⟨o, q, index + l.spelling.length, index + l.spelling.length + 1 + a.spelling.length⟩
  | left {l r : Expr} {o : String} {index : Nat} {n : Neighbours} (inside : Adjoins l index n) :
      Adjoins (.binary l o r) index n
  | right {l r : Expr} {o : String} {index : Nat} {n : Neighbours}
      (inside : Adjoins r (index + l.spelling.length + 1) n) : Adjoins (.binary l o r) index n
  | inner {e : Expr} {index : Nat} {n : Neighbours} (inside : Adjoins e (index + 1) n) :
      Adjoins (.parenthesized e) index n
  | callee {f : Expr} {args : List Expr} {index : Nat} {n : Neighbours}
      (inside : Adjoins f index n) : Adjoins (.application f args) index n
  | argument {f a : Expr} {before after : List Expr} {index : Nat} {n : Neighbours}
      (inside : Adjoins a (index + f.spelling.length + (spellings before).length) n) :
      Adjoins (.application f (before ++ a :: after)) index n

structure Neighbours.Clashing (n : Neighbours) : Prop where
  level : (Fixity.lookup n.left).precedence = (Fixity.lookup n.right).precedence
  nonAssoc : (Fixity.lookup n.left).associativity = .nonAssoc ∨
    (Fixity.lookup n.right).associativity = .nonAssoc

def HasClash (e : Expr) (n : Neighbours) : Prop := e.Adjoins 0 n ∧ n.Clashing

theorem Neighbours.clashing_iff {n : Neighbours} :
    n.Clashing ↔ (Fixity.lookup n.left).clashes (.lookup n.right) := by
  simp only [Fixity.clashes, Bool.and_eq_true, Bool.or_eq_true, beq_iff_eq]
  exact ⟨fun c => ⟨c.level, c.nonAssoc⟩, fun c => ⟨c.1, c.2⟩⟩

/-- The entry that the neighbours have in the list of clashes. -/
def Neighbours.clash (n : Neighbours) : Clash := ⟨n.left, n.right, n.second⟩

theorem mem_link_iff {index : Nat} {f g : Option String} {c : Clash} :
    c ∈ link index f g ↔ ∃ p q, f = some p ∧ g = some q ∧
      (Fixity.lookup p).clashes (.lookup q) ∧ c = ⟨p, q, index⟩ := by
  match f, g with
  | none, _ => simp [link]
  | some _, none => simp [link]
  | some p, some q => cases same : (Fixity.lookup p).clashes (.lookup q) <;> simp [link, same]

/-- A waiting operator adds at most the clash with the root. -/
theorem mem_clashes_some_iff {e : Expr} {w : String} {index : Nat} {c : Clash} :
    c ∈ e.clashes (some w) index ↔ c ∈ e.clashes none index ∨
      ∃ a q b, e = .binary a q b ∧ c ∈ link (index + a.spelling.length) (some w) (some q) := by
  cases e with
  | binary a q b =>
    have alone : link (index + a.spelling.length) none (some q) = [] := rfl
    simp only [clashes, alone, List.mem_append, List.not_mem_nil, false_or]
    constructor
    · intro member
      rcases member with inLeft | below | above | inRight
      · exact Or.inl (Or.inl inLeft)
      · exact Or.inl (Or.inr (Or.inl below))
      · exact Or.inr ⟨a, q, b, rfl, above⟩
      · exact Or.inl (Or.inr (Or.inr inRight))
    · intro member
      rcases member with (inLeft | below | inRight) | ⟨_, _, _, same, above⟩
      · exact Or.inl inLeft
      · exact Or.inr (Or.inl below)
      · exact Or.inr (Or.inr (Or.inr inRight))
      · cases same
        exact Or.inr (Or.inr (Or.inl above))
  | _ => simp [clashes]

theorem mem_clashesAll_iff {args : List Expr} {index : Nat} {c : Clash} :
    c ∈ clashesAll index args ↔ ∃ before a after, args = before ++ a :: after ∧
      c ∈ a.clashes none (index + (spellings before).length) := by
  induction args generalizing index with
  | nil => simp [clashesAll]
  | cons a rest ih =>
    simp only [clashesAll, List.mem_append, ih]
    constructor
    · intro member
      rcases member with here | ⟨before, b, after, rfl, there⟩
      · exact ⟨[], a, rest, rfl, here⟩
      · refine ⟨a :: before, b, after, rfl, ?_⟩
        rwa [spellings, List.length_append, ← Nat.add_assoc]
    · intro member
      obtain ⟨before, b, after, split, there⟩ := member
      cases before with
      | nil =>
        obtain ⟨rfl, rfl⟩ := List.cons.inj split
        exact Or.inl there
      | cons first others =>
        obtain ⟨rfl, rfl⟩ := List.cons.inj split
        refine Or.inr ⟨others, b, after, rfl, ?_⟩
        rwa [spellings, List.length_append, ← Nat.add_assoc] at there

theorem adjoins_of_mem_clashes {e : Expr} {index : Nat} {c : Clash}
    (member : c ∈ e.clashes none index) : ∃ n, e.Adjoins index n ∧ n.Clashing ∧ c = n.clash := by
  induction e generalizing index with
  | number value => simp [clashes] at member
  | identifier name => simp [clashes] at member
  | application callee args ihf ih =>
    rcases List.mem_append.mp member with first | later
    · obtain ⟨n, inside, rest⟩ := ihf first
      exact ⟨n, .callee inside, rest⟩
    · obtain ⟨before, a, after, rfl, there⟩ := mem_clashesAll_iff.mp later
      obtain ⟨n, inside, rest⟩ := ih a (by simp) there
      exact ⟨n, .argument inside, rest⟩
  | parenthesized inner ih =>
    obtain ⟨n, inside, rest⟩ := ih member
    exact ⟨n, .inner inside, rest⟩
  | binary l o r ihl ihr =>
    simp only [clashes, List.mem_append, mem_link_iff, mem_clashes_some_iff] at member
    rcases member with inLeft | below | above | inRight | across
    · obtain ⟨n, inside, rest⟩ := ihl inLeft
      exact ⟨n, .left inside, rest⟩
    · obtain ⟨p, q, root, same, clash, rfl⟩ := below
      obtain rfl := Option.some.inj same
      cases l with
      | binary a p' b =>
        obtain rfl := Option.some.inj root
        exact ⟨_, .leftOperand a b r p' o index, Neighbours.clashing_iff.mpr clash, rfl⟩
      | _ => simp [operator?] at root
    · obtain ⟨p, q, absent, -⟩ := above
      contradiction
    · obtain ⟨n, inside, rest⟩ := ihr inRight
      exact ⟨n, .right inside, rest⟩
    · obtain ⟨a, q, b, rfl, p, q', first, second, clash, rfl⟩ := across
      obtain rfl := Option.some.inj first
      obtain rfl := Option.some.inj second
      exact ⟨_, .rightOperand l a b o q index, Neighbours.clashing_iff.mpr clash, rfl⟩

theorem mem_clashes_of_adjoins {e : Expr} {index : Nat} {n : Neighbours}
    (adjoins : e.Adjoins index n) (clashing : n.Clashing) : n.clash ∈ e.clashes none index := by
  have linked : n.clash ∈ link n.second (some n.left) (some n.right) :=
    mem_link_iff.mpr ⟨_, _, rfl, rfl, Neighbours.clashing_iff.mp clashing, rfl⟩
  clear clashing
  induction adjoins with
  | leftOperand a b r q o index =>
    exact List.mem_append_right _ (List.mem_append_left _ linked)
  | rightOperand l a b o q index =>
    have across := mem_clashes_some_iff.mpr (Or.inr ⟨a, q, b, rfl, linked⟩)
    exact List.mem_append_right _ (List.mem_append_right _ (List.mem_append_right _ across))
  | left _ ih => exact List.mem_append_left _ (ih linked)
  | @right l r o index n _ ih =>
    have inside := mem_clashes_some_iff (w := o).mpr (Or.inl (ih linked))
    exact List.mem_append_right _ (List.mem_append_right _ (List.mem_append_right _ inside))
  | inner _ ih => exact ih linked
  | callee _ ih => exact List.mem_append_left _ (ih linked)
  | @argument f a before after index n _ ih =>
    have inside := mem_clashesAll_iff.mpr ⟨before, a, after, rfl, ih linked⟩
    exact List.mem_append_right _ inside

/-- Neighbours stand where their indices say, the left one first. -/
theorem Adjoins.spelled {e : Expr} {index : Nat} {n : Neighbours} (adjoins : e.Adjoins index n) :
    ∃ before between after, e.spelling =
        before ++ .operator n.left :: (between ++ .operator n.right :: after) ∧
      n.first = index + before.length ∧ n.second = n.first + 1 + between.length := by
  induction adjoins with
  | leftOperand a b r q o index =>
    refine ⟨a.spelling, b.spelling, r.spelling, by simp [spelling], rfl, ?_⟩
    simp only [spelling, List.length_append, List.length_cons]
    omega
  | rightOperand l a b o q index =>
    exact ⟨l.spelling, a.spelling, b.spelling, by simp [spelling], rfl, rfl⟩
  | @left l r o index n _ ih =>
    obtain ⟨x, y, z, spelled, first, second⟩ := ih
    exact ⟨x, y, z ++ .operator o :: r.spelling, by simp [spelling, spelled], first, second⟩
  | @right l r o index n _ ih =>
    obtain ⟨x, y, z, spelled, first, second⟩ := ih
    refine ⟨l.spelling ++ .operator o :: x, y, z, by simp [spelling, spelled], ?_, second⟩
    simp only [first, List.length_append, List.length_cons]
    omega
  | @inner e index n _ ih =>
    obtain ⟨x, y, z, spelled, first, second⟩ := ih
    refine ⟨.opening :: x, y, z ++ [.closing], by simp [spelling, spelled], ?_, second⟩
    simp only [first, List.length_cons]
    omega
  | @callee f args index n _ ih =>
    obtain ⟨x, y, z, spelled, first, second⟩ := ih
    exact ⟨x, y, z ++ spellings args, by simp [spelling, spelled], first, second⟩
  | @argument f a before after index n _ ih =>
    obtain ⟨x, y, z, spelled, first, second⟩ := ih
    refine ⟨f.spelling ++ spellings before ++ x, y, z ++ spellings after, ?_, ?_, second⟩
    · simp [spelling, spellings_eq_flatMap, spelled]
    · simp only [first, List.length_append]
      omega

theorem Adjoins.operators {e : Expr} {n : Neighbours} (adjoins : e.Adjoins 0 n) :
    n.first < n.second ∧ e.spelling[n.first]? = some (.operator n.left) ∧
      e.spelling[n.second]? = some (.operator n.right) := by
  obtain ⟨x, y, z, spelled, first, second⟩ := adjoins.spelled
  have regrouped : e.spelling = (x ++ .operator n.left :: y) ++ .operator n.right :: z := by
    simp [spelled]
  have place : n.second = (x ++ .operator n.left :: y).length := by
    simp only [List.length_append, List.length_cons]
    omega
  refine ⟨by omega, ?_, ?_⟩
  · rw [spelled, first, Nat.zero_add]
    simp
  · rw [regrouped, place]
    simp

/-- The clashes of a tree have their indices within it. -/
theorem index_bounds {e : Expr} {waiting : Option String} {index : Nat} {c : Clash}
    (member : c ∈ e.clashes waiting index) :
    index ≤ c.index ∧ c.index < index + e.spelling.length := by
  have inside : c ∈ e.clashes none index → index ≤ c.index ∧ c.index < index + e.spelling.length := by
    intro alone
    obtain ⟨n, adjoins, -, rfl⟩ := adjoins_of_mem_clashes alone
    obtain ⟨x, y, z, spelled, first, second⟩ := adjoins.spelled
    simp only [Neighbours.clash, spelled, List.length_append, List.length_cons]
    omega
  cases waiting with
  | none => exact inside member
  | some w =>
    rcases mem_clashes_some_iff.mp member with alone | ⟨a, q, b, rfl, root⟩
    · exact inside alone
    · obtain ⟨p, q', -, -, -, rfl⟩ := mem_link_iff.mp root
      simp only [spelling, List.length_append, List.length_cons]
      omega

theorem index_of_mem_link {index : Nat} {f g : Option String} {c : Clash}
    (member : c ∈ link index f g) : c.index = index := by
  obtain ⟨p, q, -, -, -, rfl⟩ := mem_link_iff.mp member
  rfl

theorem link_in_order (index : Nat) (f g : Option String) :
    (link index f g).Pairwise fun c d => c.index ≤ d.index := by
  match f, g with
  | none, _ => exact .nil
  | some _, none => exact .nil
  | some p, some q => cases same : (Fixity.lookup p).clashes (.lookup q) <;> simp [link, same]

/-- Clashes are listed in the order in which their later operators stand in the line. -/
theorem clashes_in_order (e : Expr) (waiting : Option String) (index : Nat) :
    (e.clashes waiting index).Pairwise fun c d => c.index ≤ d.index := by
  induction e generalizing waiting index with
  | number value => exact .nil
  | identifier name => exact .nil
  | application callee args ihf ih =>
    have all : ∀ i, (clashesAll i args).Pairwise fun c d => c.index ≤ d.index := by
      clear ihf
      induction args with
      | nil => exact fun _ => .nil
      | cons a rest tail =>
        intro i
        refine List.pairwise_append.mpr ⟨ih a (by simp) none i,
          tail (fun b hb => ih b (by simp [hb])) _, ?_⟩
        intro c hc d hd
        obtain ⟨before, b, after, -, there⟩ := mem_clashesAll_iff.mp hd
        have := index_bounds hc
        have := index_bounds there
        omega
    refine List.pairwise_append.mpr ⟨ihf none index, all _, ?_⟩
    intro c hc d hd
    obtain ⟨before, b, after, -, there⟩ := mem_clashesAll_iff.mp hd
    have := index_bounds hc
    have := index_bounds there
    omega
  | parenthesized inner ih => exact ih none (index + 1)
  | binary l o r ihl ihr =>
    refine List.pairwise_append.mpr ⟨ihl none index, List.pairwise_append.mpr
      ⟨link_in_order _ _ _, List.pairwise_append.mpr ⟨link_in_order _ _ _, ihr _ _, ?_⟩, ?_⟩, ?_⟩
    · intro c hc d hd
      have := index_of_mem_link hc
      have := index_bounds hd
      omega
    · intro c hc d hd
      have := index_of_mem_link hc
      rcases List.mem_append.mp hd with above | inRight
      · have := index_of_mem_link above
        omega
      · have := index_bounds inRight
        omega
    · intro c hc d hd
      have := index_bounds hc
      rcases List.mem_append.mp hd with below | later
      · have := index_of_mem_link below
        omega
      · rcases List.mem_append.mp later with above | inRight
        · have := index_of_mem_link above
          omega
        · have := index_bounds inRight
          omega

/-- The head of the list of clashes is the clash whose later operator comes first. -/
theorem first_of_clashes {e : Expr} {c : Clash} {rest : List Clash}
    (clashes : e.clashes none 0 = c :: rest) :
    ∃ n, e.HasClash n ∧ c = n.clash ∧ ∀ m, e.HasClash m → n.second ≤ m.second := by
  have ordered := clashes_in_order e none 0
  rw [clashes] at ordered
  have head : c ∈ e.clashes none 0 := by simp [clashes]
  obtain ⟨n, adjoins, clashing, rfl⟩ := adjoins_of_mem_clashes head
  refine ⟨n, ⟨adjoins, clashing⟩, rfl, ?_⟩
  intro m other
  have member := mem_clashes_of_adjoins other.1 other.2
  rw [clashes] at member
  rcases List.mem_cons.mp member with same | later
  · exact Nat.le_of_eq (congrArg Clash.index same).symm
  · exact (List.pairwise_cons.mp ordered).1 _ later

end Expr

/-- Neighbours that clash in the tree of the line, and no others clash at an earlier token than the
later of these two. -/
structure IsFirstClash (e : Expr) (tokens : List Token) (n : Expr.Neighbours) (later : Token) :
    Prop where
  clash : e.HasClash n
  order : n.first < n.second
  left : (kinds tokens)[n.first]? = some (.operator n.left)
  right : (kinds tokens)[n.second]? = some (.operator n.right)
  token : tokens[n.second]? = some later
  earliest : ∀ m, e.HasClash m → n.second ≤ m.second

/-- On an infix line strict mode gives the tree that lenient mode gives, or the first clash. -/
theorem strict_mode_refuses_first_clash {tokens : List Token}
    (line : Grammar.IsLevel (kinds tokens)) :
    ∃ e, parse .lenient tokens = .ok e ∧
      (((∀ n, ¬ e.HasClash n) ∧ parse .strict tokens = .ok e) ∨
        ∃ n later, IsFirstClash e tokens n later ∧
          parse .strict tokens = .error (.nonAssociativeChain n.left n.right later.location)) := by
  obtain ⟨e, reads⟩ := line.tree
  refine ⟨e, Parse.parse_of_reads reads (by simp), ?_⟩
  cases clashes : e.clashes none 0 with
  | nil =>
    have unchained := Parse.unchained_of_clashes clashes
    refine Or.inl ⟨?_, Parse.parse_of_reads reads fun _ => unchained⟩
    intro n clash
    have member := Expr.mem_clashes_of_adjoins clash.1 clash.2
    simp [clashes] at member
  | cons c rest =>
    obtain ⟨n, clash, rfl, earliest⟩ := Expr.first_of_clashes clashes
    obtain ⟨later, token, refused⟩ := Parse.parse_strict_of_clashes reads clashes
    obtain ⟨order, left, right⟩ := clash.1.operators
    rw [reads.spelled] at left right
    exact Or.inr ⟨n, later, ⟨clash, order, left, right, token, earliest⟩, refused⟩

/-- The chain under the parentheses comes first, with a tighter operator between the two that
clash; the chain around them is not reached. -/
theorem strict_mode_refuses_inner_chain :
    ∃ tokens, tokenize "f (a <$> b + 1 == 2) < 3 < 4" = .ok tokens ∧
      Grammar.IsLevel (kinds tokens) ∧ ∃ e, parse .lenient tokens = .ok e ∧
        (((∀ n, ¬ e.HasClash n) ∧ parse .strict tokens = .ok e) ∨
          ∃ n later, IsFirstClash e tokens n later ∧
            parse .strict tokens =
              .error (.nonAssociativeChain n.left n.right later.location)) := by
  let chain : Expr := .binary (.identifier "a") "<$>"
    (.binary (.binary (.identifier "b") "+" (.number 1)) "==" (.number 2))
  let whole : Expr := .binary (.application (.identifier "f") [.parenthesized chain]) "<"
    (.binary (.number 3) "<" (.number 4))
  obtain ⟨tokens, scanned, spelled⟩ := Expr.tokenize_plainForm (by decide +kernel : whole.Writable)
  have line : Grammar.IsLevel (kinds tokens) := by
    rw [spelled]
    exact Grammar.isLevel_spelling (by decide +kernel)
  exact ⟨tokens, scanned, line, strict_mode_refuses_first_clash line⟩

end InfixTree
