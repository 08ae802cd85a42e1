import InfixTree.Proofs.Contents
import InfixTree.Proofs.JsonTrees

/-!
Where trees come from. Applying a tree to no arguments leaves it as it is, and parsing closes no
application without an argument, so neither can make a call of nothing. Decoding takes its trees as
they are written, and is the one way to such a call: what is decoded may hold it anywhere, and what
is made of decoded trees keeps it.
-/
namespace InfixTree.Expr

/-- The trees that can be come by: with the constructors, by parsing any tokens, and by decoding the
texts that may be read. -/
inductive Obtained (readable : String → Prop) : Expr → Prop where
  | number (value : UInt64) : Obtained readable (.number value)
  | identifier (name : String) : Obtained readable (.identifier name)
  | apply {callee : Expr} {args : List Expr} (function : Obtained readable callee)
      (each : ∀ a ∈ args, Obtained readable a) : Obtained readable (callee.apply args)
  | parenthesized {inner : Expr} (within : Obtained readable inner) :
      Obtained readable (.parenthesized inner)
  | binary {left right : Expr} (operator : String) (first : Obtained readable left)
      (second : Obtained readable right) : Obtained readable (.binary left operator right)
  | parsed {mode : Mode} {tokens : List Token} {e : Expr} (parses : parse mode tokens = .ok e) :
      Obtained readable e
  | parsedFrom {mode : Mode} {tokens : List Token} {start stop : Nat} {e : Expr}
      (parses : parseFrom mode tokens start = .ok (e, stop)) : Obtained readable e
  | decoded {text : String} {e : Expr} (given : readable text)
      (decodes : ofJsonText? text = some e) : Obtained readable e

/-- Whether the tree is no application, or one with an argument at least. -/
def hasArguments : Expr → Bool
  | .application _ args => !args.isEmpty
  | _ => true

/-! ### The nodes of a tree -/

theorem mem_nodes_self (e : Expr) : e ∈ e.nodes := by
  cases e <;> simp [nodes]

theorem mem_nodes_application {n f : Expr} {args : List Expr} :
    n ∈ (application f args).nodes ↔
      n ∈ f.nodes ∨ (∃ a ∈ args, n ∈ a.nodes) ∨ n = .application f args := by
  simp [nodes, nodesAll_eq_flatMap]

theorem mem_nodes_parenthesized {n e : Expr} :
    n ∈ (parenthesized e).nodes ↔ n ∈ e.nodes ∨ n = .parenthesized e := by
  simp [nodes]

theorem mem_nodes_binary {n l r : Expr} {o : String} :
    n ∈ (binary l o r).nodes ↔ n ∈ l.nodes ∨ n ∈ r.nodes ∨ n = .binary l o r := by
  simp [nodes]

theorem nesting_le_of_mem_nodes {e n : Expr} (member : n ∈ e.nodes) : n.nesting ≤ e.nesting := by
  induction e with
  | number value | identifier name =>
    obtain rfl := List.mem_singleton.mp member
    exact Nat.le_refl _
  | application callee args callee_ih args_ih =>
    rcases mem_nodes_application.mp member with first | ⟨a, found, inside⟩ | rfl
    · have within := callee_ih first
      rw [nesting]
      omega
    · have within := args_ih a found inside
      have among := nestings_le_iff.mp (Nat.le_refl (nestings args)) a found
      rw [nesting]
      omega
    · exact Nat.le_refl _
  | parenthesized inner ih =>
    rcases mem_nodes_parenthesized.mp member with inside | rfl
    · have within := ih inside
      rw [nesting]
      omega
    · exact Nat.le_refl _
  | binary left operator right left_ih right_ih =>
    rcases mem_nodes_binary.mp member with first | second | rfl
    · have within := left_ih first
      rw [nesting]
      omega
    · have within := right_ih second
      rw [nesting]
      omega
    · exact Nat.le_refl _

theorem Applied.hasArguments {e n : Expr} (applied : e.Applied) (member : n ∈ e.nodes) :
    n.hasArguments := by
  have here := applied n member
  cases n with
  | application callee args => cases callee <;> simp_all [appliedHere, Expr.hasArguments]
  | _ => rfl

/-! ### What the ways to a tree keep -/

/-- The tree is part of one that is decoded. -/
def InText (readable : String → Prop) (n : Expr) : Prop :=
  ∃ text d, readable text ∧ ofJsonText? text = some d ∧ n ∈ d.nodes

theorem applied_of_parseFrom {mode : Mode} {tokens : List Token} {start stop : Nat} {e : Expr}
    (parsed : parseFrom mode tokens start = .ok (e, stop)) : e.Applied := by
  obtain ⟨_, _, _, -, takes, yields, -⟩ := Parse.parseFrom_eq_ok_iff.mp parsed
  exact Parse.applied_of_takes takes yields

/-- A call of nothing is part of a decoded tree wherever it turns up. -/
theorem Obtained.inText {readable : String → Prop} {e : Expr} (obtained : Obtained readable e) :
    ∀ n ∈ e.nodes, n.hasArguments = false → InText readable n := by
  induction obtained with
  | number value | identifier name =>
    intro n member lone
    obtain rfl := List.mem_singleton.mp member
    cases lone
  | @apply callee args _ _ function_ih each_ih =>
    intro n member lone
    cases args with
    | nil => exact function_ih n member lone
    | cons a rest =>
      rcases mem_nodes_application.mp member with first | ⟨b, found, inside⟩ | rfl
      · exact function_ih n first lone
      · exact each_ih b found n inside lone
      · cases lone
  | parenthesized _ ih =>
    intro n member lone
    rcases mem_nodes_parenthesized.mp member with inside | rfl
    · exact ih n inside lone
    · cases lone
  | binary operator _ _ first_ih second_ih =>
    intro n member lone
    rcases mem_nodes_binary.mp member with first | second | rfl
    · exact first_ih n first lone
    · exact second_ih n second lone
    · cases lone
  | parsed parses =>
    intro n member lone
    rw [(Parse.applied_of_parse parses).hasArguments member] at lone
    cases lone
  | parsedFrom parses =>
    intro n member lone
    rw [(applied_of_parseFrom parses).hasArguments member] at lone
    cases lone
  | @decoded text e given decodes =>
    intro n member _
    exact ⟨text, e, given, decodes, member⟩

/-- Beyond its calls of nothing a tree can be put together from its parts. -/
theorem obtained_of_lone {readable : String → Prop} {e : Expr}
    (lone : ∀ n ∈ e.nodes, n.hasArguments = false → Obtained readable n) : Obtained readable e := by
  induction e with
  | number value => exact .number value
  | identifier name => exact .identifier name
  | application callee args callee_ih args_ih =>
    cases args with
    | nil => exact lone _ (mem_nodes_self _) rfl
    | cons a rest =>
      have function := callee_ih fun n hn => lone n (mem_nodes_application.mpr (.inl hn))
      have each : ∀ b ∈ a :: rest, Obtained readable b := fun b hb =>
        args_ih b hb fun n hn => lone n (mem_nodes_application.mpr (.inr (.inl ⟨b, hb, hn⟩)))
      exact .apply function each
  | parenthesized inner ih =>
    exact .parenthesized (ih fun n hn => lone n (mem_nodes_parenthesized.mpr (.inl hn)))
  | binary left operator right left_ih right_ih =>
    have first := left_ih fun n hn => lone n (mem_nodes_binary.mpr (.inl hn))
    have second := right_ih fun n hn => lone n (mem_nodes_binary.mpr (.inr (.inl hn)))
    exact .binary operator first second

theorem InText.nesting_le {readable : String → Prop} {n : Expr} (inText : InText readable n) :
    n.nesting ≤ 127 := by
  obtain ⟨text, d, -, decodes, member⟩ := inText
  obtain ⟨j, -, read⟩ := Option.bind_eq_some_iff.mp decodes
  have whole : d.nesting ≤ 127 := nesting_le_of_ofJson? read
  exact Nat.le_trans (nesting_le_of_mem_nodes member) whole

theorem obtained_of_nesting_le {n : Expr} (shallow : n.nesting ≤ 127) :
    Obtained (fun _ => True) n := by
  have back : ofJsonText? n.toJsonText = some n := by
    rw [ofJsonText?_toJsonText, if_pos shallow]
  exact .decoded trivial back

/-- A tree has no call of nothing exactly when it can be come by without decoding. With decoding, it
can be come by exactly when every call of nothing in it is shallow enough to be decoded; and each of
them is part of a tree that is decoded from a text that may be read. -/
theorem calls_of_nothing_are_decoded (readable : String → Prop) (e : Expr) :
    (e.EveryNode hasArguments ↔ Obtained (fun _ => False) e) ∧
    (Obtained (fun _ => True) e ↔ ∀ n ∈ e.nodes, n.hasArguments = false → n.nesting ≤ 127) ∧
    (Obtained readable e → ∀ n ∈ e.nodes, n.hasArguments = false →
      ∃ text d, readable text ∧ ofJsonText? text = some d ∧ n ∈ d.nodes) := by
  refine ⟨⟨fun every => ?_, fun obtained n member => ?_⟩,
    ⟨fun obtained n member lone => ?_, fun shallow => ?_⟩, Obtained.inText⟩
  · apply obtained_of_lone
    intro n member lone
    rw [every n member] at lone
    cases lone
  · cases lone : n.hasArguments with
    | true => rfl
    | false =>
      obtain ⟨_, _, unread, -⟩ := obtained.inText n member lone
      exact unread.elim
  · exact (obtained.inText n member lone).nesting_le
  · apply obtained_of_lone
    intro n member lone
    exact obtained_of_nesting_le (shallow n member lone)

/-- The text of a call of `f` with an empty array of arguments. -/
def callOfNothing : String :=
  "\x7b\"type\":\"Application\",\"value\":\x7b\"callee\":\x7b\"type\":\"Identifier\",\"value\":\"f\"\x7d,\"args\":[]\x7d\x7d"

theorem decoding_admits_call_of_nothing :
    ofJsonText? callOfNothing = some (.application (.identifier "f") []) ∧
      ¬ ∀ e : Expr, Obtained (fun _ => True) e → e.EveryNode hasArguments := by
  have decodes : ofJsonText? callOfNothing = some (.application (.identifier "f") []) := by
    decide +kernel
  have without : ¬ (application (.identifier "f") []).EveryNode hasArguments := by decide
  exact ⟨decodes, fun claimed => without (claimed _ (.decoded trivial decodes))⟩

end InfixTree.Expr
