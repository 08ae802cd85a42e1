import InfixTree.Expr.Json
import InfixTree.Proofs.JsonText

/-!
Trees through their JSON and back. What is written for a tree nests a fixed amount deeper than the
tree, by its kind of node; it is read back when that is within the limit and refused otherwise. The
reader refuses the same trees however they are written.
-/
namespace InfixTree

namespace Json

/-- The object with these members. -/
def record (members : List (String × Json)) : Json :=
  .object (members.map fun m => (body m.1, m.2))

theorem fields?_record (members : List (String × Json)) :
    (record members).fields? = some members := by
  unfold record fields?
  induction members with
  | nil => rfl
  | cons m rest ih => simp_all [List.mapM_cons]

theorem written_record {members : List (String × Json)} (each : ∀ m ∈ members, Written m.2) :
    Written (record members) := by
  apply Written.object
  · intro m member
    obtain ⟨n, -, rfl⟩ := List.mem_map.mp member
    exact ⟨n.1, rfl⟩
  · intro m member
    obtain ⟨n, found, rfl⟩ := List.mem_map.mp member
    exact each n found

end Json

namespace Expr

open Json

mutual

/-- How deep the arrays and objects nest that are written for a tree. -/
def nesting : Expr → Nat
  | .number _ | .identifier _ => 1
  | .application callee args => 2 + max callee.nesting (1 + nestings args)
  | .parenthesized inner => 1 + inner.nesting
  | .binary left _ right => 2 + max left.nesting right.nesting

/-- The greatest nesting of the trees, if there are any. -/
def nestings : List Expr → Nat
  | [] => 0
  | a :: rest => max a.nesting (nestings rest)

end

theorem nestings_le_iff {args : List Expr} {n : Nat} :
    nestings args ≤ n ↔ ∀ a ∈ args, a.nesting ≤ n := by
  induction args with
  | nil => simp [nestings]
  | cons a rest ih => rw [nestings, Nat.max_le, ih, List.forall_mem_cons]

/-- The names of members are written as they are. -/
theorem body_name : ∀ name ∈ ["type", "value", "callee", "args", "left", "operator", "right"],
    body name = name.toList := by
  decide +kernel

theorem node_eq_record (tag : Tag) (content : Json) :
    node tag content = record [("type", .ofText tag.name), ("value", content)] := by
  simp [node, record, body_name]

theorem toJson_application (callee : Expr) (args : List Expr) :
    (application callee args).toJson =
      node .application
        (record [("callee", callee.toJson), ("args", .array (args.map toJson))]) := by
  simp [toJson, record, body_name, toJsons_eq_map]

theorem toJson_binary (left : Expr) (operator : String) (right : Expr) :
    (binary left operator right).toJson =
      node .binary (record [("left", left.toJson), ("operator", .ofText operator),
        ("right", right.toJson)]) := by
  simp [toJson, record, body_name]

theorem written_node (tag : Tag) {content : Json} (written : Written content) :
    Written (node tag content) := by
  rw [node_eq_record]
  apply written_record
  simp [written, Written.text]

theorem written_toJson (e : Expr) : Written e.toJson := by
  induction e with
  | number value => exact written_node _ (.natural _)
  | identifier name => exact written_node _ (.text name)
  | application callee args callee_ih args_ih =>
    have elements : Written (.array (args.map toJson)) := by
      apply Written.array
      intro j member
      obtain ⟨a, found, rfl⟩ := List.mem_map.mp member
      exact args_ih a found
    rw [toJson_application]
    apply written_node
    apply written_record
    simp [callee_ih, elements]
  | parenthesized inner ih => exact written_node _ ih
  | binary left operator right left_ih right_ih =>
    rw [toJson_binary]
    apply written_node
    apply written_record
    simp [left_ih, right_ih, Written.text]

@[simp] theorem tagged?_node (depth : Nat) (tag : Tag) (content : Json) :
    tagged? .text depth (node tag content) = some (tag, content, .text) := by
  have named : memberTag? .text depth (.ofText tag.name) = some tag := by
    simp [memberTag?, ofText, Tag.ofName?_name]
  have fields : (object [(body "type", ofText tag.name), (body "value", content)]).fields? =
      some [("type", .ofText tag.name), ("value", content)] :=
    fields?_record [("type", _), ("value", _)]
  rw [node_eq_record]
  simp [record, tagged?, fields, sole?, named, contentFirst]

theorem mapM_toJson {depth : Nat} {args : List Expr}
    (each : ∀ a ∈ args, ofJson? .text depth a.toJson = if a.nesting ≤ depth then some a else none) :
    (args.map toJson).mapM (ofJson? .text depth) =
      if nestings args ≤ depth then some args else none := by
  induction args with
  | nil => simp [nestings]
  | cons a rest ih =>
    have first := each a List.mem_cons_self
    have others := ih fun b hb => each b (List.mem_cons_of_mem _ hb)
    rw [List.map_cons, List.mapM_cons, first, others]
    simp only [nestings, Nat.max_le]
    by_cases shallow : a.nesting ≤ depth
    · by_cases rest_shallow : nestings rest ≤ depth
      · simp [shallow, rest_shallow]
      · simp [shallow, rest_shallow]
    · simp [shallow]

theorem word?_ofNat (value : UInt64) : (Json.ofNat value.toNat).word? = some value := by
  have digits : (Text.decimal value.toNat).all Char.isDigit :=
    List.all_eq_true.mpr fun _ => Text.isDigit_of_mem_decimal
  rw [Json.ofNat, Json.word?, if_pos digits, Text.word?_decimal]

/-- What is written for a tree is read as that tree, unless it nests too deep. -/
theorem ofJson?_toJson (e : Expr) (depth : Nat) :
    ofJson? .text depth e.toJson = if e.nesting ≤ depth then some e else none := by
  induction e generalizing depth with
  | number value =>
    cases depth with
    | zero => rfl
    | succ depth =>
      rw [toJson, ofJson?, tagged?_node, nesting, if_pos (by omega)]
      change (Json.ofNat value.toNat).word?.map number = some (.number value)
      rw [word?_ofNat, Option.map_some]
  | identifier name =>
    cases depth with
    | zero => rfl
    | succ depth =>
      rw [toJson, ofJson?, tagged?_node, nesting, if_pos (by omega)]
      change (text? (body name)).map identifier = some (.identifier name)
      rw [text?_body, Option.map_some]
  | application callee args callee_ih args_ih =>
    rw [toJson_application, nesting]
    match depth with
    | 0 => rw [if_neg (by omega), ofJson?]
    | 1 | 2 =>
      rw [if_neg (by omega), ofJson?, tagged?_node]
      rfl
    | depth + 3 =>
      -- the node and its content are two objects, and the arguments are one array more
      have elements := mapM_toJson fun a ha => args_ih a ha depth
      rw [ofJson?, tagged?_node]
      simp only [Option.bind_eq_bind, Option.bind_some, fields?_record]
      by_cases callee_shallow : callee.nesting ≤ depth + 1
      · by_cases args_shallow : nestings args ≤ depth
        · rw [if_pos (by omega)]
          simp [sole?, callee_ih, callee_shallow, elements, args_shallow]
        · rw [if_neg (by omega)]
          simp [sole?, elements, args_shallow]
      · rw [if_neg (by omega)]
        simp [sole?, callee_ih, callee_shallow]
  | parenthesized inner ih =>
    rw [toJson, nesting]
    cases depth with
    | zero => rw [if_neg (by omega), ofJson?]
    | succ depth =>
      rw [ofJson?, tagged?_node]
      change (ofJson? .text depth inner.toJson).map parenthesized = _
      rw [ih]
      by_cases shallow : inner.nesting ≤ depth
      · rw [if_pos shallow, if_pos (by omega), Option.map_some]
      · rw [if_neg shallow, if_neg (by omega), Option.map_none]
  | binary left operator right left_ih right_ih =>
    rw [toJson_binary, nesting]
    match depth with
    | 0 => rw [if_neg (by omega), ofJson?]
    | 1 =>
      rw [if_neg (by omega), ofJson?, tagged?_node]
      rfl
    | depth + 2 =>
      rw [ofJson?, tagged?_node]
      simp only [Option.bind_eq_bind, Option.bind_some, fields?_record]
      by_cases left_shallow : left.nesting ≤ depth
      · by_cases right_shallow : right.nesting ≤ depth
        · rw [if_pos (by omega)]
          simp [sole?, textOf?, ofText, left_ih, left_shallow, right_ih, right_shallow]
        · rw [if_neg (by omega)]
          simp [sole?, textOf?, ofText, right_ih, right_shallow]
      · rw [if_neg (by omega)]
        simp [sole?, left_ih, left_shallow]

theorem mem_of_mapM {α β : Type} {f : α → Option β} {as : List α} {bs : List β}
    (mapped : as.mapM f = some bs) : ∀ b ∈ bs, ∃ a ∈ as, f a = some b := by
  induction as generalizing bs with
  | nil =>
    obtain rfl : [] = bs := by simpa using mapped
    simp
  | cons a rest ih =>
    simp only [List.mapM_cons, Option.pure_def, Option.bind_eq_bind, Option.bind_eq_some_iff,
      Option.some.injEq] at mapped
    obtain ⟨first, here, others, later, rfl⟩ := mapped
    intro b member
    rcases List.mem_cons.mp member with rfl | member
    · exact ⟨a, List.mem_cons_self, here⟩
    · obtain ⟨c, found, eq⟩ := ih later b member
      exact ⟨c, List.mem_cons_of_mem _ found, eq⟩

/-- However it is written, no tree is read that nests deeper than allowed. -/
theorem nesting_le_of_ofJson? {source : Source} {depth : Nat} {j : Json} {e : Expr}
    (read : ofJson? source depth j = some e) : e.nesting ≤ depth := by
  -- parts of a tree are read one, two or three levels further in
  induction depth using Nat.strongRecOn generalizing source j e with
  | ind depth ih =>
    cases depth with
    | zero => rw [ofJson?] at read; cases read
    | succ depth =>
      rw [ofJson?] at read
      obtain ⟨⟨tag, content, source⟩, -, read⟩ := Option.bind_eq_some_iff.mp read
      cases tag with
      | number =>
        obtain ⟨value, -, rfl⟩ := Option.map_eq_some_iff.mp read
        rw [nesting]
        omega
      | identifier =>
        obtain ⟨name, -, rfl⟩ := Option.map_eq_some_iff.mp read
        rw [nesting]
        omega
      | parenthesized =>
        obtain ⟨inner, inner_read, rfl⟩ := Option.map_eq_some_iff.mp read
        have inner_le := ih depth (by omega) inner_read
        rw [nesting]
        omega
      | application =>
        match depth with
        | 0 | 1 => cases read
        | depth + 2 =>
          simp only [Option.bind_eq_bind, Option.bind_eq_some_iff] at read
          obtain ⟨_, -, _, -, callee, callee_read, elements, -, read⟩ := read
          cases elements with
          | array elements =>
            obtain ⟨args, args_read, rfl⟩ := Option.map_eq_some_iff.mp read
            have callee_le := ih (depth + 1) (by omega) callee_read
            have args_le : nestings args ≤ depth := by
              apply nestings_le_iff.mpr
              intro a member
              obtain ⟨element, -, element_read⟩ := mem_of_mapM args_read a member
              exact ih depth (by omega) element_read
            rw [nesting]
            omega
          | _ => cases read
      | binary =>
        match depth with
        | 0 => cases read
        | depth + 1 =>
          simp only [Option.bind_eq_bind, Option.bind_eq_some_iff, Option.some.injEq] at read
          obtain ⟨_, -, _, -, left, left_read, _, -, operator, -, _, -, right, right_read, rfl⟩ :=
            read
          have left_le := ih depth (by omega) left_read
          have right_le := ih depth (by omega) right_read
          rw [nesting]
          omega

theorem ofJsonText?_toJsonText (e : Expr) :
    ofJsonText? e.toJsonText = if e.nesting ≤ 127 then some e else none := by
  rw [ofJsonText?, toJsonText, (written_toJson e).read?_pretty, Option.bind_some]
  exact ofJson?_toJson e 127

/-- Decoding undoes encoding for exactly the trees that nest within the limit, and those are all the
trees that any text is decoded to. -/
theorem decoding_undoes_encoding :
    (∀ e : Expr, (e.nesting ≤ 127 → ofJsonText? e.toJsonText = some e) ∧
      (128 ≤ e.nesting → ofJsonText? e.toJsonText = none)) ∧
    ∀ (text : String) (e : Expr), ofJsonText? text = some e →
      e.nesting ≤ 127 ∧ ofJsonText? e.toJsonText = some e := by
  have within : ∀ e : Expr, e.nesting ≤ 127 → ofJsonText? e.toJsonText = some e := by
    intro e shallow
    rw [ofJsonText?_toJsonText, if_pos shallow]
  constructor
  · intro e
    constructor
    · exact within e
    · intro deep
      have too_deep : ¬ e.nesting ≤ 127 := by omega
      rw [ofJsonText?_toJsonText, if_neg too_deep]
  · intro text e decoded
    obtain ⟨j, -, read⟩ := Option.bind_eq_some_iff.mp decoded
    have shallow : e.nesting ≤ 127 := nesting_le_of_ofJson? read
    exact ⟨shallow, within e shallow⟩

/-- The last group that fits and the first that does not, and a node that is written as an array
around one whose content comes first. -/
theorem decoding_undoes_encoding_at_the_limit :
    ofJsonText? (Nat.repeat parenthesized 126 (.number 7)).toJsonText =
      some (Nat.repeat parenthesized 126 (.number 7)) ∧
    ofJsonText? (Nat.repeat parenthesized 127 (.number 7)).toJsonText = none ∧
    ofJsonText? "[\"Parenthesized\", \x7b\"value\": \"\\u00e9\", \"type\": \"Identifier\"\x7d]" =
      some (.parenthesized (.identifier "é")) ∧
    (parenthesized (.identifier "é")).nesting ≤ 127 ∧
    ofJsonText? (parenthesized (.identifier "é")).toJsonText =
      some (.parenthesized (.identifier "é")) := by
  have decoded :
      ofJsonText? "[\"Parenthesized\", \x7b\"value\": \"\\u00e9\", \"type\": \"Identifier\"\x7d]" =
        some (.parenthesized (.identifier "é")) := by
    decide +kernel
  constructor
  · exact (decoding_undoes_encoding.1 _).1 (by decide +kernel)
  constructor
  · exact (decoding_undoes_encoding.1 _).2 (by decide +kernel)
  · exact ⟨decoded, decoding_undoes_encoding.2 _ _ decoded⟩

end Expr

end InfixTree
