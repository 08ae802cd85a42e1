import InfixTree.Expr
import InfixTree.Json.Kept
import InfixTree.Json.Layout
import InfixTree.Json.Read

/-!
Trees as JSON. A node is an object with a `type`, its tag, and a `value`, its content; reading takes
them in either order and also takes an array of the two. Members with other names are passed over.
The arrays and objects that make up the tree may nest as deep as `nestingLimit`.

A content that comes before its tag is kept until the tag has been read. So all of it is held to
the rules for kept values, and the tags in it may be written in more ways.
-/
namespace InfixTree.Expr

inductive Tag where
  | number
  | identifier
  | application
  | parenthesized
  | binary
  deriving DecidableEq, Repr

namespace Tag

/-- The tags by their place. -/
def all : List Tag := [number, identifier, application, parenthesized, binary]

def name : Tag → String
  | number => "Number"
  | identifier => "Identifier"
  | application => "Application"
  | parenthesized => "Parenthesized"
  | binary => "Binary"

def ofName? (s : String) : Option Tag := all.find? (·.name == s)

theorem ofName?_name (t : Tag) : ofName? t.name = some t := by
  cases t <;> decide +kernel

end Tag

def node (tag : Tag) (content : Json) : Json :=
  .object [("type".toList, .ofText tag.name), ("value".toList, content)]

mutual

def toJson : Expr → Json
  | .number value => node .number (.ofNat value.toNat)
  | .identifier name => node .identifier (.ofText name)
  | .application callee args =>
    node .application
      (.object [("callee".toList, callee.toJson), ("args".toList, .array (toJsons args))])
  | .parenthesized inner => node .parenthesized inner.toJson
  | .binary left operator right =>
    node .binary
      (.object [("left".toList, left.toJson), ("operator".toList, .ofText operator),
        ("right".toList, right.toJson)])

def toJsons : List Expr → List Json
  | [] => []
  | a :: rest => a.toJson :: toJsons rest

end

theorem toJsons_eq_map (args : List Expr) : toJsons args = args.map toJson := by
  induction args with
  | nil => rfl
  | cons a rest ih => simp [toJsons, ih]

def nestingLimit : Nat := 127

/-- Where a value is read: straight from the text, or from a content that has been kept. -/
inductive Source where
  | text
  | kept
  deriving DecidableEq, Repr

/-- A tag that is a member: its name, or an object with the name and nothing to it. Straight from the
text that is a null, and the object counts as nesting; in a kept content an empty object will do. -/
def memberTag? (source : Source) (depth : Nat) : Json → Option Tag
  | .string body => (Json.text? body).bind Tag.ofName?
  | .object [(name, nothing)] =>
    let empty := match source, nothing with
      | .text, .null => depth != 0
      | .kept, .null | .kept, .object [] => true
      | _, _ => false
    if empty then (Json.text? name).bind Tag.ofName? else none
  | _ => none

/-- A tag that is an element: its name, or in a kept content also its place among the tags. -/
def elementTag? (source : Source) : Json → Option Tag
  | .string body => (Json.text? body).bind Tag.ofName?
  | .number literal =>
    match source with
    | .text => none
    | .kept => (Json.number literal).word?.bind fun place => Tag.all[place.toNat]?
  | _ => none

def contentFirst (fields : List (String × Json)) : Bool :=
  (fields.find? fun f => f.1 == "type" || f.1 == "value").any (·.1 == "value")

/-- The tag and the content of a node, and where the content is then read. -/
def tagged? (source : Source) (depth : Nat) : Json → Option (Tag × Json × Source)
  | .array [tag, content] => (elementTag? source tag).map (·, content, source)
  | j => do
    let fields ← j.fields?
    let content ← Json.sole? "value" fields
    let tag ← memberTag? source depth (← Json.sole? "type" fields)
    if source = .text ∧ contentFirst fields then
      if content.keepable depth then some (tag, content, .kept) else none
    else some (tag, content, source)

/-- The tree that a value gives, where `depth` more arrays and objects may nest. -/
def ofJson? (source : Source) : Nat → Json → Option Expr
  | 0, _ => none
  | depth + 1, j => do
    let (tag, content, source) ← tagged? source depth j
    match tag with
    | .number => content.word?.map .number
    | .identifier => content.textOf?.map .identifier
    | .parenthesized => (ofJson? source depth content).map .parenthesized
    | .application =>
      match depth with
      | depth + 2 => do
        let fields ← content.fields?
        let callee ← ofJson? source (depth + 1) (← Json.sole? "callee" fields)
        match ← Json.sole? "args" fields with
        | .array elements => (elements.mapM (ofJson? source depth)).map (.application callee)
        | _ => none
      | _ => none
    | .binary =>
      match depth with
      | depth + 1 => do
        let fields ← content.fields?
        let left ← ofJson? source depth (← Json.sole? "left" fields)
        let operator ← (← Json.sole? "operator" fields).textOf?
        let right ← ofJson? source depth (← Json.sole? "right" fields)
        some (.binary left operator right)
      | 0 => none

def toJsonText (e : Expr) : String := e.toJson.pretty

def ofJsonText? (text : String) : Option Expr :=
  (Json.read? text).bind (ofJson? .text nestingLimit)

end InfixTree.Expr
