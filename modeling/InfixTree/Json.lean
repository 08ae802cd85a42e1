import InfixTree.Text.Decimal

/-!
JSON values, kept as they are written: a string and a number stand for themselves until someone
asks what they say. So a value can be read past without its strings being texts or its numbers
having a size.
-/
namespace InfixTree

inductive Json where
  | null
  | bool (value : Bool)
  | number (literal : List Char)
  | string (body : List Char)
  | array (elements : List Json)
  | object (members : List (List Char × Json))
  deriving Repr

namespace Json

/-- The value of a number without sign, fraction and exponent that takes at most 64 bits. -/
def word? : Json → Option UInt64
  | .number literal => if literal.all Char.isDigit then Text.word? literal else none
  | _ => none

/-! Escapes -/

def hexValue? (c : Char) : Option Nat :=
  if '0' ≤ c ∧ c ≤ '9' then some (c.toNat - '0'.toNat)
  else if 'a' ≤ c ∧ c ≤ 'f' then some (c.toNat - 'a'.toNat + 10)
  else if 'A' ≤ c ∧ c ≤ 'F' then some (c.toNat - 'A'.toNat + 10)
  else none

def code? (a b c d : Char) : Option Nat := do
  let w ← hexValue? a
  let x ← hexValue? b
  let y ← hexValue? c
  let z ← hexValue? d
  some (((w * 16 + x) * 16 + y) * 16 + z)

/-- What a backslash and one character stand for. -/
def short? : Char → Option Char
  | '"' => some '"'
  | '\\' => some '\\'
  | '/' => some '/'
  | 'b' => some '\x08'
  | 'f' => some '\x0c'
  | 'n' => some '\n'
  | 'r' => some '\r'
  | 't' => some '\t'
  | _ => none

/-- A part of a string: a character, or half of one that takes two escapes. -/
inductive Part where
  | char (c : Char)
  | half (code : Nat)
  deriving DecidableEq, Repr

def Part.ofCode (code : Nat) : Part :=
  if 0xD800 ≤ code ∧ code ≤ 0xDFFF then .half code else .char (.ofNat code)

def parts? : List Char → Option (List Part)
  | [] => some []
  | '\\' :: 'u' :: a :: b :: c :: d :: rest => do
    let code ← code? a b c d
    let parts ← parts? rest
    some (.ofCode code :: parts)
  | '\\' :: e :: rest => do
    let c ← short? e
    let parts ← parts? rest
    some (.char c :: parts)
  | c :: rest => (parts? rest).map (.char c :: ·)

/-- A half must be a leading one that its trailing one follows. -/
def join? : List Part → Option (List Char)
  | [] => some []
  | .char c :: rest => (join? rest).map (c :: ·)
  | .half lead :: .half trail :: rest =>
    if lead < 0xDC00 ∧ 0xDC00 ≤ trail then
      (join? rest).map (.ofNat (0x10000 + (lead - 0xD800) * 0x400 + (trail - 0xDC00)) :: ·)
    else none
  | .half _ :: _ => none

/-- The text that the body of a string says, if it says one. -/
def text? (body : List Char) : Option String := do
  let parts ← parts? body
  let chars ← join? parts
  some (.ofList chars)

def hexDigit (n : Nat) : Char := (n % 16).digitChar

def escape (c : Char) : List Char :=
  if c = '"' ∨ c = '\\' then ['\\', c]
  else if c = '\x08' then ['\\', 'b']
  else if c = '\t' then ['\\', 't']
  else if c = '\n' then ['\\', 'n']
  else if c = '\x0c' then ['\\', 'f']
  else if c = '\r' then ['\\', 'r']
  else if c < ' ' then ['\\', 'u', '0', '0', hexDigit (c.toNat / 16), hexDigit c.toNat]
  else [c]

def body (text : String) : List Char := text.toList.flatMap escape

def ofText (text : String) : Json := .string (body text)

def ofNat (n : Nat) : Json := .number (Text.decimal n)

/-- The text that a string says. -/
def textOf? : Json → Option String
  | .string body => text? body
  | _ => none

/-- The one member with this name. -/
def sole? (name : String) (fields : List (String × Json)) : Option Json :=
  match fields.filter (·.1 == name) with
  | [(_, j)] => some j
  | _ => none

/-- The members of an object whose names are all texts. -/
def fields? : Json → Option (List (String × Json))
  | .object members => members.mapM fun m => (text? m.1).map (·, m.2)
  | _ => none

end Json

end InfixTree
