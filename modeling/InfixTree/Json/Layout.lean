import InfixTree.Json

/-!
JSON values as text, one element or member to a line, each two columns further in than the bracket
around it. An empty array or object stays on one line.
-/
namespace InfixTree.Json

def newline (indent : Nat) : List Char := '\n' :: List.replicate (2 * indent) ' '

def quote (body : List Char) : List Char := '"' :: (body ++ ['"'])

def label (name : List Char) : List Char := quote name ++ [':', ' ']

mutual

def layout (indent : Nat) : Json → List Char
  | .null => ['n', 'u', 'l', 'l']
  | .bool true => ['t', 'r', 'u', 'e']
  | .bool false => ['f', 'a', 'l', 's', 'e']
  | .number literal => literal
  | .string body => quote body
  | .array [] => ['[', ']']
  | .array (j :: rest) =>
    '[' :: (newline (indent + 1) ++ (layout (indent + 1) j ++
      (layoutElements (indent + 1) rest ++ (newline indent ++ [']']))))
  | .object [] => ['{', '}']
  | .object ((name, j) :: rest) =>
    '{' :: (newline (indent + 1) ++ (label name ++ (layout (indent + 1) j ++
      (layoutMembers (indent + 1) rest ++ (newline indent ++ ['}'])))))

/-- The elements after the first. -/
def layoutElements (indent : Nat) : List Json → List Char
  | [] => []
  | j :: rest => ',' :: (newline indent ++ (layout indent j ++ layoutElements indent rest))

/-- The members after the first. -/
def layoutMembers (indent : Nat) : List (List Char × Json) → List Char
  | [] => []
  | (name, j) :: rest =>
    ',' :: (newline indent ++ (label name ++ (layout indent j ++ layoutMembers indent rest)))

end

def pretty (j : Json) : String := String.ofList (j.layout 0)

end InfixTree.Json
