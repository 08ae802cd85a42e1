import InfixTree.Json.Magnitude

/-!
Values that are read before it is known what they mean, and so are kept until it is. All of such a
value must say something: its strings and names are texts, its numbers fit, and its arrays and
objects nest no deeper than allowed. A value that is passed over need not hold to any of that.
-/
namespace InfixTree.Json

mutual

def keepable (depth : Nat) : Json → Bool
  | .null | .bool _ => true
  | .number literal => (scaled? literal).any Scaled.fits
  | .string body => (text? body).isSome
  | .array elements =>
    match depth with
    | 0 => false
    | depth + 1 => keepableElements depth elements
  | .object members =>
    match depth with
    | 0 => false
    | depth + 1 => keepableMembers depth members

def keepableElements (depth : Nat) : List Json → Bool
  | [] => true
  | j :: rest => keepable depth j && keepableElements depth rest

def keepableMembers (depth : Nat) : List (List Char × Json) → Bool
  | [] => true
  | (name, j) :: rest =>
    (text? name).isSome && keepable depth j && keepableMembers depth rest

end

theorem keepableElements_eq_all (depth : Nat) (elements : List Json) :
    keepableElements depth elements = elements.all (keepable depth) := by
  induction elements with
  | nil => rfl
  | cons j rest ih => simp [keepableElements, ih]

theorem keepableMembers_eq_all (depth : Nat) (members : List (List Char × Json)) :
    keepableMembers depth members =
      members.all fun m => (text? m.1).isSome && keepable depth m.2 := by
  induction members with
  | nil => rfl
  | cons m rest ih => simp [keepableMembers, ih]

end InfixTree.Json
