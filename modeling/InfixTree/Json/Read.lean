import InfixTree.Json.Mark

/-!
From marks to a value. The arrays and objects that have been opened wait as frames, the innermost
first, so nesting has no bound of its own.
-/
namespace InfixTree.Json

/-- An open array or object: what it holds already, newest first, and in an object the name of the
member that is being read. -/
inductive Frame where
  | array (before : List Json)
  | object (before : List (List Char × Json)) (name : List Char)
  deriving Repr

/-- What has just been read, and so what may come next. -/
inductive Reader where
  | value (frames : List Frame)
  | arrayOpened (frames : List Frame)
  | objectOpened (frames : List Frame)
  | member (before : List (List Char × Json)) (frames : List Frame)
  | named (before : List (List Char × Json)) (name : List Char) (frames : List Frame)
  | complete (value : Json) (frames : List Frame)
  deriving Repr

/-- The first mark of a value. -/
def Reader.begin (frames : List Frame) : Mark → Option Reader
  | .scalar j => some (.complete j frames)
  | .string body => some (.complete (.string body) frames)
  | .arrayOpen => some (.arrayOpened frames)
  | .objectOpen => some (.objectOpened frames)
  | _ => none

def Reader.step : Reader → Mark → Option Reader
  | .value frames, mark => begin frames mark
  | .arrayOpened frames, .arrayClose => some (.complete (.array []) frames)
  | .arrayOpened frames, mark => begin (.array [] :: frames) mark
  | .objectOpened frames, .objectClose => some (.complete (.object []) frames)
  | .objectOpened frames, .string name => some (.named [] name frames)
  | .member before frames, .string name => some (.named before name frames)
  | .named before name frames, .colon => some (.value (.object before name :: frames))
  | .complete j (.array before :: frames), .comma => some (.value (.array (j :: before) :: frames))
  | .complete j (.array before :: frames), .arrayClose =>
    some (.complete (.array (j :: before).reverse) frames)
  | .complete j (.object before name :: frames), .comma =>
    some (.member ((name, j) :: before) frames)
  | .complete j (.object before name :: frames), .objectClose =>
    some (.complete (.object ((name, j) :: before).reverse) frames)
  | _, _ => none

def ofMarks? (marks : List Mark) : Option Json :=
  match marks.foldlM Reader.step (.value []) with
  | some (.complete j []) => some j
  | _ => none

def read? (text : String) : Option Json := (marks? text.toList).bind ofMarks?

end InfixTree.Json
