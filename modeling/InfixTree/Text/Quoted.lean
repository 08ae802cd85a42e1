/-!
Text between double quotes, as records show it. A quote, a backslash and the two half-width sound
marks, which have no width of their own, are escaped; the rest stands as it is.
-/
namespace InfixTree.Text

def escaped (c : Char) : List Char :=
  if c = '"' ∨ c = '\\' then ['\\', c]
  else if c = '\uff9e' then "\\u\x7bff9e\x7d".toList
  else if c = '\uff9f' then "\\u\x7bff9f\x7d".toList
  else [c]

def quoted (text : String) : String :=
  String.ofList ('"' :: (text.toList.flatMap escaped ++ ['"']))

end InfixTree.Text
