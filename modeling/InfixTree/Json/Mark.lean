import InfixTree.Json

/-!
The marks of a JSON text: its brackets and separators, its strings, and the scalars that are not
strings. Blanks between them are dropped. What is read is never changed: the characters of a
string or number and those that follow it are the characters that were there.
-/
namespace InfixTree.Json

inductive Mark where
  | objectOpen
  | objectClose
  | arrayOpen
  | arrayClose
  | comma
  | colon
  | string (body : List Char)
  | scalar (value : Json)
  deriving Repr

def isSpace (c : Char) : Bool := c == ' ' || c == '\t' || c == '\n' || c == '\r'

def punctuation? : Char → Option Mark
  | '{' => some .objectOpen
  | '}' => some .objectClose
  | '[' => some .arrayOpen
  | ']' => some .arrayClose
  | ',' => some .comma
  | ':' => some .colon
  | _ => none

/-- The body of a string that has been opened, and what follows its closing quote. -/
def splitString : List Char → Option (List Char × List Char)
  | '"' :: rest => some ([], rest)
  | '\\' :: 'u' :: a :: b :: c :: d :: rest =>
    if (code? a b c d).isSome then
      (splitString rest).map fun s => ('\\' :: 'u' :: a :: b :: c :: d :: s.1, s.2)
    else none
  | '\\' :: e :: rest =>
    if (short? e).isSome then (splitString rest).map fun s => ('\\' :: e :: s.1, s.2) else none
  | c :: rest => if c < ' ' then none else (splitString rest).map fun s => (c :: s.1, s.2)
  | [] => none

theorem eq_of_splitString {cs body rest : List Char} (h : splitString cs = some (body, rest)) :
    cs = body ++ '"' :: rest := by
  fun_induction splitString cs generalizing body rest with
  | case1 | case3 | case5 | case6 | case8 => simp_all
  | case2 a b c d _ _ ih | case4 e _ _ _ ih | case7 c _ _ _ _ _ ih =>
    obtain ⟨s, hs, eq⟩ := Option.map_eq_some_iff.mp h
    cases eq
    simp [ih hs]

def splitDigits (cs : List Char) : Option (List Char × List Char) :=
  match cs.takeWhile Char.isDigit with
  | [] => none
  | d :: ds => some (d :: ds, cs.dropWhile Char.isDigit)

def splitSign : List Char → List Char × List Char
  | '-' :: rest => (['-'], rest)
  | cs => ([], cs)

/-- A zero is not followed by further digits of the same number. -/
def splitWhole : List Char → Option (List Char × List Char)
  | '0' :: rest => some (['0'], rest)
  | cs => splitDigits cs

def splitFraction : List Char → Option (List Char × List Char)
  | '.' :: rest => (splitDigits rest).map fun s => ('.' :: s.1, s.2)
  | cs => some ([], cs)

def splitExponentSign : List Char → List Char × List Char
  | '+' :: rest => (['+'], rest)
  | cs => splitSign cs

def splitPower (cs : List Char) : Option (List Char × List Char) :=
  (splitDigits (splitExponentSign cs).2).map fun s => ((splitExponentSign cs).1 ++ s.1, s.2)

def splitExponent : List Char → Option (List Char × List Char)
  | 'e' :: rest => (splitPower rest).map fun s => ('e' :: s.1, s.2)
  | 'E' :: rest => (splitPower rest).map fun s => ('E' :: s.1, s.2)
  | cs => some ([], cs)

def splitNumber (cs : List Char) : Option (List Char × List Char) := do
  let (sign, cs) := splitSign cs
  let (whole, cs) ← splitWhole cs
  let (fraction, cs) ← splitFraction cs
  let (exponent, cs) ← splitExponent cs
  some (sign ++ (whole ++ (fraction ++ exponent)), cs)

def splitScalar : List Char → Option (Json × List Char)
  | 'n' :: 'u' :: 'l' :: 'l' :: rest => some (.null, rest)
  | 't' :: 'r' :: 'u' :: 'e' :: rest => some (.bool true, rest)
  | 'f' :: 'a' :: 'l' :: 's' :: 'e' :: rest => some (.bool false, rest)
  | cs => (splitNumber cs).map fun s => (.number s.1, s.2)

/-- The next mark, or none for a blank, and what follows. -/
def splitMark (c : Char) (rest : List Char) : Option (Option Mark × List Char) :=
  if isSpace c then some (none, rest)
  else match punctuation? c with
    | some mark => some (some mark, rest)
    | none =>
      if c = '"' then (splitString rest).map fun s => (some (.string s.1), s.2)
      else (splitScalar (c :: rest)).map fun s => (some (.scalar s.1), s.2)

theorem eq_of_splitDigits {cs ds rest : List Char} (h : splitDigits cs = some (ds, rest)) :
    cs = ds ++ rest ∧ ds ≠ [] := by
  unfold splitDigits at h
  split at h
  · simp at h
  · rename_i d es eq
    simp only [Option.some.injEq, Prod.mk.injEq] at h
    obtain ⟨rfl, rfl⟩ := h
    exact ⟨by rw [← eq, List.takeWhile_append_dropWhile], by simp⟩

theorem splitSign_append (cs : List Char) : (splitSign cs).1 ++ (splitSign cs).2 = cs := by
  unfold splitSign
  split <;> rfl

theorem eq_of_splitWhole {cs ds rest : List Char} (h : splitWhole cs = some (ds, rest)) :
    cs = ds ++ rest ∧ ds ≠ [] := by
  unfold splitWhole at h
  split at h
  · simp only [Option.some.injEq, Prod.mk.injEq] at h
    obtain ⟨rfl, rfl⟩ := h
    simp
  · exact eq_of_splitDigits h

theorem eq_of_splitFraction {cs ds rest : List Char} (h : splitFraction cs = some (ds, rest)) :
    cs = ds ++ rest := by
  unfold splitFraction at h
  split at h
  · obtain ⟨s, hs, eq⟩ := Option.map_eq_some_iff.mp h
    cases eq
    simp [(eq_of_splitDigits hs).1]
  · simp_all

theorem splitExponentSign_append (cs : List Char) :
    (splitExponentSign cs).1 ++ (splitExponentSign cs).2 = cs := by
  unfold splitExponentSign
  split
  · rfl
  · exact splitSign_append _

theorem eq_of_splitPower {cs ds rest : List Char} (h : splitPower cs = some (ds, rest)) :
    cs = ds ++ rest := by
  obtain ⟨s, hs, eq⟩ := Option.map_eq_some_iff.mp h
  cases eq
  rw [List.append_assoc, ← (eq_of_splitDigits hs).1, splitExponentSign_append]

theorem eq_of_splitExponent {cs ds rest : List Char} (h : splitExponent cs = some (ds, rest)) :
    cs = ds ++ rest := by
  unfold splitExponent at h
  split at h
  iterate 2
    obtain ⟨s, hs, eq⟩ := Option.map_eq_some_iff.mp h
    cases eq
    rw [List.cons_append, ← eq_of_splitPower hs]
  simp_all

theorem eq_of_splitNumber {cs literal rest : List Char}
    (h : splitNumber cs = some (literal, rest)) : cs = literal ++ rest ∧ literal ≠ [] := by
  simp only [splitNumber, Option.bind_eq_bind, Option.bind_eq_some_iff, Option.some.injEq,
    Prod.mk.injEq, Prod.exists] at h
  obtain ⟨whole, cs₁, h₁, fraction, cs₂, h₂, exponent, cs₃, h₃, rfl, rfl⟩ := h
  refine ⟨?_, by simp [(eq_of_splitWhole h₁).2]⟩
  rw [List.append_assoc, List.append_assoc, List.append_assoc, ← eq_of_splitExponent h₃,
    ← eq_of_splitFraction h₂, ← (eq_of_splitWhole h₁).1, splitSign_append]

theorem length_of_splitScalar {cs rest : List Char} {j : Json}
    (h : splitScalar cs = some (j, rest)) : rest.length < cs.length := by
  unfold splitScalar at h
  split at h
  iterate 3
    simp only [Option.some.injEq, Prod.mk.injEq] at h
    simp only [← h.2, List.length_cons]
    omega
  · obtain ⟨s, hs, eq⟩ := Option.map_eq_some_iff.mp h
    cases eq
    obtain ⟨eq, ne⟩ := eq_of_splitNumber hs
    have := List.length_pos_iff.mpr ne
    rw [eq, List.length_append]
    omega

theorem length_of_splitMark {c : Char} {cs rest : List Char} {mark : Option Mark}
    (h : splitMark c cs = some (mark, rest)) : rest.length < (c :: cs).length := by
  unfold splitMark at h
  split at h
  · simp_all
  · split at h
    · simp_all
    · split at h
      · obtain ⟨s, hs, eq⟩ := Option.map_eq_some_iff.mp h
        cases eq
        simp [eq_of_splitString hs]
        omega
      · obtain ⟨s, hs, eq⟩ := Option.map_eq_some_iff.mp h
        cases eq
        exact length_of_splitScalar hs

def marks? : List Char → Option (List Mark)
  | [] => some []
  | c :: cs =>
    match _h : splitMark c cs with
    | none => none
    | some (mark, rest) => (marks? rest).map (mark.toList ++ ·)
termination_by cs => cs.length
decreasing_by exact length_of_splitMark (by assumption)

@[simp] theorem marks?_nil : marks? [] = some [] := by
  rw [marks?]

theorem marks?_cons (c : Char) (cs : List Char) :
    marks? (c :: cs) =
      (splitMark c cs).bind fun s => (marks? s.2).map (s.1.toList ++ ·) := by
  rw [marks?]
  split <;> simp_all

end InfixTree.Json
