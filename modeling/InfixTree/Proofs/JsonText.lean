import InfixTree.Json.Layout
import InfixTree.Json.Read

/-!
JSON text that has been written is read back. Each kind of literal ends where it was written to
end, whatever follows; so the marks of a value drive the reader from where a value is due to where
it is complete, under any brackets that are open.
-/
namespace InfixTree.Json

/-! ### Strings -/

/-- The ways in which a character is written in a string. -/
inductive Escaped : Char → List Char → Prop where
  | short {e c : Char} (stands : short? e = some c) : Escaped c ['\\', e]
  | code {c : Char} (control : c.toNat < 32) :
      Escaped c ['\\', 'u', '0', '0', hexDigit (c.toNat / 16), hexDigit c.toNat]
  | plain {c : Char} (printed : ¬ c < ' ') (quote : c ≠ '"') (backslash : c ≠ '\\') : Escaped c [c]

theorem escaped_escape (c : Char) : Escaped c (escape c) := by
  unfold escape
  split
  · rename_i quoted
    apply Escaped.short
    rcases quoted with rfl | rfl <;> rfl
  · rename_i unquoted
    obtain ⟨quote, backslash⟩ := not_or.mp unquoted
    iterate 5
      split
      · subst c
        exact .short rfl
    split
    · rename_i control
      exact .code (by simpa [Char.lt_def, UInt32.lt_iff_toNat_lt] using control)
    · rename_i printed
      exact .plain printed quote backslash

theorem ne_u_of_short {e c : Char} (stands : short? e = some c) : e ≠ 'u' := by
  rintro rfl
  exact absurd stands nofun

theorem code?_control : ∀ n < 32, code? '0' '0' (hexDigit (n / 16)) (hexDigit n) = some n := by
  decide +kernel

theorem splitString_escaped {c : Char} {cs : List Char} (escaped : Escaped c cs)
    (rest : List Char) :
    splitString (cs ++ rest) = (splitString rest).map fun s => (cs ++ s.1, s.2) := by
  cases escaped with
  | @short e _ stands => simp [splitString, ne_u_of_short stands, stands]
  | code control => simp [splitString, code?_control _ control]
  | plain printed quote backslash => simp [splitString, printed, backslash]

theorem parts?_escaped {c : Char} {cs : List Char} (escaped : Escaped c cs) (rest : List Char) :
    parts? (cs ++ rest) = (parts? rest).map (.char c :: ·) := by
  cases escaped with
  | @short e _ stands => cases h : parts? rest <;> simp [parts?, ne_u_of_short stands, stands, h]
  | code control =>
    have whole : Part.ofCode c.toNat = .char c := by
      rw [Part.ofCode, if_neg (by omega), Char.ofNat_toNat]
    cases h : parts? rest <;> simp [parts?, code?_control _ control, whole, h]
  | plain printed quote backslash => simp [parts?, backslash]

theorem splitString_body (text : String) (rest : List Char) :
    splitString (body text ++ '"' :: rest) = some (body text, rest) := by
  unfold body
  induction text.toList with
  | nil => rfl
  | cons c cs ih =>
    rw [List.flatMap_cons, List.append_assoc, splitString_escaped (escaped_escape c), ih]
    rfl

theorem parts?_body (text : String) : parts? (body text) = some (text.toList.map .char) := by
  unfold body
  induction text.toList with
  | nil => rfl
  | cons c cs ih =>
    rw [List.flatMap_cons, parts?_escaped (escaped_escape c), ih]
    rfl

theorem join?_chars (cs : List Char) : join? (cs.map .char) = some cs := by
  induction cs with
  | nil => rfl
  | cons c cs ih => simp [join?, ih]

/-- The body that is written for a text says that text. -/
@[simp] theorem text?_body (text : String) : text? (body text) = some text := by
  simp [text?, parts?_body, join?_chars]

/-! ### Numbers -/

/-- What follows a value that has been written: nothing, a comma, or the end of the line. -/
def Delimited (rest : List Char) : Prop := ∀ c ∈ rest.head?, c = ',' ∨ c = '\n'

theorem Delimited.head {c : Char} {rest : List Char} (delimited : Delimited (c :: rest)) :
    c.isDigit = false ∧ c ≠ '.' ∧ c ≠ 'e' ∧ c ≠ 'E' := by
  rcases delimited c rfl with rfl | rfl <;> decide

theorem splitDigits_append {ds rest : List Char} (digits : ∀ c ∈ ds, c.isDigit)
    (nonempty : ds ≠ []) (delimited : Delimited rest) :
    splitDigits (ds ++ rest) = some (ds, rest) := by
  have stops : rest.takeWhile Char.isDigit = [] ∧ rest.dropWhile Char.isDigit = rest := by
    cases rest with
    | nil => exact ⟨rfl, rfl⟩
    | cons c cs => simp [delimited.head.1]
  unfold splitDigits
  rw [List.takeWhile_append_of_pos digits, List.dropWhile_append_of_pos digits, stops.1, stops.2,
    List.append_nil]
  cases ds with
  | nil => exact absurd rfl nonempty
  | cons d ds => rfl

theorem splitFraction_delimited {rest : List Char} (delimited : Delimited rest) :
    splitFraction rest = some ([], rest) := by
  cases rest with
  | nil => rfl
  | cons c cs =>
    obtain ⟨-, point, -, -⟩ := delimited.head
    simp [splitFraction, point]

theorem splitExponent_delimited {rest : List Char} (delimited : Delimited rest) :
    splitExponent rest = some ([], rest) := by
  cases rest with
  | nil => rfl
  | cons c cs =>
    obtain ⟨-, -, small, large⟩ := delimited.head
    simp [splitExponent, small, large]

/-- A natural is written without leading zeros. -/
theorem head_decimal {n : Nat} (positive : n ≠ 0) : (Text.decimal n).head? ≠ some '0' := by
  induction n using Nat.strongRecOn with
  | ind n ih =>
    unfold Text.decimal at ih ⊢
    by_cases small : n < 10
    · have digit : ∀ d < 10, d ≠ 0 → d.digitChar ≠ '0' := by decide
      rw [Nat.toDigits_of_lt_base small]
      simpa using digit n small positive
    · have shorter : n / 10 < n := by omega
      have still : n / 10 ≠ 0 := by omega
      have kept := ih _ shorter still
      rw [Nat.toDigits_of_base_le (by decide) (by omega)]
      cases h : Nat.toDigits 10 (n / 10) with
      | nil => exact absurd h Nat.toDigits_ne_nil
      | cons d ds => simpa [h] using kept

theorem splitWhole_decimal (n : Nat) {rest : List Char} (delimited : Delimited rest) :
    splitWhole (Text.decimal n ++ rest) = some (Text.decimal n, rest) := by
  by_cases zero : n = 0
  · subst zero
    rfl
  · have all : splitDigits (Text.decimal n ++ rest) = some (Text.decimal n, rest) :=
      splitDigits_append (fun _ => Text.isDigit_of_mem_decimal) Nat.toDigits_ne_nil delimited
    have first := head_decimal zero
    cases h : Text.decimal n with
    | nil => exact absurd h Nat.toDigits_ne_nil
    | cons d ds =>
      rw [h] at all first
      have leading : d ≠ '0' := by simpa using first
      rw [← all]
      simp [splitWhole, leading]

/-- A natural is written with one digit at least. -/
theorem decimal_cons (n : Nat) : ∃ d ds, Text.decimal n = d :: ds ∧ d.isDigit := by
  cases h : Text.decimal n with
  | nil => exact absurd h Nat.toDigits_ne_nil
  | cons d ds => exact ⟨d, ds, rfl, Text.isDigit_of_mem_decimal (n := n) (by simp [h])⟩

theorem splitNumber_decimal (n : Nat) {rest : List Char} (delimited : Delimited rest) :
    splitNumber (Text.decimal n ++ rest) = some (Text.decimal n, rest) := by
  have unsigned : splitSign (Text.decimal n ++ rest) = ([], Text.decimal n ++ rest) := by
    obtain ⟨d, ds, eq, digit⟩ := decimal_cons n
    have positive : d ≠ '-' := by
      rintro rfl
      exact absurd digit (by decide)
    simp [eq, splitSign, positive]
  simp [splitNumber, unsigned, splitWhole_decimal n delimited, splitFraction_delimited delimited,
    splitExponent_delimited delimited]

theorem splitMark_decimal {n : Nat} {d : Char} {ds rest : List Char}
    (eq : Text.decimal n = d :: ds) (delimited : Delimited rest) :
    splitMark d (ds ++ rest) = some (some (.scalar (ofNat n)), rest) := by
  have digit : d.isDigit := Text.isDigit_of_mem_decimal (n := n) (by simp [eq])
  have other : ∀ c : Char, c.isDigit = false → d ≠ c := by
    rintro c none rfl
    exact absurd digit (by simp [none])
  have all : splitNumber (d :: (ds ++ rest)) = some (d :: ds, rest) := by
    rw [← List.cons_append, ← eq]
    exact splitNumber_decimal n delimited
  have scalar : splitScalar (d :: (ds ++ rest)) = some (ofNat n, rest) := by
    simp [splitScalar, other 'n' rfl, other 't' rfl, other 'f' rfl, all, ofNat, eq]
  -- a digit begins no other kind of mark
  have plain : isSpace d = false ∧ punctuation? d = none := by
    constructor
    · simp [isSpace, other ' ' rfl, other '\t' rfl, other '\n' rfl, other '\r' rfl]
    · simp [punctuation?, other '{' rfl, other '}' rfl, other '[' rfl, other ']' rfl, other ',' rfl,
        other ':' rfl]
  simp [splitMark, plain, other '"' rfl, scalar]

/-! ### Reading on -/

/-- Reads on from `r` over the marks of a text. -/
def resume (r : Reader) (cs : List Char) : Option Reader :=
  (marks? cs).bind (·.foldlM Reader.step r)

@[simp] theorem resume_nil (r : Reader) : resume r [] = some r := by
  simp [resume]

theorem resume_cons (r : Reader) (c : Char) (cs : List Char) :
    resume r (c :: cs) = (splitMark c cs).bind fun s =>
      (s.1.toList.foldlM Reader.step r).bind (resume · s.2) := by
  rw [resume, marks?_cons]
  cases splitMark c cs with
  | none => rfl
  | some s =>
    unfold resume
    cases h : marks? s.2 with
    | none => simp [h]
    | some marks => simp [h, List.foldlM_append]

theorem resume_of_mark {r : Reader} {c : Char} {cs rest : List Char} {mark : Mark}
    (found : splitMark c cs = some (some mark, rest)) :
    resume r (c :: cs) = (r.step mark).bind (resume · rest) := by
  simp [resume_cons, found]

theorem resume_punctuation {r r' : Reader} {c : Char} {mark : Mark}
    (stands : punctuation? c = some mark) (goes : r.step mark = some r') (cs : List Char) :
    resume r (c :: cs) = resume r' cs := by
  have found : splitMark c cs = some (some mark, cs) := by
    unfold punctuation? at stands
    split at stands <;> cases stands <;> rfl
  rw [resume_of_mark found, goes, Option.bind_some]

theorem resume_space {r : Reader} {c : Char} (space : isSpace c) (cs : List Char) :
    resume r (c :: cs) = resume r cs := by
  simp [resume_cons, splitMark, space]

theorem resume_newline (r : Reader) (indent : Nat) (rest : List Char) :
    resume r (newline indent ++ rest) = resume r rest := by
  rw [newline, List.cons_append, resume_space (by decide)]
  induction 2 * indent with
  | zero => rfl
  | succ n ih => rw [List.replicate_succ, List.cons_append, resume_space (by decide), ih]

theorem resume_quote (r : Reader) (text : String) (rest : List Char) :
    resume r (quote (body text) ++ rest) = (r.step (.string (body text))).bind (resume · rest) := by
  apply resume_of_mark
  simp [splitMark, isSpace, punctuation?, splitString_body]

/-- A value is due, and goes under these frames. -/
def Awaits (r : Reader) (frames : List Frame) : Prop :=
  ∀ mark, mark ≠ .arrayClose → r.step mark = Reader.begin frames mark

theorem awaits_value (frames : List Frame) : Awaits (.value frames) frames := fun _ _ => rfl

theorem awaits_arrayOpened (frames : List Frame) :
    Awaits (.arrayOpened frames) (.array [] :: frames) := by
  intro mark other
  cases mark with
  | arrayClose => exact absurd rfl other
  | _ => rfl

theorem resume_scalar {r : Reader} {frames : List Frame} (awaits : Awaits r frames) {c : Char}
    {cs rest : List Char} {j : Json} (found : splitMark c cs = some (some (.scalar j), rest)) :
    resume r (c :: cs) = resume (.complete j frames) rest := by
  have begins : r.step (.scalar j) = some (.complete j frames) := awaits _ nofun
  rw [resume_of_mark found, begins, Option.bind_some]

theorem resume_label {r : Reader} {name : String} {before : List (List Char × Json)}
    {frames : List Frame}
    (named : r.step (.string (body name)) = some (.named before (body name) frames))
    (rest : List Char) :
    resume r (label (body name) ++ rest) =
      resume (.value (.object before (body name) :: frames)) rest := by
  rw [label, List.append_assoc, resume_quote, named, Option.bind_some]
  calc resume (.named before (body name) frames) (':' :: ' ' :: rest)
    _ = resume (.value (.object before (body name) :: frames)) (' ' :: rest) :=
      resume_punctuation rfl rfl _
    _ = resume (.value (.object before (body name) :: frames)) rest := resume_space (by decide) rest

/-- A value whose strings are written for texts, and whose numbers are written for naturals. -/
inductive Written : Json → Prop where
  | null : Written .null
  | bool (value : Bool) : Written (.bool value)
  | natural (n : Nat) : Written (ofNat n)
  | text (s : String) : Written (ofText s)
  | array {elements : List Json} (each : ∀ j ∈ elements, Written j) : Written (.array elements)
  | object {members : List (List Char × Json)} (names : ∀ m ∈ members, ∃ s, m.1 = body s)
      (each : ∀ m ∈ members, Written m.2) : Written (.object members)

/-- The text of the value takes the reader from where the value is due to where it is complete. -/
def Completes (j : Json) : Prop :=
  ∀ {r : Reader} {frames : List Frame}, Awaits r frames → ∀ (indent : Nat) {rest : List Char},
    Delimited rest → resume r (layout indent j ++ rest) = resume (.complete j frames) rest

theorem delimited_newline (indent : Nat) (rest : List Char) :
    Delimited (newline indent ++ rest) := by
  simp [Delimited, newline]

theorem delimited_elements (indent outer : Nat) (elements : List Json) (rest : List Char) :
    Delimited (layoutElements indent elements ++ (newline outer ++ rest)) := by
  cases elements with
  | nil => exact delimited_newline outer rest
  | cons j others => simp [Delimited, layoutElements]

theorem delimited_members (indent outer : Nat) (members : List (List Char × Json))
    (rest : List Char) : Delimited (layoutMembers indent members ++ (newline outer ++ rest)) := by
  cases members with
  | nil => exact delimited_newline outer rest
  | cons m others => simp [Delimited, layoutMembers]

theorem resume_elements {elements : List Json} (each : ∀ e ∈ elements, Completes e) (j : Json)
    (before : List Json) (frames : List Frame) (indent outer : Nat) (rest : List Char) :
    resume (.complete j (.array before :: frames))
        (layoutElements indent elements ++ (newline outer ++ ']' :: rest)) =
      resume (.complete (.array (before.reverse ++ j :: elements)) frames) rest := by
  induction elements generalizing j before with
  | nil =>
    have close : resume (.complete j (.array before :: frames)) (']' :: rest) =
        resume (.complete (.array (j :: before).reverse) frames) rest :=
      resume_punctuation rfl rfl rest
    rw [layoutElements, List.nil_append, resume_newline, close, List.reverse_cons]
  | cons e others ih =>
    have comma : ∀ cs, resume (.complete j (.array before :: frames)) (',' :: cs) =
        resume (.value (.array (j :: before) :: frames)) cs := resume_punctuation rfl rfl
    have element := each e List.mem_cons_self (awaits_value (.array (j :: before) :: frames)) indent
      (delimited_elements indent outer others (']' :: rest))
    rw [layoutElements, List.cons_append, comma, List.append_assoc, List.append_assoc,
      resume_newline, element, ih fun d hd => each d (List.mem_cons_of_mem _ hd)]
    simp

theorem resume_members {members : List (List Char × Json)}
    (names : ∀ m ∈ members, ∃ s, m.1 = body s) (each : ∀ m ∈ members, Completes m.2)
    (name : List Char) (j : Json) (before : List (List Char × Json)) (frames : List Frame)
    (indent outer : Nat) (rest : List Char) :
    resume (.complete j (.object before name :: frames))
        (layoutMembers indent members ++ (newline outer ++ '}' :: rest)) =
      resume (.complete (.object (before.reverse ++ (name, j) :: members)) frames) rest := by
  induction members generalizing name j before with
  | nil =>
    have close : resume (.complete j (.object before name :: frames)) ('}' :: rest) =
        resume (.complete (.object ((name, j) :: before).reverse) frames) rest :=
      resume_punctuation rfl rfl rest
    rw [layoutMembers, List.nil_append, resume_newline, close, List.reverse_cons]
  | cons m others ih =>
    obtain ⟨next, e⟩ := m
    obtain ⟨s, rfl⟩ : ∃ s, next = body s := names _ List.mem_cons_self
    have comma : ∀ cs, resume (.complete j (.object before name :: frames)) (',' :: cs) =
        resume (.member ((name, j) :: before) frames) cs := resume_punctuation rfl rfl
    have member := each (body s, e) List.mem_cons_self
      (awaits_value (.object ((name, j) :: before) (body s) :: frames)) indent
      (delimited_members indent outer others ('}' :: rest))
    rw [layoutMembers, List.cons_append, comma, List.append_assoc, List.append_assoc,
      List.append_assoc, resume_newline, resume_label rfl, member,
      ih (fun d hd => names d (List.mem_cons_of_mem _ hd))
        fun d hd => each d (List.mem_cons_of_mem _ hd)]
    simp

theorem Written.completes {j : Json} (written : Written j) : Completes j := by
  intro r frames awaits indent rest delimited
  -- one case for each kind of value; elements and members are taken over by their own lists
  induction written generalizing r frames indent rest with
  | null => exact resume_scalar awaits rfl
  | bool value => cases value <;> exact resume_scalar awaits rfl
  | natural n =>
    obtain ⟨d, ds, eq, -⟩ := decimal_cons n
    have literal : layout indent (ofNat n) = d :: ds := eq
    rw [literal, List.cons_append]
    exact resume_scalar awaits (splitMark_decimal eq delimited)
  | text s =>
    have begins : r.step (.string (body s)) = some (.complete (ofText s) frames) := awaits _ nofun
    rw [ofText, layout, resume_quote, begins]
    rfl
  | @array elements _ ih =>
    have opening : ∀ cs, resume r ('[' :: cs) = resume (.arrayOpened frames) cs :=
      resume_punctuation rfl (awaits _ nofun)
    cases elements with
    | nil =>
      have close : resume (.arrayOpened frames) (']' :: rest) =
        resume (.complete (.array []) frames) rest := resume_punctuation rfl rfl rest
      exact (opening _).trans close
    | cons j others =>
      have element := ih j List.mem_cons_self (awaits_arrayOpened frames) (indent + 1)
        (delimited_elements (indent + 1) indent others (']' :: rest))
      have remaining : ∀ e ∈ others, Completes e := by
        intro e he
        exact fun awaits => ih e (List.mem_cons_of_mem _ he) awaits
      simp only [layout, List.cons_append, List.append_assoc, List.nil_append]
      rw [opening, resume_newline, element, resume_elements remaining]
      rfl
  | @object members names _ ih =>
    have opening : ∀ cs, resume r ('{' :: cs) = resume (.objectOpened frames) cs :=
      resume_punctuation rfl (awaits _ nofun)
    cases members with
    | nil =>
      have close : resume (.objectOpened frames) ('}' :: rest) =
        resume (.complete (.object []) frames) rest := resume_punctuation rfl rfl rest
      exact (opening _).trans close
    | cons m others =>
      obtain ⟨name, j⟩ := m
      obtain ⟨s, rfl⟩ : ∃ s, name = body s := names _ List.mem_cons_self
      have member := ih (body s, j) List.mem_cons_self
        (awaits_value (.object [] (body s) :: frames)) (indent + 1)
        (delimited_members (indent + 1) indent others ('}' :: rest))
      have remaining : ∀ e ∈ others, Completes e.2 := by
        intro e he
        exact fun awaits => ih e (List.mem_cons_of_mem _ he) awaits
      simp only [layout, List.cons_append, List.append_assoc, List.nil_append]
      rw [opening, resume_newline, resume_label rfl, member,
        resume_members (fun e he => names e (List.mem_cons_of_mem _ he)) remaining]
      rfl

theorem read?_eq_resume (text : String) :
    read? text = (resume (.value []) text.toList).bind fun r =>
      match r with
      | .complete j [] => some j
      | _ => none := by
  unfold read? resume
  cases marks? text.toList with
  | none => rfl
  | some marks =>
    change ofMarks? marks = (marks.foldlM Reader.step (.value [])).bind _
    unfold ofMarks?
    cases marks.foldlM Reader.step (.value []) with
    | none => rfl
    | some r =>
      cases r with
      | complete j frames => cases frames <;> rfl
      | _ => rfl

/-- A value that has been written out reads back. -/
theorem Written.read?_pretty {j : Json} (written : Written j) : read? j.pretty = some j := by
  have whole : resume (.value []) (layout 0 j ++ []) = resume (.complete j []) [] :=
    written.completes (awaits_value []) 0 (by simp [Delimited])
  rw [List.append_nil] at whole
  rw [read?_eq_resume, pretty, String.toList_ofList, whole, resume_nil]
  rfl

end InfixTree.Json
