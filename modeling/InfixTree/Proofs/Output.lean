import InfixTree.Command
import InfixTree.Proofs.Columns
import InfixTree.Proofs.Decomposition
import InfixTree.Proofs.JsonTrees
import InfixTree.Proofs.RoundTrip
import InfixTree.Proofs.Words

/-!
What the command prints. No piece of a line holds a line feed, whatever the words hold, so a tree is
always shown in fourteen lines; and what is printed as JSON for the same words says the same tree.
-/
namespace InfixTree

namespace Text

/-- A text without blanks other than spaces, and so without line feeds. -/
def OneLine (text : List Char) : Prop := ∀ c ∈ text, isBlank c → c = ' '

@[simp] theorem oneLine_nil : OneLine [] := by simp [OneLine]

@[simp] theorem oneLine_cons {c : Char} {text : List Char} :
    OneLine (c :: text) ↔ (isBlank c → c = ' ') ∧ OneLine text :=
  List.forall_mem_cons

@[simp] theorem oneLine_append {text more : List Char} :
    OneLine (text ++ more) ↔ OneLine text ∧ OneLine more :=
  List.forall_mem_append

@[simp] theorem oneLine_flatMap {α : Type} {pieces : List α} {form : α → List Char} :
    OneLine (pieces.flatMap form) ↔ ∀ piece ∈ pieces, OneLine (form piece) :=
  List.forall_mem_flatMap

theorem oneLine_of_solid {text : List Char} (solid : ∀ c ∈ text, isBlank c = false) :
    OneLine text := by
  intro c member blank
  rw [solid c member] at blank
  contradiction

theorem solid_brackets :
    isBlank '(' = false ∧ isBlank ')' = false ∧ isBlank '{' = false ∧ isBlank '}' = false := by
  decide

theorem oneLine_decimal (n : Nat) : OneLine (decimal n) :=
  oneLine_of_solid fun _ member =>
    isBlank_eq_false_of_ofFirst (ofFirst_of_isDigit (isDigit_of_mem_decimal member)) (by decide)

theorem oneLine_of_isName {name : String} (letters : isName name) : OneLine name.toList :=
  oneLine_of_solid (isBlank_eq_false_of_isName letters)

theorem oneLine_of_isRun {spelling : String} (run : isRun spelling) : OneLine spelling.toList := by
  exact oneLine_of_solid fun c member =>
    isBlank_eq_false_of_ofFirst (ofFirst_of_isSymbol (isSymbol_of_isRun run c member)) (by decide)

theorem OneLine.no_newline {text : List Char} (line : OneLine text) : '\n' ∉ text := by
  intro member
  have space : '\n' = ' ' := line '\n' member (by decide)
  exact absurd space (by decide)

end Text

open Text

namespace Json

mutual

/-- How deep arrays and objects nest in the value. -/
def depth : Json → Nat
  | .null | .bool _ | .number _ | .string _ => 0
  | .array elements => 1 + depthElements elements
  | .object members => 1 + depthMembers members

def depthElements : List Json → Nat
  | [] => 0
  | j :: rest => max j.depth (depthElements rest)

def depthMembers : List (List Char × Json) → Nat
  | [] => 0
  | (_, j) :: rest => max j.depth (depthMembers rest)

end

end Json

namespace Expr

theorem depthElements_toJsons {args : List Expr} (each : ∀ a ∈ args, a.toJson.depth = a.nesting) :
    Json.depthElements (toJsons args) = nestings args := by
  induction args with
  | nil => rfl
  | cons a rest ih =>
    rw [toJsons, Json.depthElements, nestings, each a List.mem_cons_self,
      ih fun b hb => each b (List.mem_cons_of_mem _ hb)]

theorem depth_node (tag : Tag) (content : Json) :
    (node tag content).depth = 1 + content.depth := by
  simp [node, Json.depth, Json.depthMembers, Json.ofText]

/-- What is written for a tree nests as deep as the tree itself. -/
theorem depth_toJson (e : Expr) : e.toJson.depth = e.nesting := by
  induction e with
  | number value | identifier name =>
    rw [toJson, depth_node, nesting]
    rfl
  | application callee args callee_ih args_ih =>
    rw [toJson, depth_node, nesting]
    simp only [Json.depth, Json.depthMembers, callee_ih, depthElements_toJsons args_ih]
    omega
  | parenthesized inner ih => rw [toJson, depth_node, nesting, ih]
  | binary left operator right left_ih right_ih =>
    rw [toJson, depth_node, nesting]
    simp only [Json.depth, Json.depthMembers, Json.ofText, left_ih, right_ih]
    omega

/-! ### One line for each form -/

theorem oneLine_plainChars {e : Expr} (writable : e.Writable) : OneLine e.plainChars := by
  induction e with
  | number value => exact oneLine_decimal _
  | identifier name => exact oneLine_of_isName (writable_identifier.mp writable)
  | application callee args callee_ih args_ih =>
    obtain ⟨callee_writable, args_writable⟩ := writable_application.mp writable
    have arguments : ∀ a ∈ args, OneLine a.plainChars := fun a ha =>
      args_ih a ha (args_writable a ha)
    simpa [plainChars, plainArgs_eq_flatMap, callee_ih callee_writable] using arguments
  | parenthesized inner ih =>
    simp [plainChars, solid_brackets, ih (writable_parenthesized.mp writable)]
  | binary left operator right left_ih right_ih =>
    obtain ⟨left_writable, run, right_writable⟩ := writable_binary.mp writable
    simp [plainChars, left_ih left_writable, right_ih right_writable, oneLine_of_isRun run]

theorem oneLine_precedenceChars {e : Expr} (writable : e.Writable) : OneLine e.precedenceChars := by
  induction e with
  | number value => exact oneLine_decimal _
  | identifier name => exact oneLine_of_isName (writable_identifier.mp writable)
  | application callee args callee_ih args_ih =>
    obtain ⟨callee_writable, args_writable⟩ := writable_application.mp writable
    have arguments : ∀ a ∈ args, OneLine a.precedenceChars := fun a ha =>
      args_ih a ha (args_writable a ha)
    simpa [precedenceChars, precedenceArgs_eq_flatMap, solid_brackets,
      callee_ih callee_writable] using arguments
  | parenthesized inner ih =>
    simp [precedenceChars, solid_brackets, ih (writable_parenthesized.mp writable)]
  | binary left operator right left_ih right_ih =>
    obtain ⟨left_writable, run, right_writable⟩ := writable_binary.mp writable
    simp [precedenceChars, solid_brackets, left_ih left_writable, right_ih right_writable,
      oneLine_of_isRun run]

theorem oneLine_depthLine {e : Expr} (writable : e.Writable) (sweep : Nat) :
    OneLine (e.depthLine sweep).toList := by
  intro c member blank
  obtain ⟨i, found⟩ := List.getElem?_of_mem member
  rcases depthLine_within_plainForm found with space | plain
  · exact space
  · have inside : c ∈ e.plainChars := by
      simpa [plainForm] using List.mem_of_getElem? plain
    exact oneLine_plainChars writable c inside blank

theorem oneLine_lines {e : Expr} (writable : e.Writable) :
    ∀ line ∈ e.lines, OneLine line.toList := by
  intro line member
  rw [lines, List.mem_cons, List.mem_cons, depthView, List.mem_map] at member
  rcases member with rfl | rfl | ⟨sweep, -, rfl⟩
  · simpa [precedenceForm] using oneLine_precedenceChars writable
  · simpa [plainForm] using oneLine_plainChars writable
  · exact oneLine_depthLine writable sweep

end Expr

theorem writable_of_analyze {mode : Mode} {line : String} {e : Expr}
    (analyzed : analyze mode line = .ok e) : e.Writable := by
  obtain ⟨tokens, scanned, parsed⟩ := analyze_eq_ok_iff.mp analyzed
  exact writable_of_accepted scanned parsed

namespace Command

variable (verbosity : Nat) (mode : Mode) (words : List String)

/-- How the outcome of the analysis is reported; the log is the same for both ways of printing. -/
theorem answer_analyze :
    ∃ log, ∀ json, answer (.analyze ⟨verbosity, mode, json⟩ words) =
      match analyze mode (joinWords words) with
      | .ok e => .printed (written json e) log
      | .error failure => .failed failure log := by
  refine ⟨(level verbosity).elim [] (Analysis.log · (Analysis.run mode (joinWords words)).records),
    fun json => ?_⟩
  cases outcome : (Analysis.run mode (joinWords words)).outcome with
  | ok e => simp only [answer, analyze, outcome]
  | error failure => simp only [answer, analyze, outcome]

theorem output_printed_text (e : Expr) (log : List String) :
    (Outcome.printed (written false e) log).output = String.join (e.lines.map (· ++ "\n")) := by
  simp [Outcome.output, written]

theorem output_printed_json (e : Expr) (log : List String) :
    (Outcome.printed (written true e) log).output = e.toJsonText ++ "\n" := by
  simp [Outcome.output, written]

theorem Outcome.output_of_code_ne_zero {outcome : Outcome} (failed : outcome.code ≠ 0) : outcome.output = "" := by
  cases outcome with
  | printed text log => exact absurd rfl failed
  | failed failure log => rfl
  | misused misuse => rfl

theorem failed_iff_failed {failure : Failure} {log : List String} :
    answer (.analyze ⟨verbosity, mode, false⟩ words) = .failed failure log ↔
      answer (.analyze ⟨verbosity, mode, true⟩ words) = .failed failure log := by
  obtain ⟨shared, answers⟩ := answer_analyze verbosity mode words
  rw [answers, answers]
  cases analyze mode (joinWords words) with
  | ok e => simp
  | error other => rfl

/-- If one way of printing succeeds, both do, and print the same tree. -/
theorem printed_of_code_eq_zero {json : Bool}
    (success : (answer (.analyze ⟨verbosity, mode, json⟩ words)).code = 0) :
    ∃ e, e.Writable ∧ ∀ json, ∃ log,
      answer (.analyze ⟨verbosity, mode, json⟩ words) = .printed (written json e) log := by
  obtain ⟨log, answers⟩ := answer_analyze verbosity mode words
  rw [answers] at success
  cases analyzed : analyze mode (joinWords words) with
  | error failure =>
    rw [analyzed] at success
    exact absurd success (by simp [Outcome.code])
  | ok e => exact ⟨e, writable_of_analyze analyzed, fun json => ⟨log, by rw [answers, analyzed]⟩⟩

/-- Whatever the arguments, nothing is printed when the command fails. For any words it fails in the
same way whether it is to print text or JSON; else the text is fourteen lines, the last twelve as
wide as the second, and the JSON is one value, which is read back, if it is not too deep, as a tree
with the first two lines as its forms. -/
theorem output_is_complete_or_empty :
    (∀ arguments : List String, (run arguments).code ≠ 0 → (run arguments).output = "") ∧
    ∀ (verbosity : Nat) (mode : Mode) (words : List String),
      let text := answer (.analyze ⟨verbosity, mode, false⟩ words)
      let json := answer (.analyze ⟨verbosity, mode, true⟩ words)
      (∀ failure log, text = .failed failure log ↔ json = .failed failure log) ∧
      (text.code ≠ 0 → text.output = "") ∧ (json.code ≠ 0 → json.output = "") ∧
      (text.code = 0 → ∃ precedence plain sweeps document j,
        text.output = String.join ((precedence :: plain :: sweeps).map (· ++ "\n")) ∧
        sweeps.length = 12 ∧ (∀ line ∈ precedence :: plain :: sweeps, '\n' ∉ line.toList) ∧
        (∀ line ∈ sweeps, line.length = plain.length) ∧
        json.code = 0 ∧ json.output = document ++ "\n" ∧ Json.read? document = some j ∧
        (j.depth ≤ 127 → ∃ e, Expr.ofJsonText? document = some e ∧
          e.precedenceForm = precedence ∧ e.plainForm = plain)) := by
  refine ⟨fun arguments => Outcome.output_of_code_ne_zero, fun verbosity mode words => ⟨fun failure log =>
    failed_iff_failed verbosity mode words, Outcome.output_of_code_ne_zero, Outcome.output_of_code_ne_zero, fun success => ?_⟩⟩
  obtain ⟨e, writable, printed⟩ := printed_of_code_eq_zero verbosity mode words success
  obtain ⟨text_log, text⟩ := printed false
  obtain ⟨json_log, json⟩ := printed true
  have framed (line : String) (member : line ∈ e.lines) : '\n' ∉ line.toList :=
    (Expr.oneLine_lines writable line member).no_newline
  have width (line : String) (member : line ∈ e.depthView) : line.length = e.plainForm.length := by
    obtain ⟨sweep, -, rfl⟩ := List.mem_map.mp member
    exact Expr.length_depthLine e sweep
  have read_back (shallow : e.toJson.depth ≤ 127) : Expr.ofJsonText? e.toJsonText = some e := by
    rw [Expr.depth_toJson] at shallow
    rw [Expr.ofJsonText?_toJsonText, if_pos shallow]
  rw [text, json]
  exact ⟨e.precedenceForm, e.plainForm, e.depthView, e.toJsonText, e.toJson,
    output_printed_text e text_log, e.length_depthView, framed, width, rfl,
    output_printed_json e json_log, (Expr.written_toJson e).read?_pretty,
    fun shallow => ⟨e, read_back shallow, rfl, rfl⟩⟩

/-- A failing command, and words of which one ends in a line feed. -/
theorem output_of_words_over_two_lines :
    (run ["--json", "a +"]).code ≠ 0 ∧ (run ["--json", "a +"]).output = "" ∧
    (answer (.analyze ⟨0, .strict, false⟩ ["é\n", "+2"])).code = 0 ∧
    ∃ precedence plain sweeps document j,
      (answer (.analyze ⟨0, .strict, false⟩ ["é\n", "+2"])).output =
        String.join ((precedence :: plain :: sweeps).map (· ++ "\n")) ∧
      sweeps.length = 12 ∧ (∀ line ∈ precedence :: plain :: sweeps, '\n' ∉ line.toList) ∧
      (∀ line ∈ sweeps, line.length = plain.length) ∧
      (answer (.analyze ⟨0, .strict, true⟩ ["é\n", "+2"])).output = document ++ "\n" ∧
      Json.read? document = some j ∧ j.depth = 3 ∧
      ∃ e, Expr.ofJsonText? document = some e ∧
        e.precedenceForm = precedence ∧ e.plainForm = plain := by
  have failed : (run ["--json", "a +"]).code ≠ 0 := by decide +kernel
  obtain ⟨e, analyzed, nesting⟩ :
      ∃ e, analyze .strict (joinWords ["é\n", "+2"]) = .ok e ∧ e.nesting = 3 :=
    ⟨.binary (.identifier "é") "+" (.number 2), by decide +kernel, by decide⟩
  obtain ⟨log, answers⟩ := answer_analyze 0 .strict ["é\n", "+2"]
  rw [analyzed] at answers
  have success : (answer (.analyze ⟨0, .strict, false⟩ ["é\n", "+2"])).code = 0 := by
    rw [answers]
    rfl
  obtain ⟨precedence, plain, sweeps, document, j, text, twelve, framed, width, -, json, read,
    read_back⟩ := (output_is_complete_or_empty.2 0 .strict ["é\n", "+2"]).2.2.2 success
  have same : document = e.toJsonText := by
    rw [answers, output_printed_json, String.append_left_inj] at json
    exact json.symm
  have depth : j.depth = 3 := by
    rw [same, Expr.toJsonText, (Expr.written_toJson e).read?_pretty, Option.some_inj] at read
    rw [← read, Expr.depth_toJson, nesting]
  exact ⟨failed, output_is_complete_or_empty.1 _ failed, success, precedence, plain, sweeps,
    document, j, text, twelve, framed, width, json, read, depth, read_back (by omega)⟩

end Command

end InfixTree
