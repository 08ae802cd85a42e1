import InfixTree.Analysis

/-!
The command line: options come first, and from the first argument that is not one on, all arguments
are words of the line. Whatever the words, the standard output is either empty or complete.
-/
namespace InfixTree.Command

structure Options where
  verbosity : Nat
  mode : Mode
  json : Bool
  deriving DecidableEq, Repr

def Options.initial : Options := ⟨0, .lenient, false⟩

inductive Misuse where
  | repeated (option : String)
  | unexpectedValue (option : String)
  | noWords
  deriving DecidableEq, Repr

def Misuse.message : Misuse → String
  | repeated option => s!"the option {option} may be given only once"
  | unexpectedValue option => s!"the option {option} takes no value"
  | noWords => "an expression is needed"

/-- What an argument in front of the words asks for. -/
inductive Flag where
  | verbose
  | strict
  | json
  | version
  | help
  deriving DecidableEq, Repr

inductive Request where
  | analyze (options : Options) (words : List String)
  | version
  | help
  | misuse (misuse : Misuse)
  deriving DecidableEq, Repr

def longFlag? : String → Option Flag
  | "verbose" => some .verbose
  | "strict-nonassoc" => some .strict
  | "json" => some .json
  | "version" => some .version
  | "help" => some .help
  | _ => none

def shortFlag? : Char → Option Flag
  | 'v' => some .verbose
  | 'V' => some .version
  | 'h' => some .help
  | _ => none

inductive Argument where
  | flags (flags : List Flag)
  | valued (name : String)
  | separator
  | word
  deriving DecidableEq, Repr

/-- Letters behind one hyphen are flags only if all of them are, and a name behind two may be
followed by an equals sign and a value, which no flag takes. -/
def classify (argument : String) : Argument :=
  match argument.toList with
  | ['-', '-'] => .separator
  | '-' :: '-' :: rest =>
    let name := String.ofList (rest.takeWhile (· != '='))
    match longFlag? name, rest.contains '=' with
    | some flag, false => .flags [flag]
    | some _, true => .valued name
    | none, _ => .word
  | '-' :: c :: letters => ((c :: letters).mapM shortFlag?).elim .word .flags
  | _ => .word

def ofWords (options : Options) : List String → Request
  | [] => .misuse .noWords
  | words => .analyze options words

/-- Flags act in order, and one that ends the reading hides those after it. -/
def act (options : Options) : List Flag → Except Request Options
  | [] => .ok options
  | .verbose :: rest => act { options with verbosity := options.verbosity + 1 } rest
  | .strict :: rest =>
    if options.mode = .strict then .error (.misuse (.repeated "--strict-nonassoc"))
    else act { options with mode := .strict } rest
  | .json :: rest =>
    if options.json then .error (.misuse (.repeated "--json"))
    else act { options with json := true } rest
  | .version :: _ => .error .version
  | .help :: _ => .error .help

def read (options : Options) : List String → Request
  | [] => .misuse .noWords
  | argument :: rest =>
    match classify argument with
    | .flags flags =>
      match act options flags with
      | .ok options => read options rest
      | .error request => request
    | .valued name => .misuse (.unexpectedValue s!"--{name}")
    | .separator => ofWords options rest
    | .word => ofWords options (argument :: rest)

/-- How deep the log goes: without any `-v` there is none. -/
def level : Nat → Option Severity
  | 0 => none
  | 1 => some .info
  | 2 => some .debug
  | _ => some .trace

inductive Outcome where
  | printed (text : String) (log : List String)
  | failed (failure : Failure) (log : List String)
  | misused (misuse : Misuse)
  deriving DecidableEq, Repr

def version : String := "shunt 0.1.0\n"

def usage : String :=
  String.join <| [
    "Parse an expression line and show how its operators group",
    "",
    "Usage: shunt [OPTIONS] <EXPR>...",
    "",
    "Options:",
    "  -v, --verbose          Log more (-v, -vv, -vvv)",
    "      --strict-nonassoc  Reject chains of non-associative operators",
    "      --json             Print the tree as JSON",
    "  -h, --help             Print help",
    "  -V, --version          Print version"].map (· ++ "\n")

def written (json : Bool) (e : Expr) : String :=
  if json then e.toJsonText ++ "\n" else String.join (e.lines.map (· ++ "\n"))

def answer : Request → Outcome
  | .version => .printed version []
  | .help => .printed usage []
  | .misuse misuse => .misused misuse
  | .analyze options words =>
    let run := Analysis.run options.mode (joinWords words)
    let log := (level options.verbosity).elim [] (Analysis.log · run.records)
    match run.outcome with
    | .ok e => .printed (written options.json e) log
    | .error failure => .failed failure log

def run (arguments : List String) : Outcome := answer (read .initial arguments)

namespace Outcome

def code : Outcome → Nat
  | printed .. => 0
  | failed .. => 1
  | misused _ => 2

/-- What goes to the standard output. -/
def output : Outcome → String
  | printed text _ => text
  | failed .. | misused _ => ""

def log : Outcome → List String
  | printed _ log | failed _ log => log
  | misused _ => []

/-- What is reported after the log. -/
def error? : Outcome → Option String
  | printed .. => none
  | failed failure _ => some failure.message
  | misused misuse => some misuse.message

end Outcome

end InfixTree.Command
