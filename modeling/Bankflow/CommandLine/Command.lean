import Bankflow.CommandLine.Arguments
import Bankflow.CommandLine.Files
import Bankflow.Report.Json
import Bankflow.Report.Text

/-!
# The command

A command reads a source, compiles it, and writes what was asked for. It exits with
`0` if all went well, with `1` if something is wrong with the source, and with `2`
if the arguments are wrong or a file cannot be read or written. Messages go to the
log, one entry each.
-/

namespace Bankflow.CommandLine

/-- How a command ended. -/
structure Outcome where
  exit : Nat
  stdout : String
  /-- The messages, each of one line or more. -/
  log : List String
  deriving DecidableEq, Repr

def program : String := "hlsopt"

def version : String := "0.1.0"

def say (message : String) : String := program ++ ": " ++ message

def helpText : String :=
  "Array partitioning and dataflow level scheduling for HLS loop nests\n\n" ++
  "Usage: hlsopt [OPTIONS] <SOURCE>\n\n" ++
  "Arguments:\n" ++
  "  <SOURCE>  Input .hls source file\n\n" ++
  "Options:\n" ++
  "      --emit <EMIT>        Output stage [default: report] " ++
  "[possible values: ir, layout, levels, report, json]\n" ++
  "      --ignore-violations  Schedule through multi-producer / multi-consumer buffers\n" ++
  "  -o, --output <OUTPUT>    Output file path (stdout if omitted)\n" ++
  "      --verbose            Print pass timing and decisions (overridden by RUST_LOG)\n" ++
  "  -h, --help               Print help\n" ++
  "  -V, --version            Print version\n"

def usage : String := "Usage: hlsopt [OPTIONS] <SOURCE>"

def targetNames : String := "  [possible values: ir, layout, levels, report, json]"

/-- What is wrong with an argument, and what may help. -/
def Refusal.lines : Refusal → List String
  | unknownOption name =>
    ["unexpected argument '" ++ name ++ "' found", "",
      "  tip: to pass '" ++ name ++ "' as a value, use '-- " ++ name ++ "'", "", usage]
  | extraOperand path => ["unexpected argument '" ++ path ++ "' found", "", usage]
  | unknownTarget value =>
    ["invalid value '" ++ value ++ "' for '" ++ targetTag ++ "'", targetNames]
  | noValue argument =>
    ("a value is required for '" ++ argument ++ "' but none was supplied") ::
      if argument = targetTag then [targetNames] else []
  | unneededValue option value =>
    ["unexpected value '" ++ value ++ "' for '" ++ option ++ "' found; no more were expected", "",
      usage]
  | repeated argument =>
    ["the argument '" ++ argument ++ "' cannot be used multiple times", "", usage]
  | noSource =>
    ["the following required arguments were not provided:", "  " ++ sourceTag, "", usage]

def Refusal.text (r : Refusal) : String :=
  "error: " ++ "\n".intercalate (r.lines ++ ["", "For more information, try '--help'."])

/-! ## Places in a source -/

/-- How many line ends stand in the first bytes of a text. -/
def lineEnds : Nat → List Char → Nat
  | _, [] => 0
  | 0, _ => 0
  | n + 1, c :: rest => (if c = '\n' then 1 else 0) + lineEnds (n + 1 - c.utf8Size) rest

/-- The line of an offset, from one. -/
def lineOf (source : String) (offset : Nat) : Nat := lineEnds offset source.toList + 1

/-- A message about a place in a source. -/
def sayAt (path source : String) (offset : Nat) (message : String) : String :=
  say (path ++ ":" ++ toString (lineOf source offset) ++ ": " ++ message)

/-! ## Compiling -/

/-- The text that a target asks for. -/
def render (target : Target) (s : State) : Option String :=
  match target with
  | .design => s.design.map Design.text
  | .layout => s.report?.map Report.layoutText
  | .levels => s.report?.map Report.levelsText
  | .report => s.report?.map Report.text
  | .json => s.report?.map fun r => r.json.text ++ "\n"

def targetName : Target → String
  | .design => "Ir"
  | .layout => "Layout"
  | .levels => "Levels"
  | .report => "Report"
  | .json => "Json"

def passName : Pass → String
  | .resolve => "Resolve"
  | .bank => "ArrayPartition"
  | .schedule => "ScheduleDataflow"
  | .legality => "CheckLegality"

namespace Arguments

/-- Messages that are only given on request. -/
def aside (a : Arguments) (messages : List String) : List String :=
  if a.verbose then messages.map say else []

/-- The messages before the source is read. -/
def preamble (a : Arguments) : List String :=
  a.aside ["source = " ++ a.source, "emit   = " ++ targetName a.target]

/-- Compiles a source: the result or an exit code, and the messages. -/
def compile (a : Arguments) (source : String) : Except Nat String × List String :=
  let parsed := Source.parse source
  match parsed.program, parsed.errors with
  | some program, [] =>
    let run := (State.start program ⟨a.ignoreViolations⟩).run a.target.passes
    let messages := run.events.flatMap fun (_, found) =>
      found.map fun f => sayAt a.source source f.span.start f.diagnostic.text
    let count := "parsed " ++ toString program.statements.length ++ " statements"
    let log := a.aside [count] ++ messages
    match run.failing with
    | some p => (.error 1, log ++ a.aside ["stopped after " ++ passName p])
    | none =>
      match render a.target run.state with
      | some text => (.ok text, log)
      | none => (.error 1, log ++ [say "internal error: no report"])
  | _, errors =>
    (.error 1, errors.map fun e =>
      sayAt a.source source e.span.start ("parse error: " ++ e.message))

/-- A message about a file. -/
def fileMessage (path : String) (e : FileError) : String :=
  say ("error: " ++ path ++ ": " ++ e.message)

/-- Puts a result where it belongs. -/
def deliver {m : Type → Type} [Monad m] (a : Arguments) (files : Files m) (text : String)
    (log : List String) : m Outcome := do
  match a.output with
  | none => return ⟨0, text, log⟩
  | some path =>
    match ← files.write path text with
    | .error e => return ⟨2, "", log ++ [fileMessage path e]⟩
    | .ok () => return ⟨0, "", log ++ a.aside ["wrote " ++ path]⟩

/-- Reads, compiles and writes. -/
def run {m : Type → Type} [Monad m] (a : Arguments) (files : Files m) : m Outcome := do
  let bytes ← files.read a.source
  match bytes >>= decode with
  | .error e => return ⟨2, "", a.preamble ++ [fileMessage a.source e]⟩
  | .ok source =>
    match a.compile source with
    | (.error code, log) => return ⟨code, "", a.preamble ++ log⟩
    | (.ok text, log) => a.deliver files text (a.preamble ++ log)

end Arguments

/-- Runs a command with its arguments. -/
def run {m : Type → Type} [Monad m] (files : Files m) (args : List String) : m Outcome :=
  match request args with
  | .run a => a.run files
  | .version => return ⟨0, program ++ " " ++ version ++ "\n", []⟩
  | .help => return ⟨0, helpText, []⟩
  | .refuse why => return ⟨2, "", [why.text]⟩

end Bankflow.CommandLine
