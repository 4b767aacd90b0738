import Bankflow.Compile.State

/-!
# Arguments

    hlsopt [--emit TARGET] [--ignore-violations] [-o PATH] [--verbose] [--] SOURCE

Options and the source come in any order, and `--` ends the options. Arguments
are taken from left to right, and the first that is wrong ends it: an unknown
option, a value that is missing, empty or unknown, a value for an option that
takes none, an option given twice, or a second source. A request for help or for
the version holds if nothing is wrong before it.
-/

namespace Bankflow.CommandLine

/-- What a command is asked to do with a source. -/
structure Arguments where
  source : String
  target : Target
  ignoreViolations : Bool
  /-- Where the result goes, if not to standard output. -/
  output : Option String
  verbose : Bool
  deriving DecidableEq, Repr

/-- What is wrong with an argument. -/
inductive Refusal where
  | unknownOption (name : String)
  | extraOperand (path : String)
  | unknownTarget (value : String)
  | noValue (argument : String)
  | unneededValue (option value : String)
  | repeated (argument : String)
  | noSource
  deriving DecidableEq, Repr

inductive Request where
  | run (args : Arguments)
  | version
  | help
  | refuse (why : Refusal)
  deriving DecidableEq, Repr

/-- The options and the source given so far. -/
structure Given where
  source : Option String := none
  target : Option Target := none
  ignoreViolations : Bool := false
  output : Option String := none
  verbose : Bool := false
  deriving DecidableEq, Repr

def targetNamed? : String → Option Target
  | "ir" => some .design
  | "layout" => some .layout
  | "levels" => some .levels
  | "report" => some .report
  | "json" => some .json
  | _ => none

/-! ## How arguments are named in messages -/

def sourceTag : String := "<SOURCE>"

def targetTag : String := "--emit <EMIT>"

def outputTag : String := "--output <OUTPUT>"

def ignoreViolationsTag : String := "--ignore-violations"

def verboseTag : String := "--verbose"

namespace Given

def withTarget (g : Given) (value : String) : Except Refusal Given :=
  if value.isEmpty then .error (.noValue targetTag)
  else
    match targetNamed? value with
    | none => .error (.unknownTarget value)
    | some target =>
      if g.target.isSome then .error (.repeated targetTag) else .ok { g with target := some target }

def withOutput (g : Given) (path : String) : Except Refusal Given :=
  if path.isEmpty then .error (.noValue outputTag)
  else if g.output.isSome then .error (.repeated outputTag)
  else .ok { g with output := some path }

def withSource (g : Given) (path : String) : Except Refusal Given :=
  if g.source.isSome then .error (.extraOperand path)
  else if path.isEmpty then .error (.noValue sourceTag)
  else .ok { g with source := some path }

def withIgnoreViolations (g : Given) : Except Refusal Given :=
  if g.ignoreViolations then .error (.repeated ignoreViolationsTag)
  else .ok { g with ignoreViolations := true }

def withVerbose (g : Given) : Except Refusal Given :=
  if g.verbose then .error (.repeated verboseTag) else .ok { g with verbose := true }

/-- The request of all arguments together. Without a target a report is meant. -/
def request (g : Given) : Request :=
  match g.source with
  | some source =>
    .run ⟨source, g.target.getD .report, g.ignoreViolations, g.output, g.verbose⟩
  | none => .refuse .noSource

/-- The request when only sources may follow. -/
def operands (g : Given) : List String → Request
  | [] => g.request
  | path :: rest =>
    match g.withSource path with
    | .ok g' => g'.operands rest
    | .error why => .refuse why

end Given

/-! ## Reading arguments -/

/-- What an argument is. -/
inductive Argument where
  /-- The mark that ends the options. -/
  | endOfOptions
  | long (name : String) (value : Option String)
  /-- A short option and what follows it without a blank. -/
  | short (letter : Char) (rest : List Char)
  | operand (path : String)
  deriving DecidableEq, Repr

/-- Name and value of a long option, divided at the first `=`. -/
def longArgument (cs : List Char) : Argument :=
  let name := cs.takeWhile (· ≠ '=')
  match cs.drop name.length with
  | [] => .long (String.ofList name) none
  | _ :: value => .long (String.ofList name) (some (String.ofList value))

def Argument.of (arg : String) : Argument :=
  match arg.toList with
  | ['-', '-'] => .endOfOptions
  | '-' :: '-' :: rest => longArgument rest
  | '-' :: letter :: rest => .short letter rest
  | _ => .operand arg

/-- The value that stands with a short option; an `=` before it is left out. -/
def attachedValue? : List Char → Option String
  | [] => none
  | '=' :: value => some (String.ofList value)
  | value => some (String.ofList value)

/-- The options that take a value. -/
inductive ValueOption where
  | target
  | output
  deriving DecidableEq, Repr

namespace ValueOption

def tag : ValueOption → String
  | target => targetTag
  | output => outputTag

def give : ValueOption → Given → String → Except Refusal Given
  | target => Given.withTarget
  | output => Given.withOutput

end ValueOption

/-- What an argument does. -/
inductive Effect where
  | give (g : Given)
  /-- The next argument is the value of an option. -/
  | await (option : ValueOption)
  | operandsOnly
  | answer (r : Request)
  deriving DecidableEq, Repr

namespace Effect

def refuse (why : Refusal) : Effect := .answer (.refuse why)

/-- Goes on with what is given, unless something was wrong. -/
def ofGiven : Except Refusal Given → Effect
  | .ok g => .give g
  | .error why => refuse why

/-- The effect of an option that takes a value. -/
def ofValue (g : Given) (option : ValueOption) : Option String → Effect
  | some value => ofGiven (option.give g value)
  | none => .await option

/-- The effect of an option that takes no value. -/
def ofFlag (tag : String) (alone : Effect) : Option String → Effect
  | some value => refuse (.unneededValue tag value)
  | none => alone

end Effect

/-- The effect of an argument after what was given before. -/
def Given.effect (g : Given) : Argument → Effect
  | .endOfOptions => .operandsOnly
  | .operand path => .ofGiven (g.withSource path)
  | .long "emit" value => .ofValue g .target value
  | .long "output" value => .ofValue g .output value
  | .long "ignore-violations" value =>
    .ofFlag ignoreViolationsTag (.ofGiven g.withIgnoreViolations) value
  | .long "verbose" value => .ofFlag verboseTag (.ofGiven g.withVerbose) value
  | .long "version" value => .ofFlag "--version" (.answer .version) value
  | .long "help" value => .ofFlag "--help" (.answer .help) value
  | .long name _ => .refuse (.unknownOption ("--" ++ name))
  | .short 'o' rest => .ofValue g .output (attachedValue? rest)
  | .short 'V' _ => .answer .version
  | .short 'h' _ => .answer .help
  | .short letter _ => .refuse (.unknownOption ("-" ++ letter.toString))

/-- The request of the arguments that follow others. -/
def requestAfter (g : Given) : List String → Request
  | [] => g.request
  | arg :: rest =>
    match g.effect (Argument.of arg) with
    | .give g' => requestAfter g' rest
    | .operandsOnly => g.operands rest
    | .answer r => r
    | .await option =>
      match rest with
      | [] => .refuse (.noValue option.tag)
      | value :: rest' =>
        match Argument.of value with
        | .operand v =>
          match option.give g v with
          | .ok g' => requestAfter g' rest'
          | .error why => .refuse why
        | _ => .refuse (.noValue option.tag)

/-- The request of a command's arguments. -/
def request (args : List String) : Request := requestAfter {} args

end Bankflow.CommandLine
