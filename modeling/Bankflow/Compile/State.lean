import Bankflow.Bank.Certificate
import Bankflow.Compile.Pass
import Bankflow.Dataflow.Legality
import Bankflow.Design.OfProgram
import Bankflow.Source.Parser

/-!
# Running passes

A `State` holds a program, the results of the passes that were run on it, and all
findings. `State.run` runs the passes needed for some others in order, and stops
after the first one with errors. `compile` reads a source and runs what a target
needs.
-/

namespace Bankflow

/-- What is asked for. -/
inductive Target where
  | design
  | layout
  | levels
  | report
  | json
  deriving DecidableEq, Repr

/-- The passes that a target asks for. -/
def Target.passes : Target → List Pass
  | layout => [.bank]
  | levels => [.legality]
  | design | report | json => [.bank, .legality]

/-- A program and what is known about it. -/
structure State where
  program : Source.Program
  /-- The options of the caller. -/
  overrides : Options
  /-- The options in force, once the program was resolved. -/
  options : Options
  design : Option Design
  plan : Option Plan
  schedule : Option Dataflow.Schedule
  legality : Option Dataflow.Legality
  /-- The passes that were run. -/
  passes : List Pass
  findings : List Finding
  failed : Bool
  deriving DecidableEq, Repr

/-- A program on which nothing was run yet. -/
def State.start (program : Source.Program) (overrides : Options) : State :=
  { program, overrides, options := {}, design := none, plan := none, schedule := none,
    legality := none, passes := [], findings := [], failed := false }

/-! ## Findings of passes -/

/-- A finding for a certificate that does not pass. -/
def certificateFindings (c : Certificate) (issue : List String → Issue) (span : Span) :
    List Finding :=
  if c.allPass then [] else [⟨issue c.failures, span⟩]

namespace Dataflow.Graph

/-- The finding for a node kept back by a shared buffer. -/
def violationFinding? (g : Graph) : Nat × Nat → Option Finding
  | (node, buffer) => do
    let n ← g.nodes[node]?
    let b ← g.buffers[buffer]?
    some ⟨.blockedNode n.name b.name b.producers.length b.consumers.length, n.span⟩

/-- The finding for a region that is not legal. -/
def regionFinding? (g : Graph) (region : Nat) : Option Finding := do
  let r ← g.regions[region]?
  some ⟨.illegalRegion r.name (g.pendingIn r).length r.nodes.length, r.span⟩

end Dataflow.Graph

/-! ## Single passes -/

namespace State

def runResolve (s : State) : State × List Finding :=
  ({ s with
      options := (Options.ofProgram s.program).layered s.overrides
      design := some (Design.ofProgram s.program) },
    Bankflow.findings s.program)

def runBank (s : State) (d : Design) : State × List Finding :=
  let (d', plan) := d.bank
  ({ s with design := some d', plan := some plan },
    certificateFindings (d'.certificate plan) .uncertifiedBanking s.program.span)

def runSchedule (s : State) (d : Design) : State × List Finding :=
  let (g, schedule) := d.graph.schedule s.options
  ({ s with design := some { d with graph := g }, schedule := some schedule },
    schedule.violations.filterMap g.violationFinding?)

def runLegality (s : State) (d : Design) : State × List Finding :=
  let (g, legality) := d.graph.checkLegality s.options
  ({ s with design := some { d with graph := g }, legality := some legality },
    legality.illegal.filterMap g.regionFinding? ++
      certificateFindings g.certificate .uncertifiedSchedule s.program.span)

/-- The state after a pass and what the pass found; none if the pass needs a design
and there is none. -/
def runPass? (s : State) (p : Pass) : Option (State × List Finding) :=
  match p with
  | .resolve => some s.runResolve
  | .bank => s.design.map s.runBank
  | .schedule => s.design.map s.runSchedule
  | .legality => s.design.map s.runLegality

end State

/-! ## Runs -/

/-- How a run of passes went. -/
structure Run where
  state : State
  /-- What each pass found, in the order of the run. -/
  events : List (Pass × List Finding)
  /-- The pass after which the run stopped because of errors. -/
  failing : Option Pass
  deriving DecidableEq, Repr

namespace State

/-- Runs passes in order. -/
def runAll (s : State) : List Pass → Run
  | [] => ⟨s, [], none⟩
  | p :: rest =>
    match s.runPass? p with
    | none =>
      let found : Finding := ⟨.noDesign p.name, s.program.span⟩
      ⟨{ s with findings := s.findings ++ [found], failed := true }, [], some p⟩
    | some (s', found) =>
      let s' := { s' with findings := s'.findings ++ found, passes := s'.passes ++ [p] }
      if found.any Finding.isError then ⟨{ s' with failed := true }, [(p, found)], some p⟩
      else
        let run := s'.runAll rest
        { run with events := (p, found) :: run.events }

/-- Runs the passes needed for some passes. -/
def run (s : State) (terminals : List Pass) : Run := s.runAll (Pass.required terminals)

end State

/-- The state of a source that cannot be parsed. -/
def State.unparsed (source : String) (errors : List Source.SyntaxError) (overrides : Options) :
    State :=
  { State.start ⟨[], ⟨0, source.utf8ByteSize⟩⟩ overrides with
    findings := errors.map fun e => ⟨.badSyntax e.problem, e.span⟩
    failed := true }

/-- Reads a source and runs the passes that a target asks for. -/
def compile (source : String) (overrides : Options) (target : Target) : State :=
  let parsed := Source.parse source
  match parsed.program, parsed.errors with
  | some program, [] => ((State.start program overrides).run target.passes).state
  | _, errors => .unparsed source errors overrides

end Bankflow
