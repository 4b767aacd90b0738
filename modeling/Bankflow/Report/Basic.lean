import Bankflow.Compile.State

/-!
# Reports

What was found out about a program, by name: how the arrays are banked, how the
nodes are levelled, and all diagnostics. A pass that was not run has no section.
-/

namespace Bankflow

structure ArrayReport where
  name : String
  shape : List Nat
  elementType : String
  space : Nat
  layout : Option String
  /-- The kind of the accesses that decided. -/
  applied : Option AccessKind
  /-- The kind of the accesses whose decision was replaced. -/
  overwritten : Option AccessKind
  dims : List DimChoice
  deriving DecidableEq, Repr

structure BankReport where
  /-- The variable of the pipelined loop of each nest. -/
  nests : List (Option String)
  arrays : List ArrayReport
  deriving DecidableEq, Repr

structure NodeReport where
  name : String
  region : String
  level : Option Nat
  deriving DecidableEq, Repr

structure RegionReport where
  name : String
  /-- Whether the region is legal, if this was looked at. -/
  legal : Option Bool
  nodes : List String
  deriving DecidableEq, Repr

structure ViolationReport where
  node : String
  buffer : String
  producers : Nat
  consumers : Nat
  deriving DecidableEq, Repr

structure ScheduleReport where
  ignoreViolations : Bool
  rounds : Nat
  assigned : List Nat
  complete : Bool
  nodes : List NodeReport
  regions : List RegionReport
  violations : List ViolationReport
  deriving DecidableEq, Repr

structure Report where
  options : Options
  banking : Option BankReport
  schedule : Option ScheduleReport
  diagnostics : List Diagnostic
  deriving DecidableEq, Repr

/-! ## Banking -/

def ArrayReport.of (m : Memory) (last : Option Applied) : ArrayReport :=
  { name := m.name
    shape := m.shape
    elementType := m.elementType
    space := m.space
    layout := m.layout.map Layout.text
    applied := last.map (·.decision.kind)
    overwritten := last.bind (·.replaced)
    dims := match last with
      | some a => a.decision.dims
      | none => [] }

def BankReport.of (d : Design) (p : Plan) : BankReport :=
  { nests := List.zipWith (fun n loop => loop.bind n.varOf?) d.nests p.loops
    arrays := d.memories.mapIdx fun i m => .of m (p.last? i) }

/-! ## Schedule -/

namespace Dataflow.Graph

def regionName (g : Graph) (region : Nat) : String :=
  match g.regions[region]? with
  | some r => r.name
  | none => "?"

def nodeReports (g : Graph) : List NodeReport :=
  g.nodes.map fun n => ⟨n.name, g.regionName n.region, n.level⟩

def regionReports (g : Graph) (evaluated : Bool) : List RegionReport :=
  g.regions.map fun r =>
    ⟨r.name, if evaluated then some r.legal else none,
      (r.nodes.filterMap (g.nodes[·]?)).map (·.name)⟩

def violationReport? (g : Graph) : Nat × Nat → Option ViolationReport
  | (node, buffer) => do
    let n ← g.nodes[node]?
    let b ← g.buffers[buffer]?
    some ⟨n.name, b.name, b.producers.length, b.consumers.length⟩

/-- Fails at the first violation whose buffer or node is not there. -/
def checkViolations (g : Graph) : List (Nat × Nat) → Except Fault Unit
  | [] => .ok ()
  | (node, buffer) :: rest => do
    g.checkBuffers [buffer]
    g.checkNode node
    g.checkViolations rest

end Dataflow.Graph

def ScheduleReport.of (g : Dataflow.Graph) (options : Options) (schedule : Dataflow.Schedule)
    (legality : Option Dataflow.Legality) : ScheduleReport :=
  { ignoreViolations := options.ignoreViolations
    rounds := schedule.rounds
    assigned := schedule.assigned
    complete := schedule.isComplete
    nodes := g.nodeReports
    regions := g.regionReports (legality.any (·.evaluated))
    violations := schedule.violations.filterMap g.violationReport? }

/-! ## Whole reports -/

namespace State

/-- The report on a state, once there is a design. -/
def report? (s : State) : Option Report :=
  s.design.map fun d =>
    { options := s.options
      banking := s.plan.map (.of d)
      schedule := s.schedule.map fun schedule => .of d.graph s.options schedule s.legality
      diagnostics := s.findings.map Finding.diagnostic }

/-- The report on a design, whose schedule has to be one of its own graph. -/
def checkedReport (s : State) : Except Fault (Option Report) := do
  match s.design, s.schedule with
  | some d, some schedule => d.graph.checkViolations schedule.violations
  | _, _ => pure ()
  return s.report?

end State

end Bankflow
