import Bankflow.Bank.Mode
import Bankflow.Design.Basic

/-!
# Banking plans

For every nest with a pipelined loop, the accesses under that loop decide how the
arrays are banked: one decision per array for its reads and one for its writes.
Decisions are installed in order, so the last one for an array holds.
-/

namespace Bankflow

/-- How an array is banked for its reads or for its writes. -/
structure Decision where
  array : Nat
  kind : AccessKind
  dims : List DimChoice
  layout : Layout
  deriving DecidableEq, Repr

/-- A decision that was installed. -/
structure Applied where
  decision : Decision
  /-- The kind of the decision that it took the place of, if there was one. -/
  replaced : Option AccessKind
  deriving DecidableEq, Repr

structure Plan where
  /-- The decisions in the order in which they were installed. -/
  applied : List Applied
  /-- The pipelined loop of each nest. -/
  loops : List (Option Nat)
  deriving DecidableEq, Repr

/-- The indices that sites use along dimension `d`. -/
def indicesAlong (sites : List Access) (d : Nat) : List Expr := sites.filterMap (·.indices[d]?)

/-- The choices for each dimension of a shape, the first one being `d`. -/
def choicesFrom (sites : List Access) (d : Nat) : List Nat → List DimChoice
  | [] => []
  | size :: rest => .of (indicesAlong sites d) d size :: choicesFrom sites (d + 1) rest

def Layout.ofChoices (choices : List DimChoice) : Layout :=
  ⟨choices.map fun c => c.mode.bank c.dim, choices.map fun c => c.mode.offset c.dim⟩

/-- The decision for an array of some shape from the sites that access it. -/
def Decision.of (array : Nat) (kind : AccessKind) (shape : List Nat) (sites : List Access) :
    Decision :=
  let dims := choicesFrom sites 0 shape
  ⟨array, kind, dims, .ofChoices dims⟩

namespace Plan

def empty : Plan := ⟨[], []⟩

/-- The decision installed last for an array. -/
def last? (p : Plan) (array : Nat) : Option Applied :=
  p.applied.reverse.find? (·.decision.array = array)

def final? (p : Plan) (array : Nat) : Option Decision := (p.last? array).map (·.decision)

end Plan

/-- Decisions with what each of them takes the place of; `earlier` are the ones
before them, latest first. -/
def applyAfter (earlier : List Decision) : List Decision → List Applied
  | [] => []
  | d :: rest =>
    ⟨d, (earlier.find? (·.array = d.array)).map (·.kind)⟩ :: applyAfter (d :: earlier) rest

namespace Design

/-- The decisions for accesses of one kind, by array. -/
def decisionsOf (d : Design) (kind : AccessKind) (accesses : List Access) : List Decision :=
  (groupByArray kind accesses).filterMap fun (array, sites) =>
    (d.memories[array]?).map fun m => .of array kind m.shape sites

/-- The decisions for one nest: reads, then writes. -/
def nestDecisions (d : Design) (n : Nest) : List Decision :=
  d.decisionsOf .read n.pipelinedAccesses ++ d.decisionsOf .write n.pipelinedAccesses

/-- The plan for all nests. -/
def plan (d : Design) : Plan :=
  ⟨applyAfter [] (d.nests.flatMap d.nestDecisions),
    d.nests.map fun n => n.pipelined?.map (·.1.id)⟩

/-- The design with the layouts of some decisions. -/
def install (d : Design) : List Applied → Design
  | [] => d
  | a :: rest => (d.setLayout a.decision.array a.decision.layout).install rest

/-- The design with its arrays banked, and how. -/
def bank (d : Design) : Design × Plan := (d.install d.plan.applied, d.plan)

/-- `bank` for a design whose pipelined accesses have to name arrays. -/
def bank? (d : Design) : Except Fault (Design × Plan) := do
  d.checkAccesses (d.nests.flatMap Nest.pipelinedAccesses)
  return d.bank

end Design

end Bankflow
