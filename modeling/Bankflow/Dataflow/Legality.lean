import Bankflow.Certificate
import Bankflow.Dataflow.Schedule

/-!
# Legality of regions

A region is legal when all of its nodes have levels. `checkLegality` marks the
regions, unless violations are ignored, and `certificate` checks marks and levels
of a graph after the fact.
-/

namespace Bankflow.Dataflow

/-- What a legality check found. -/
structure Legality where
  /-- Whether the regions were looked at. -/
  evaluated : Bool
  /-- The regions that are not legal. -/
  illegal : List Nat
  deriving DecidableEq, Repr

namespace Graph

/-- Whether every node of a region has a level. -/
def isLegal (g : Graph) (r : Region) : Bool := r.nodes.all g.isLevelled

/-- The nodes of a region without a level. -/
def pendingIn (g : Graph) (r : Region) : List Nat := r.nodes.filter fun n => !g.isLevelled n

/-- The regions that are not legal. -/
def illegalRegions (g : Graph) : List Nat :=
  (List.range g.regions.length).filter fun i =>
    match g.regions[i]? with
    | some r => !g.isLegal r
    | none => false

/-- Marks every region. When violations are ignored the marks stay as they are. -/
def checkLegality (g : Graph) (options : Options) : Graph × Legality :=
  if options.ignoreViolations then (g, ⟨false, []⟩)
  else
    ({ g with regions := g.regions.map fun r => { r with legal := g.isLegal r } },
      ⟨true, g.illegalRegions⟩)

/-- Every region marked legal is legal. -/
def legalRegionsLevelled (g : Graph) : Bool :=
  g.regions.all fun r => !r.legal || g.isLegal r

/-- Every levelled node is above its levelled consumers. -/
def levelsOrdered (g : Graph) : Bool :=
  g.nodes.all fun n =>
    match n.level with
    | none => true
    | some l => ((g.successors n).filterMap g.level?).all (· < l)

/-- Every node without outputs is at level `0`. -/
def sinksAtZero (g : Graph) : Bool :=
  g.nodes.all fun n => !n.outputs.isEmpty || n.level = some 0

/-- The obligations of a schedule. -/
def certificate (g : Graph) : Certificate :=
  ⟨[("L1_legal_regions_leveled", g.legalRegionsLevelled),
    ("L2_levels_ordered", g.levelsOrdered),
    ("L3_sinks_at_zero", g.sinksAtZero)]⟩

end Graph

end Bankflow.Dataflow
