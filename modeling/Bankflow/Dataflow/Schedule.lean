import Bankflow.Dataflow.Graph
import Bankflow.Options
import Bankflow.Ordered

/-!
# Levels

Every node is levelled as late as the flow allows: a node without consumers is at
level `0`, and any other one above the highest of its consumers. Levels are found
in rounds. A round looks at the levels found so far, gives a level to every node
whose consumers all have one, and the rounds end with one that finds nothing.

A node that writes a shared buffer is blocked, unless violations are ignored. Every round
notes the nodes that it finds blocked. What is left of these notes at the end, where the
node got no level, are the violations of the run.
-/

namespace Bankflow.Dataflow

/-- The highest level that is counted. -/
abbrev maxLevel : Nat := 4294967295

/-- The level above a level. -/
def levelAbove (l : Nat) : Nat := min (l + 1) maxLevel

/-- The level above all levels of a list; none if one of them is not known. -/
def levelAboveAll : List (Option Nat) → Option Nat
  | [] => some 0
  | none :: _ => none
  | some l :: rest => (levelAboveAll rest).map (max (levelAbove l))

/-- How a scheduling run went. -/
structure Schedule where
  /-- The number of rounds, with the last one, which found nothing. -/
  rounds : Nat
  /-- How many nodes each other round levelled. -/
  assigned : List Nat
  /-- The nodes without a level at the end. -/
  unscheduled : List Nat
  /-- The nodes that a round found blocked and that have no level at the end, with the
  buffers that block them. -/
  violations : List (Nat × Nat)
  deriving DecidableEq, Repr

def Schedule.isComplete (s : Schedule) : Bool := s.unscheduled.isEmpty

/-- Whether a pair is before another one: by the first numbers, then by the second. -/
def pairLt (v w : Nat × Nat) : Bool := v.1 < w.1 || v.1 = w.1 && v.2 < w.2

/-- The distinct pairs of a list, in order. -/
def distinctPairs (vs : List (Nat × Nat)) : List (Nat × Nat) := ordered pairLt vs

namespace Graph

/-- The nodes to which a node passes data, once per buffer that they share. -/
def successors (g : Graph) (n : Node) : List Nat := n.outputs.flatMap g.consumers

/-- Whether a node writes a shared buffer. -/
def isBlocked (g : Graph) (n : Node) : Bool := n.outputs.any g.isShared

/-- The level that a node without one can get now. -/
def readyLevel? (g : Graph) (options : Options) (n : Node) : Option Nat :=
  if n.level.isSome then none
  else if !options.ignoreViolations && g.isBlocked n then none
  else levelAboveAll ((g.successors n).map g.level?)

/-- How many nodes can get a level now. -/
def readyCount (g : Graph) (options : Options) : Nat :=
  g.nodes.countP fun n => (g.readyLevel? options n).isSome

/-- How many nodes have no level. -/
def pendingCount (g : Graph) : Nat := g.nodes.countP fun n => n.level.isNone

/-- A node with the level that it can get now. -/
def advanceNode (g : Graph) (options : Options) (n : Node) : Node :=
  match g.readyLevel? options n with
  | some l => n.assign l
  | none => n

/-- One round. -/
def advance (g : Graph) (options : Options) : Graph :=
  { g with nodes := g.nodes.map (g.advanceNode options) }

theorem level_eq_none_of_readyLevel? {g : Graph} {options : Options} {n : Node} {l : Nat}
    (h : g.readyLevel? options n = some l) : n.level = none := by
  unfold readyLevel? at h
  split at h
  · cases h
  · next hn => simpa using hn

/-- A round levels exactly the nodes that were ready. -/
theorem pendingCount_advance (g : Graph) (options : Options) :
    (g.advance options).pendingCount + g.readyCount options = g.pendingCount := by
  simp only [pendingCount, readyCount, advance]
  generalize g.nodes = ns
  induction ns with
  | nil => rfl
  | cons n ns ih =>
    rw [List.map_cons, List.countP_cons, List.countP_cons, List.countP_cons]
    cases h : g.readyLevel? options n with
    | none =>
      simp only [advanceNode, h, Option.isSome_none, Bool.false_eq_true, if_false]
      omega
    | some l =>
      have hn := level_eq_none_of_readyLevel? h
      simp only [advanceNode, Node.assign, h, hn, Option.isNone_some, Option.isNone_none,
        Option.isSome_some, Bool.false_eq_true, if_true, if_false]
      omega

/-- Rounds until one finds nothing: the graph at the end, and how many nodes each
round levelled. -/
def settle (g : Graph) (options : Options) : Graph × List Nat :=
  let ready := g.readyCount options
  if ready = 0 then (g, [])
  else
    let (g', assigned) := (g.advance options).settle options
    (g', ready :: assigned)
termination_by g.pendingCount
decreasing_by
  have := g.pendingCount_advance options
  omega

/-- The shared buffers that keep a node without a level from getting one, in the order
of its outputs. -/
def blockers (g : Graph) (options : Options) (n : Node) : List Nat :=
  if n.level.isSome || options.ignoreViolations then [] else n.outputs.filter g.isShared

/-- The nodes that are blocked now, with the buffers that block them. -/
def blockedNow (g : Graph) (options : Options) : List (Nat × Nat) :=
  g.nodes.zipIdx.flatMap fun (n, i) => (g.blockers options n).map fun b => (i, b)

/-- What each round finds blocked, up to the one that finds no node ready. -/
def blockedInRounds (g : Graph) (options : Options) : List (List (Nat × Nat)) :=
  g.blockedNow options ::
    if g.readyCount options = 0 then [] else (g.advance options).blockedInRounds options
termination_by g.pendingCount
decreasing_by
  have := g.pendingCount_advance options
  omega

/-- The nodes without a level. -/
def pending (g : Graph) : List Nat :=
  (List.range g.nodes.length).filter fun i => !g.isLevelled i

/-- Levels the nodes. Levels that are there are kept. -/
def schedule (g : Graph) (options : Options) : Graph × Schedule :=
  let (g', assigned) := g.settle options
  let blocked := g.blockedInRounds options
  (g', { rounds := blocked.length
         assigned
         unscheduled := g'.pending
         violations := (distinctPairs blocked.flatten).filter fun v => !g'.isLevelled v.1 })

end Graph

end Bankflow.Dataflow
