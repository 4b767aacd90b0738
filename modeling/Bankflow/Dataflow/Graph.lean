import Bankflow.Fault
import Bankflow.Span

/-!
# Dataflow graphs

Nodes pass data through buffers and are grouped into regions. Nodes, buffers and
regions are numbered in the order in which they were added, and their number is
their place in the graph. A buffer knows its producers and consumers; `addNode`
keeps these in step with the inputs and outputs of the nodes.

`addNode`, `assignLevel` and `setLegal` leave alone what their numbers do not
name. Their checked forms, with a `?`, refuse such numbers.
-/

namespace Bankflow.Dataflow

structure Node where
  name : String
  region : Nat
  /-- The buffers it reads, as declared. -/
  inputs : List Nat
  /-- The buffers it writes, as declared. -/
  outputs : List Nat
  span : Span
  /-- How many steps the node is away from the end of the flow, once known. -/
  level : Option Nat
  deriving DecidableEq, Repr

structure Buffer where
  name : String
  producers : List Nat
  consumers : List Nat
  deriving DecidableEq, Repr

structure Region where
  name : String
  nodes : List Nat
  /-- Whether all nodes had levels when this was last checked. -/
  legal : Bool
  span : Span
  deriving DecidableEq, Repr

structure Graph where
  nodes : List Node
  buffers : List Buffer
  regions : List Region
  deriving DecidableEq, Repr

/-- Whether a buffer joins exactly one producer to exactly one consumer. -/
def Buffer.isPrivate (b : Buffer) : Bool := b.producers.length = 1 && b.consumers.length = 1

/-- Whether a buffer has several producers or several consumers. -/
def Buffer.isShared (b : Buffer) : Bool := 1 < b.consumers.length || 1 < b.producers.length

/-- The node with a level, unless it already has one. -/
def Node.assign (n : Node) (level : Nat) : Node :=
  match n.level with
  | some _ => n
  | none => { n with level := some level }

namespace Graph

def empty : Graph := ⟨[], [], []⟩

/-! ## Looking up -/

def level? (g : Graph) (node : Nat) : Option Nat := (g.nodes[node]?).bind Node.level

def consumers (g : Graph) (buffer : Nat) : List Nat :=
  match g.buffers[buffer]? with
  | some b => b.consumers
  | none => []

def isShared (g : Graph) (buffer : Nat) : Bool :=
  match g.buffers[buffer]? with
  | some b => b.isShared
  | none => false

def isLevelled (g : Graph) (node : Nat) : Bool := (g.level? node).isSome

/-- The first node of a name. -/
def nodeNamed? (g : Graph) (name : String) : Option Nat := g.nodes.findIdx? (·.name = name)

def bufferNamed? (g : Graph) (name : String) : Option Nat := g.buffers.findIdx? (·.name = name)

/-- The first region of a name. -/
def regionNamed? (g : Graph) (name : String) : Option Nat := g.regions.findIdx? (·.name = name)

/-! ## Building -/

/-- The graph with one more region, and its number. -/
def addRegion (g : Graph) (name : String) (span : Span) : Graph × Nat :=
  ({ g with regions := g.regions ++ [⟨name, [], false, span⟩] }, g.regions.length)

/-- The graph with a buffer of this name, and its number. -/
def internBuffer (g : Graph) (name : String) : Graph × Nat :=
  match g.bufferNamed? name with
  | some b => (g, b)
  | none => ({ g with buffers := g.buffers ++ [⟨name, [], []⟩] }, g.buffers.length)

/-- Buffers of these names, and their numbers. -/
def internBuffers (g : Graph) : List String → Graph × List Nat
  | [] => (g, [])
  | name :: rest =>
    let (g, b) := g.internBuffer name
    let (g, bs) := g.internBuffers rest
    (g, b :: bs)

/-- Buffer number `b` once node `id` reads and writes some buffers. However often
the node names the buffer, it counts once among its users. -/
def joined (id : Nat) (inputs outputs : List Nat) (b : Nat) (buffer : Buffer) : Buffer :=
  { buffer with
    producers := if b ∈ outputs then buffer.producers ++ [id] else buffer.producers
    consumers := if b ∈ inputs then buffer.consumers ++ [id] else buffer.consumers }

/-- The graph with one more node in a region, and its number. -/
def addNode (g : Graph) (region : Nat) (name : String) (inputs outputs : List Nat)
    (span : Span) : Graph × Nat :=
  let id := g.nodes.length
  ({ nodes := g.nodes ++ [⟨name, region, inputs, outputs, span, none⟩]
     buffers := g.buffers.mapIdx (joined id inputs outputs)
     regions := g.regions.modify region fun r => { r with nodes := r.nodes ++ [id] } }, id)

/-- The graph with a level for a node, unless the node already has one. -/
def assignLevel (g : Graph) (node level : Nat) : Graph :=
  { g with nodes := g.nodes.modify node (·.assign level) }

def setLegal (g : Graph) (region : Nat) (legal : Bool) : Graph :=
  { g with regions := g.regions.modify region fun r => { r with legal } }

/-! ## Checked numbers -/

/-- Fails at the first buffer that is not there. -/
def checkBuffers (g : Graph) : List Nat → Except Fault Unit
  | [] => .ok ()
  | b :: rest => if b < g.buffers.length then g.checkBuffers rest else .error (.noBuffer b)

def checkRegion (g : Graph) (region : Nat) : Except Fault Unit :=
  if region < g.regions.length then .ok () else .error (.noRegion region)

def checkNode (g : Graph) (node : Nat) : Except Fault Unit :=
  if node < g.nodes.length then .ok () else .error (.noNode node)

def addNode? (g : Graph) (region : Nat) (name : String) (inputs outputs : List Nat)
    (span : Span) : Except Fault (Graph × Nat) := do
  g.checkBuffers inputs
  g.checkBuffers outputs
  g.checkRegion region
  return g.addNode region name inputs outputs span

def assignLevel? (g : Graph) (node level : Nat) : Except Fault Graph := do
  g.checkNode node
  return g.assignLevel node level

def setLegal? (g : Graph) (region : Nat) (legal : Bool) : Except Fault Graph := do
  g.checkRegion region
  return g.setLegal region legal

end Graph

end Bankflow.Dataflow
