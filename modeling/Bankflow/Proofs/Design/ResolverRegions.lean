import Bankflow.Proofs.Design.OfProgram
import Bankflow.Proofs.Design.ResolverLoops

/-!
# Resolving regions

A resolver adds regions to its store as they are added to the graph of a design
(`resolveRegion_of_not_mem`), one node after the other (`resolveNodes_eq`). It is a fault if there
are too many parts to be numbered, so all equations say how far counters have to get
(`Graph.largest`).
-/

namespace Bankflow.Resolver

open Source (Ident)

variable {o : Overflow} {r : Resolver}

/-! ## Nodes -/

/-- The counts of the parts once a node of a program is there. -/
theorem largest_addSourceNode (g : Dataflow.Graph) (region : Nat) (n : Source.Node) :
    (g.addSourceNode region n).largest = max (g.nodes.length + 1)
      (max ((g.internBuffers (n.inputs.map (·.name))).1.internBuffers
        (n.outputs.map (·.name))).1.buffers.length g.regions.length) := by
  have hin := Dataflow.Graph.interned_internBuffers (n.inputs.map (·.name)) g
  have hout := Dataflow.Graph.interned_internBuffers (n.outputs.map (·.name))
    (g.internBuffers (n.inputs.map (·.name))).1
  have hboth := hin.trans hout
  rw [Dataflow.Graph.largest, ← hboth.nodes_eq, ← hboth.regions_eq]
  simp only [Dataflow.Graph.addSourceNode, Dataflow.Graph.addNode, List.length_append,
    List.length_singleton, List.length_mapIdx, List.length_modify]

theorem addNode_ofGraph {g : Dataflow.Graph} (hg : g.Built) (hlt : g.largest < 2 ^ 32)
    {region : Nat} (hregion : region < g.regions.length) (n : Source.Node)
    (hroom : o = .stops ∨ (g.addSourceNode region n).largest < 2 ^ 32) :
    addNode o (.ofGraph g) (.ofNat region) n = o.counted (g.addSourceNode region n).largest
      (.ok (.ofGraph (g.addSourceNode region n))) := by
  have hin := Dataflow.Graph.interned_internBuffers (n.inputs.map (·.name)) g
  have hout := Dataflow.Graph.interned_internBuffers (n.outputs.map (·.name))
    (g.internBuffers (n.inputs.map (·.name))).1
  have hfits := hg.fits hlt
  have hlargest := largest_addSourceNode g region n
  have hbuffers := hout.length_le
  rw [hlargest] at hroom ⊢
  rw [addNode]
  refine Overflow.bind_counted (Dataflow.Store.internBuffers_ofGraph _ hg hfits
    (hroom.imp_right (by omega))) (by omega) fun hinputs => ?_
  have hfits₁ := hin.fits hfits (hinputs.lt (by omega) hroom)
  refine Overflow.bind_counted (Dataflow.Store.internBuffers_ofGraph _ (hin.built hg) hfits₁
    (hroom.imp_right (by omega))) (by omega) fun houtputs => ?_
  have hfits₂ := hout.fits hfits₁ (houtputs.lt (by omega) hroom)
  have hadded := Dataflow.Store.addNode_ofGraph (o := o) hfits₂ (hout.built (hin.built hg)).mirrors
    (.ofNat region) n.name.name
    ((g.internBuffers (n.inputs.map (·.name))).2.map UInt32.ofNat)
    (((g.internBuffers (n.inputs.map (·.name))).1.internBuffers
      (n.outputs.map (·.name))).2.map UInt32.ofNat) n.span
  have hports : ∀ b ∈ (g.internBuffers (n.inputs.map (·.name))).2, b < _ := fun b hb =>
    Nat.lt_of_lt_of_le (hin.lt b hb) hout.length_le
  have hregion₂ := (hin.trans hout).regions_eq ▸ hregion
  rw [Dataflow.map_toNat_map_ofNat fun b hb => Nat.lt_trans (hports b hb) hfits₂.buffers,
    Dataflow.map_toNat_map_ofNat fun b hb => Nat.lt_trans (hout.lt b hb) hfits₂.buffers,
    UInt32.toNat_ofNat_of_lt' (Nat.lt_trans hregion hfits.regions),
    Dataflow.Graph.addNode?_eq_ok_iff.mpr ⟨hports, hout.lt, hregion₂, rfl⟩,
    (hin.trans hout).nodes_eq] at hadded
  refine Overflow.bind_counted hadded (by omega) fun hnode => ?_
  rw [Overflow.counted_of_reaches]
  · rfl
  · rw [Overflow.reaches_max, Overflow.reaches_max]
    exact ⟨hnode, houtputs, .inr hfits.regions⟩

/-! ## Nodes of a region -/

/-- The resolver with another store. -/
def withFlow (r : Resolver) (flow : Dataflow.Store) : Resolver :=
  { r with stored := { r.stored with flow } }

theorem isSome_lookup_iff (seen : List (String × Span)) (name : String) :
    (seen.lookup name).isSome ↔ name ∈ seen.map (·.1) := by
  induction seen with
  | nil => simp
  | cons x seen ih =>
    rw [List.lookup_cons, List.map_cons, List.mem_cons]
    by_cases hx : name = x.1
    · simp [hx]
    · simp [hx, beq_eq_false_iff_ne.mpr hx, ih]

theorem largest_le_addSourceNode (g : Dataflow.Graph) (region : Nat) (n : Source.Node) :
    g.largest ≤ (g.addSourceNode region n).largest := by
  have hin := Dataflow.Graph.interned_internBuffers (n.inputs.map (·.name)) g
  have hout := Dataflow.Graph.interned_internBuffers (n.outputs.map (·.name))
    (g.internBuffers (n.inputs.map (·.name))).1
  have hbuffers := (hin.trans hout).length_le
  rw [largest_addSourceNode, Dataflow.Graph.largest]
  omega

theorem largest_le_addSourceNodes (region : Nat) :
    ∀ (ns : List Source.Node) (g : Dataflow.Graph),
      g.largest ≤ (ns.foldl (Dataflow.Graph.addSourceNode region) g).largest
  | [], _ => Nat.le_refl _
  | n :: ns, g => Nat.le_trans (largest_le_addSourceNode g region n)
    (largest_le_addSourceNodes region ns (g.addSourceNode region n))

theorem resolveNodes_eq (name : Ident) {region : Nat} :
    ∀ (nodes : List Source.Node) (r : Resolver) (seen : List (String × Span)) (g : Dataflow.Graph),
      r.stored.flow = .ofGraph g → g.Built → g.largest < 2 ^ 32 → region < g.regions.length →
      (o = .stops ∨ ((firstBy (·.name.name) (seen.map (·.1)) nodes).foldl
        (Dataflow.Graph.addSourceNode region) g).largest < 2 ^ 32) →
      resolveNodes o name (.ofNat region) r seen nodes =
        o.counted ((firstBy (·.name.name) (seen.map (·.1)) nodes).foldl
          (Dataflow.Graph.addSourceNode region) g).largest
          (.ok ((r.note
            (nodeFindings name.name (seen.map fun x => (x.1, x.2.start)) nodes)).withFlow
              (.ofGraph ((firstBy (·.name.name) (seen.map (·.1)) nodes).foldl
                (Dataflow.Graph.addSourceNode region) g))))
  | [], r, seen, g, hflow, _, hlt, _, _ => by
    rw [resolveNodes, firstBy, List.foldl_nil, nodeFindings, note_nil,
      Overflow.counted_of_reaches (.inr hlt), withFlow, ← hflow]
  | n :: nodes, r, seen, g, hflow, hg, hlt, hregion, hroom => by
    rw [resolveNodes, nodeFindings, find?_eq_lookup, firstBy] at *
    cases hseen : seen.lookup n.name.name with
    | some first =>
      have hmem : n.name.name ∈ seen.map (·.1) := (isSome_lookup_iff ..).mp (by rw [hseen]; rfl)
      rw [if_pos hmem] at hroom ⊢
      have hrest := resolveNodes_eq name nodes
        (r.note [⟨.duplicateNode n.name.name name.name first.start, n.name.span⟩]) seen g hflow hg
        hlt hregion hroom
      rw [note_note] at hrest
      exact hrest
    | none =>
      have hmem : n.name.name ∉ seen.map (·.1) := fun h => by
        have := (isSome_lookup_iff ..).mpr h
        rw [hseen] at this
        cases this
      rw [if_neg hmem, List.foldl_cons] at hroom ⊢
      have hle := largest_le_addSourceNodes region
        (firstBy (·.name.name) (n.name.name :: seen.map (·.1)) nodes) (g.addSourceNode region n)
      have hadded : addNode o r.stored.flow (.ofNat region) n = _ := hflow ▸
        addNode_ofGraph hg hlt hregion n (hroom.imp_right (Nat.lt_of_le_of_lt hle))
      obtain ⟨hbuilt, hregions, -⟩ := hg.addSourceNode hregion n
      refine Overflow.bind_counted hadded hle fun hreaches => ?_
      exact resolveNodes_eq name nodes _ ((n.name.name, n.name.span) :: seen) _ rfl hbuilt
        (hreaches.lt hle hroom) (hregions.symm ▸ hregion) hroom

/-! ## Regions -/

theorem largest_addRegion (g : Dataflow.Graph) (name : String) (span : Span) :
    (g.addRegion name span).1.largest =
      max g.nodes.length (max g.buffers.length (g.regions.length + 1)) := by
  rw [Dataflow.Graph.largest, Dataflow.Graph.addRegion, List.length_append, List.length_singleton]

theorem largest_le_addSourceRegion (g : Dataflow.Graph) (r : Ident × List Source.Node) :
    g.largest ≤ (g.addSourceRegion r).largest := by
  have hnodes := largest_le_addSourceNodes g.regions.length (firstBy (·.name.name) [] r.2)
    (g.addRegion r.1.name r.1.span).1
  refine Nat.le_trans ?_ hnodes
  rw [largest_addRegion, Dataflow.Graph.largest]
  omega

theorem any_name_regions_iff {g : Dataflow.Graph} {name : String} :
    ((Dataflow.Store.ofGraph g).regions.any fun x => x.name = name) ↔
      name ∈ g.regions.map (·.name) := by
  rw [List.any_eq_true, List.mem_map]
  constructor
  · rintro ⟨x, hx, hname⟩
    obtain ⟨i, hi, rfl⟩ := List.mem_mapIdx.mp hx
    exact ⟨_, List.getElem_mem hi, of_decide_eq_true hname⟩
  · rintro ⟨region, hregion, hname⟩
    obtain ⟨i, hi, rfl⟩ := List.mem_iff_getElem.mp hregion
    exact ⟨_, List.mem_mapIdx.mpr ⟨i, hi, rfl⟩, decide_eq_true hname⟩

/-- A region of a name that is taken. -/
theorem resolveRegion_of_mem {g : Dataflow.Graph} (hflow : r.stored.flow = .ofGraph g)
    (name : Ident) (nodes : List Source.Node) (hmem : name.name ∈ g.regions.map (·.name)) :
    r.resolveRegion o name nodes = .ok (r.note [⟨.duplicateRegion name.name, name.span⟩]) := by
  rw [resolveRegion, hflow, if_pos (any_name_regions_iff.mpr hmem)]
  rfl

/-- A region of a new name. -/
theorem resolveRegion_of_not_mem {g : Dataflow.Graph} (hflow : r.stored.flow = .ofGraph g)
    (hg : g.Built) (hlt : g.largest < 2 ^ 32) (name : Ident) (nodes : List Source.Node)
    (hmem : name.name ∉ g.regions.map (·.name))
    (hroom : o = .stops ∨ (g.addSourceRegion (name, nodes)).largest < 2 ^ 32) :
    r.resolveRegion o name nodes = o.counted (g.addSourceRegion (name, nodes)).largest
      (.ok ((r.note (nodeFindings name.name [] nodes)).withFlow
        (.ofGraph (g.addSourceRegion (name, nodes))))) := by
  have hle := largest_le_addSourceNodes g.regions.length (firstBy (·.name.name) [] nodes)
    (g.addRegion name.name name.span).1
  have hadded := Dataflow.Store.addRegion_ofGraph (o := o) (hg.fits hlt) name.name name.span
  have hcount := largest_addRegion g name.name name.span
  obtain ⟨hnodes, hrest⟩ := Nat.max_lt.mp hlt
  obtain ⟨hbuffers, -⟩ := Nat.max_lt.mp hrest
  rw [resolveRegion, hflow, if_neg (any_name_regions_iff.not.mpr hmem)]
  refine Overflow.bind_counted hadded (Nat.le_trans (by omega) hle) fun hreaches => ?_
  have hlargest : (g.addRegion name.name name.span).1.largest < 2 ^ 32 := by
    rw [hcount, Nat.max_lt, Nat.max_lt]
    exact ⟨hnodes, hbuffers, hreaches.lt (Nat.le_trans (by omega) hle) hroom⟩
  have hlast : g.regions.length < (g.addRegion name.name name.span).1.regions.length := by
    rw [Dataflow.Graph.addRegion, List.length_append]
    exact Nat.lt_succ_self _
  exact resolveNodes_eq name nodes _ [] (g.addRegion name.name name.span).1 rfl
    (hg.addRegion name.name name.span) hlargest hlast hroom

end Bankflow.Resolver
