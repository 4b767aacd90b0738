import Bankflow.Compile.State
import Bankflow.Proofs.Dataflow.Certificate

/-!
# Legality of regions as reachability

A node has a level exactly if it is free, and a region is legal if all of its nodes have
levels. So the marks that scheduling and the legality check leave on a graph say which
regions have free nodes only (`Built.legal_iff_forall_free`), on graphs of any size. The
regions that are not marked are those that are reported, each once and in order
(`filterMap_regionFinding?`).
-/

namespace Bankflow.Dataflow.Graph

variable {g : Graph} {options : Options} {n : Nat} {r : Region}

/-! ## Marks -/

/-- Regions hold nodes of the graph. -/
theorem Built.lt_of_mem_region (h : g.Built) :
    ∀ r ∈ g.regions, ∀ n ∈ r.nodes, n < g.nodes.length := by
  induction h with
  | empty => exact fun r hr => absurd hr List.not_mem_nil
  | addRegion _ name span ih =>
    intro r hr
    rcases List.mem_append.mp hr with hr | hr
    · exact ih r hr
    · rw [List.mem_singleton.mp hr]
      exact fun n hn => absurd hn List.not_mem_nil
  | @internBuffer g _ name ih =>
    rcases internBuffer_cases g name with hg | hg
    · rwa [hg]
    · rwa [hg]
  | @addNode g g' region id name inputs outputs span _ ok ih =>
    obtain ⟨-, -, -, hg⟩ := addNode?_eq_ok_iff.mp ok
    have hfst : (g.addNode region name inputs outputs span).1 = g' := congrArg Prod.fst hg
    rw [← hfst]
    intro r hr n hn
    rw [Graph.addNode, List.length_append, List.length_singleton]
    obtain ⟨i, hi⟩ := List.mem_iff_getElem?.mp hr
    rw [Graph.addNode, List.getElem?_modify, Option.map_eq_map, Option.map_eq_some_iff] at hi
    obtain ⟨r₀, hr₀, rfl⟩ := hi
    have hold := ih r₀ (List.mem_of_getElem? hr₀)
    split at hn
    · rcases List.mem_append.mp hn with hn | hn
      · exact Nat.lt_succ_of_lt (hold n hn)
      · rw [List.mem_singleton.mp hn]
        exact Nat.lt_succ_self _
    · exact Nat.lt_succ_of_lt (hold n hn)

/-- Whether a node is free depends on the flow only. -/
theorem free_congr {g' : Graph} (hfeeds : ∀ n m, g'.Feeds n m ↔ g.Feeds n m)
    (hblocked : ∀ n, g'.Blocked n ↔ g.Blocked n) : g'.Free options n ↔ g.Free options n := by
  have hfeeds' : g'.Feeds = g.Feeds := funext fun n => funext fun m => propext (hfeeds n m)
  simp only [Free, Reaches, OnCycle, hfeeds', hblocked]

/-- Scheduling and the legality check leave the flow alone. -/
theorem Built.free_checkLegality_iff (hg : g.Built) (options : Options) :
    ((g.schedule options).1.checkLegality options).1.Free options n ↔ g.Free options n := by
  have h := settling_schedule hg options
  obtain ⟨regions, hregions⟩ := exists_regions_checkLegality (g.schedule options).1 options
  rw [hregions]
  exact free_congr h.feeds_iff h.blocked_iff

/-- A strict check marks every region by whether its nodes have levels. -/
theorem regions_checkLegality (hstrict : options.ignoreViolations = false) :
    (g.checkLegality options).1.regions =
      g.regions.map fun r => { r with legal := g.isLegal r } := by
  rw [checkLegality, if_neg (by rw [hstrict]; exact Bool.false_ne_true)]

/-- When violations are ignored the graph stays as it is. -/
theorem checkLegality_of_ignored (hignored : options.ignoreViolations = true) :
    g.checkLegality options = (g, ⟨false, []⟩) := by
  rw [checkLegality, if_pos hignored]

/-- A region is marked legal exactly if all of its nodes are free. -/
theorem Built.legal_iff_forall_free (hg : g.Built) (hstrict : options.ignoreViolations = false)
    (hr : r ∈ ((g.schedule options).1.checkLegality options).1.regions) :
    r.legal = true ↔
      ∀ n ∈ r.nodes, ((g.schedule options).1.checkLegality options).1.Free options n := by
  rw [regions_checkLegality hstrict] at hr
  obtain ⟨r₀, hr₀, rfl⟩ := List.mem_map.mp hr
  have hlt := hg.lt_of_mem_region r₀ (regions_settle g options ▸ hr₀)
  show ((g.schedule options).1.isLegal r₀ = true) ↔ _
  rw [isLegal, List.all_eq_true]
  refine forall_congr' fun n => forall_congr' fun hn => ?_
  rw [hg.isLevelled_schedule_iff options (hlt n hn), hg.free_checkLegality_iff]

/-- No region is marked when violations are ignored. -/
theorem Built.legal_eq_false_of_ignored (hg : g.Built)
    (hignored : options.ignoreViolations = true) :
    ∀ r ∈ ((g.schedule options).1.checkLegality options).1.regions, r.legal = false := by
  rw [checkLegality_of_ignored hignored]
  show ∀ r ∈ (g.settle options).1.regions, r.legal = false
  rw [regions_settle]
  exact hg.legal_eq_false

/-! ## Reports -/

/-- What is reported of a region that is not legal. -/
def regionFinding (g : Graph) (r : Region) : Finding :=
  ⟨.illegalRegion r.name (g.pendingIn r).length r.nodes.length, r.span⟩

/-- Looking up all positions of a list that satisfy a condition is filtering it. -/
theorem filterMap_filter_range {α β : Type} (p : α → Bool) (f : α → β) :
    ∀ xs : List α,
      ((List.range xs.length).filter fun i => xs[i]?.any p).filterMap (fun i => xs[i]?.map f) =
        (xs.filter p).map f
  | [] => rfl
  | x :: xs => by
    rw [List.length_cons, List.range_succ_eq_map, List.filter_cons, List.filter_cons,
      List.filter_map, List.getElem?_cons_zero, Option.any_some]
    have ih := filterMap_filter_range p f xs
    have htail : List.filterMap (fun i => (x :: xs)[i]?.map f)
        (List.map Nat.succ (List.filter ((fun i => (x :: xs)[i]?.any p) ∘ Nat.succ)
          (List.range xs.length))) = (xs.filter p).map f := by
      rw [List.filterMap_map]
      exact ih
    split
    · rw [List.filterMap_cons, List.getElem?_cons_zero, Option.map_some, List.map_cons, htail]
    · exact htail

/-- The regions that a strict check reports are those that it does not mark. -/
theorem filterMap_regionFinding? (hstrict : options.ignoreViolations = false) :
    (g.checkLegality options).2.illegal.filterMap (g.checkLegality options).1.regionFinding? =
      ((g.checkLegality options).1.regions.filter fun r => !r.legal).map
        (g.checkLegality options).1.regionFinding := by
  have hillegal : (g.checkLegality options).2.illegal =
      (List.range (g.checkLegality options).1.regions.length).filter fun i =>
        (g.checkLegality options).1.regions[i]?.any fun r => !r.legal := by
    rw [regions_checkLegality hstrict, List.length_map, checkLegality,
      if_neg (by rw [hstrict]; exact Bool.false_ne_true)]
    refine List.filter_congr fun i _ => ?_
    rw [List.getElem?_map]
    cases g.regions[i]? with
    | none => rfl
    | some r => rfl
  rw [hillegal, ← filterMap_filter_range]
  refine List.filterMap_congr fun i _ => ?_
  rw [regionFinding?, Option.bind_eq_bind]
  cases (g.checkLegality options).1.regions[i]? with
  | none => rfl
  | some r => rfl

end Bankflow.Dataflow.Graph
