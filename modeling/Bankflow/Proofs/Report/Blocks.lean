import Bankflow.Proofs.Compile.Frame
import Bankflow.Proofs.Dataflow.Legality
import Bankflow.Proofs.Design.Resolved
import Bankflow.Report.Text

/-!
# The blocks of the levels text

The levels text has a block for every region. It finds the nodes of a block by the name of
the region, while the region keeps a list of their numbers. The two agree: no two regions
have the same name, and the list has the nodes that say they are in the region, in the order
of all nodes (`filter_nodeReports`). The lists of all regions hold every number once
(`perm_flatMap_nodes`).

Names and lists of nodes are those of the declarations (`outline_graphOf`), and no pass
changes them (`outline_of_bare_eq`). So the text lists each node once, in the block of its
region (`levels_list_each_node_once`).
-/

namespace Bankflow

open Source hiding Node

namespace Dataflow

/-- Looking up the listed places of a list is filtering it. -/
theorem Enumerates.filterMap_getElem? {α : Type} {xs : List α} {p : α → Bool} {ids : List Nat}
    (h : Enumerates ids fun i => ∃ x, xs[i]? = some x ∧ p x = true) :
    ids.filterMap (xs[·]?) = xs.filter p := by
  have hids : ids = (List.range xs.length).filter fun i => xs[i]?.any p := by
    refine List.SortedLT.eq_of_mem_iff h.ascending.sortedLT
      (List.pairwise_lt_range.filter _).sortedLT fun i => ?_
    rw [h.mem_iff, List.mem_filter, List.mem_range, Option.any_eq_true, and_iff_right_of_imp]
    rintro ⟨x, hx, -⟩
    exact (List.getElem?_eq_some_iff.mp hx).1
  have hlookup := Graph.filterMap_filter_range p id xs
  rw [← hids, List.map_id] at hlookup
  simpa only [Option.map_id_fun, id] using hlookup

namespace Graph

variable {g g' : Graph} {i : Nat} {r : Region}

/-! ## Blocks -/

/-- The nodes that a region lists. -/
def nodesOf (g : Graph) (r : Region) : List Node := r.nodes.filterMap (g.nodes[·]?)

/-- The block of a region, with the nodes that it lists at the levels that they have. -/
def block (g : Graph) (ignored : Bool) (r : Region) : List String :=
  ("region " ++ r.name ++ " (" ++
      (if ignored then "unchecked" else if r.legal then "legal" else "illegal") ++ ")") ::
    (g.nodesOf r).map fun n =>
      "  " ++ n.name ++ n.level.elim " unscheduled" (" level " ++ toString ·)

theorem RegionsListed.nodesOf_eq (h : g.RegionsListed) (hr : g.regions[i]? = some r) :
    g.nodesOf r = g.nodes.filter (·.region = i) := by
  refine Enumerates.filterMap_getElem? ((h.listed i r hr).congr fun n => ?_)
  simp only [BelongsTo, decide_eq_true_eq]

/-- Where regions have names of their own, those of nodes tell their regions. -/
theorem regionName_eq_iff (hnames : (g.regions.map (·.name)).Nodup) (hr : g.regions[i]? = some r)
    {k : Nat} (hk : k < g.regions.length) : g.regionName k = r.name ↔ k = i := by
  have hname : g.regionName k = g.regions[k].name := by
    rw [regionName, List.getElem?_eq_getElem hk]
  obtain ⟨hi, rfl⟩ := List.getElem?_eq_some_iff.mp hr
  rw [hname]
  constructor
  · intro h
    refine (List.getElem?_inj (by simpa using hk) hnames).mp ?_
    simpa [hk, hi] using h
  · rintro rfl
    rfl

/-- The nodes that name a region are those that it lists. -/
theorem filter_nodeReports (h : g.RegionsListed) (hnames : (g.regions.map (·.name)).Nodup)
    (hr : g.regions[i]? = some r) : g.nodeReports.filter (·.region = r.name) =
      (g.nodesOf r).map fun n => ⟨n.name, r.name, n.level⟩ := by
  have hiff : ∀ n ∈ g.nodes, g.regionName n.region = r.name ↔ n.region = i := by
    intro n hn
    obtain ⟨k, hk⟩ := List.mem_iff_getElem?.mp hn
    exact regionName_eq_iff hnames hr (h.lt k _ ⟨n, hk, rfl⟩)
  have hfilter : g.nodes.filter (fun n => g.regionName n.region = r.name) =
      g.nodes.filter (·.region = i) :=
    List.filter_congr fun n hn => decide_eq_decide.mpr (hiff n hn)
  rw [nodeReports, List.filter_map, h.nodesOf_eq hr]
  refine (congrArg (List.map _) hfilter).trans (List.map_congr_left fun n hn => ?_)
  obtain ⟨hn, hregion⟩ := List.mem_filter.mp hn
  rw [(hiff n hn).mpr (of_decide_eq_true hregion)]

/-- The regions list every node once. -/
theorem Consistent.perm_flatMap_nodes (h : g.Consistent) :
    (g.regions.flatMap (·.nodes)).Perm (List.range g.nodes.length) := by
  refine (List.perm_ext_iff_of_nodup (List.nodup_flatMap.mpr ⟨fun r hr => ?_, ?_⟩)
    List.nodup_range).mpr fun n => ?_
  · obtain ⟨i, hi⟩ := List.mem_iff_getElem?.mp hr
    exact (h.regions.listed i r hi).ascending.nodup
  · -- a node in the lists of two regions would be in both
    refine List.pairwise_iff_getElem.mpr fun i j hi hj hij n hni hnj => ?_
    obtain ⟨x, hx, rfl⟩ :=
      ((h.regions.listed i _ (List.getElem?_eq_getElem hi)).mem_iff n).mp hni
    obtain ⟨y, hy, rfl⟩ :=
      ((h.regions.listed j _ (List.getElem?_eq_getElem hj)).mem_iff n).mp hnj
    rw [hx, Option.some.injEq] at hy
    exact absurd hij (hy ▸ Nat.lt_irrefl _)
  · rw [List.mem_flatMap, List.mem_range]
    constructor
    · rintro ⟨r, hr, hn⟩
      obtain ⟨i, hi⟩ := List.mem_iff_getElem?.mp hr
      exact BelongsTo.lt (((h.regions.listed i r hi).mem_iff n).mp hn)
    · intro hn
      obtain ⟨i, ⟨r, hr, hmem⟩, -⟩ := h.existsUnique_region hn
      exact ⟨r, List.mem_of_getElem? hr, hmem⟩

/-! ## Outlines -/

/-- The names of the regions, with those of the nodes that they list. -/
def outline (g : Graph) : List (String × List String) :=
  g.regions.map fun r => (r.name, (g.nodesOf r).map (·.name))

theorem outline_bare (g : Graph) : g.bare.outline = g.outline := by
  rw [outline, bare, List.map_map]
  refine List.map_congr_left fun r _ => ?_
  simp only [Function.comp_apply, nodesOf, Region.bare, List.getElem?_map, Prod.mk.injEq, true_and,
    List.map_filterMap, Option.map_map]
  rfl

theorem outline_of_bare_eq (h : g'.bare = g.bare) : g'.outline = g.outline := by
  rw [← outline_bare, h, outline_bare]

theorem map_name_regions_eq (g : Graph) : g.regions.map (·.name) = g.outline.map (·.1) := by
  rw [outline, List.map_map]
  rfl

theorem mem_outline (hr : r ∈ g.regions) : (r.name, (g.nodesOf r).map (·.name)) ∈ g.outline :=
  List.mem_map_of_mem hr

end Graph

end Dataflow

/-- Regions and nodes that are declared once are all there, in their order. -/
theorem outline_graphOf {rs : List (Ident × List Source.Node)} (hrs : (rs.map (·.1.name)).Nodup)
    (hnodes : ∀ r ∈ rs, (r.2.map (·.name.name)).Nodup) :
    (graphOf rs).outline = rs.map fun r => (r.1.name, r.2.map (·.name.name)) := by
  have hnamed := named_graphOf rs
  rw [firstBy_eq_self (.of_nodup hrs),
    List.map_congr_left fun r hr => RegionNames.kept_eq_of (hnodes r hr)] at hnamed
  have hnames : ∀ (r : Dataflow.Region) (n : RegionNames), (graphOf rs).RegionNamed r n →
      (n.name, n.nodes.map (·.name)) = (r.name, ((graphOf rs).nodesOf r).map (·.name)) := by
    intro r n hr
    have hlisted := congrArg (List.filterMap id) hr.map_name_nodes
    rw [hr.name_eq, Dataflow.Graph.nodesOf, List.map_filterMap]
    simpa [List.filterMap_map] using hlisted.symm
  have houtline := map_eq_map_of_forall₂ (List.Forall₂.imp hnames hnamed)
  rw [Dataflow.Graph.outline, ← houtline, List.map_map]
  refine List.map_congr_left fun r _ => ?_
  simp [RegionNames.of, NodeNames.of]

/-! ## The text -/

/-- The last line of the levels text. -/
def ScheduleReport.summary (s : ScheduleReport) : String :=
  toString s.rounds ++ " round(s), " ++
    if s.complete then "all nodes scheduled" else "some nodes unscheduled"

/-- The report on a region. -/
def Dataflow.Graph.regionReport (g : Dataflow.Graph) (evaluated : Bool) (r : Dataflow.Region) :
    RegionReport :=
  ⟨r.name, if evaluated then some r.legal else none, (g.nodesOf r).map (·.name)⟩

theorem ScheduleReport.regions_of (g : Dataflow.Graph) (options : Options)
    (schedule : Dataflow.Schedule) (l : Dataflow.Legality) :
    (of g options schedule (some l)).regions = g.regions.map (g.regionReport l.evaluated) := rfl

theorem ScheduleReport.nodeLine_eq (n : NodeReport) : nodeLine n =
    "  " ++ n.name ++ n.level.elim " unscheduled" (" level " ++ toString ·) := by
  rw [nodeLine]
  cases n.level with
  | some l => simp only [Option.elim_some, String.append_assoc]
  | none => simp only [Option.elim_none, String.append_assoc]

/-- What is written for a region is its block. -/
theorem ScheduleReport.regionLines_eq {s : ScheduleReport} {g : Dataflow.Graph}
    (hs : s.nodes = g.nodeReports) (hg : g.RegionsListed)
    (hnames : (g.regions.map (·.name)).Nodup) (ignored : Bool) {r : Dataflow.Region}
    (hr : r ∈ g.regions) : s.regionLines (g.regionReport (!ignored) r) = g.block ignored r := by
  obtain ⟨i, hi⟩ := List.mem_iff_getElem?.mp hr
  have hmark : legalText (if !ignored then some r.legal else none) =
      if ignored then "unchecked" else if r.legal then "legal" else "illegal" := by
    cases ignored <;> cases r.legal <;> rfl
  rw [regionLines, Dataflow.Graph.regionReport, hmark, hs,
    Dataflow.Graph.filter_nodeReports hg hnames hi, List.map_map, Dataflow.Graph.block]
  exact congrArg (List.cons _) (List.map_congr_left fun n _ => nodeLine_eq _)

theorem legalText_eq_unchecked_iff (ignored legal : Bool) :
    ScheduleReport.legalText (if !ignored then some legal else none) = "unchecked" ↔
      ignored = true := by
  cases ignored <;> cases legal <;> decide

/-- A program with a schedule has no errors, and the schedule was checked, unless violations
are ignored. -/
theorem State.exists_legality_of_schedule {p : Program} {overrides : Options} {target : Target}
    {schedule : Dataflow.Schedule}
    (h : ((start p overrides).run target.passes).state.schedule = some schedule) :
    p.WellFormed ∧ ∃ l, ((start p overrides).run target.passes).state.legality = some l ∧
      l.evaluated = !((start p overrides).run target.passes).state.options.ignoreViolations := by
  constructor
  · refine Program.wellFormed_iff_clean.mpr (Clean.iff_any.mpr (Bool.eq_false_iff.mpr ?_))
    intro herr
    rw [state_run_of_errors overrides target.passes_ne_nil herr] at h
    cases h
  · have hkept := (kept_run p overrides target.passes_ne_nil).1
    have hlegality := isSome_legality_of_isSome_schedule p overrides target (by rw [h]; rfl)
    obtain ⟨l, hl⟩ := Option.isSome_iff_exists.mp hlegality
    refine ⟨l, hl, ?_⟩
    rw [hkept.options_eq]
    exact hkept.evaluated_eq l hl

/-- A run keeps the outline of a well formed program. -/
theorem State.outline_run {p : Program} {overrides : Options} {terminals : List Pass} {d : Design}
    (ht : terminals ≠ []) (hp : p.WellFormed)
    (hd : ((start p overrides).run terminals).state.design = some d) :
    d.graph.Consistent ∧ d.graph.outline =
      (p.statements.filterMap (·.region?)).map fun x => (x.1.name, x.2.map (·.name.name)) := by
  obtain ⟨d', hd', hbare⟩ := (kept_run p overrides ht).1.design
  rw [hd, Option.some.injEq] at hd'
  subst hd'
  constructor
  · exact (Design.built_ofProgram p).consistent.of_bare_eq hbare
  · rw [Dataflow.Graph.outline_of_bare_eq hbare]
    exact outline_graphOf hp.statements.regions.nodup hp.statements.nodes

/-- A schedule is reported on once there is a design. -/
theorem State.exists_report_of_schedule {st : State} {d : Design} {schedule : Dataflow.Schedule}
    (hd : st.design = some d) (hs : st.schedule = some schedule) :
    ∃ r s, st.report? = some r ∧ r.schedule = some s := by
  rw [report?, hd, hs]
  exact ⟨_, _, rfl, rfl⟩

/-- The levels text lists every node once. For every source with a section on the schedule,
the text has a block for each region, in the order of the declarations, and a last line. The
nodes of a block are those that the region lists, as its report names them, each once and at
the level that it has. The lists of all regions together are all nodes. A block says that its
region was not checked exactly if violations are ignored. -/
theorem levels_list_each_node_once (source : String) (overrides : Options) (target : Target)
    (r : Report) (s : ScheduleReport)
    (hreport : (compile source overrides target).report? = some r) (hs : r.schedule = some s) :
    let ignored := (compile source overrides target).options.ignoreViolations
    ∃ p d, (parse source).program = some p ∧
      (compile source overrides target).design = some d ∧
      r.levelsText = unlines (d.graph.regions.flatMap (d.graph.block ignored) ++ [s.summary]) ∧
      s.regions.map (fun x => (x.name, x.nodes)) =
        (p.statements.filterMap (·.region?)).map (fun x => (x.1.name, x.2.map (·.name.name))) ∧
      List.Forall₂ (fun x region => s.regionLines x = d.graph.block ignored region ∧
        x.nodes = (d.graph.nodesOf region).map (·.name) ∧ x.nodes.Nodup ∧
        (ScheduleReport.legalText x.legal = "unchecked" ↔ ignored = true))
        s.regions d.graph.regions ∧
      (d.graph.regions.flatMap (·.nodes)).Perm (List.range d.graph.nodes.length) := by
  have htext : r.levelsText = unlines (s.regions.flatMap s.regionLines ++ [s.summary]) := by
    rw [Report.levelsText, hs]
    rfl
  rcases compile_cases source overrides with ⟨p, hp, hcompile⟩ | hunparsed
  · rw [hcompile target] at hreport ⊢
    obtain ⟨d, hd, rfl⟩ := Option.map_eq_some_iff.mp hreport
    obtain ⟨schedule, hschedule, rfl⟩ := Option.map_eq_some_iff.mp hs
    obtain ⟨hp', l, hl, hevaluated⟩ := State.exists_legality_of_schedule hschedule
    obtain ⟨hgraph, houtline⟩ := State.outline_run target.passes_ne_nil hp' hd
    intro ignored
    have hnames : (d.graph.regions.map (·.name)).Nodup := by
      rw [Dataflow.Graph.map_name_regions_eq, houtline, List.map_map]
      exact hp'.statements.regions.nodup
    have hnodes : ∀ region ∈ d.graph.regions, ((d.graph.nodesOf region).map (·.name)).Nodup := by
      intro region hregion
      have hmem := Dataflow.Graph.mem_outline hregion
      rw [houtline] at hmem
      obtain ⟨x, hx, heq⟩ := List.mem_map.mp hmem
      rw [← (Prod.mk.inj heq).2]
      exact hp'.statements.nodes x hx
    generalize hs' : ScheduleReport.of d.graph _ schedule _ = s at htext ⊢
    have hregions : s.regions = d.graph.regions.map (d.graph.regionReport (!ignored)) := by
      rw [← hs', hl, ScheduleReport.regions_of, hevaluated]
    have hlines : ∀ region ∈ d.graph.regions,
        s.regionLines (d.graph.regionReport (!ignored) region) = d.graph.block ignored region :=
      fun region => s.regionLines_eq (hs' ▸ rfl) hgraph.regions hnames ignored
    refine ⟨p, d, hp, hd, ?_, ?_, ?_, hgraph.perm_flatMap_nodes⟩
    · rw [htext, hregions, List.flatMap_map, List.flatMap_congr hlines]
    · rw [hregions, ← houtline, List.map_map]
      rfl
    · rw [hregions, List.forall₂_map_left_iff, List.forall₂_same]
      exact fun region hregion => ⟨hlines region hregion, rfl, hnodes region hregion,
        legalText_eq_unchecked_iff ignored region.legal⟩
  · rw [hunparsed target] at hreport
    cases hreport

/-- Two regions with a node of the same name, and a buffer that two nodes read. -/
def twoStages : String :=
  "region r \x7bnode a()->(x)\x7d\nregion s \x7bnode a(x)\nnode b(x)\x7d"

theorem twoStages_lists_each_node_once :
    ∃ r s d, (compile twoStages {} .levels).report? = some r ∧ r.schedule = some s ∧
      (compile twoStages {} .levels).design = some d ∧
      d.graph.regions.map (fun region => (region.name, region.legal, region.nodes)) =
        [("r", false, [0]), ("s", true, [1, 2])] ∧
      r.levelsText = unlines (["region r (illegal)", "  a unscheduled", "region s (legal)",
        "  a level 0", "  b level 0"] ++ [s.summary]) ∧
      (d.graph.regions.flatMap (·.nodes)).Perm (List.range d.graph.nodes.length) := by
  have hstrict : (compile twoStages {} .levels).options.ignoreViolations = false := by
    decide +kernel
  have hschedule : (compile twoStages {} .levels).schedule.isSome = true := by decide +kernel
  have hdesign : ((compile twoStages {} .levels).design.map fun d =>
      (d.graph.regions.map fun region => (region.name, region.legal, region.nodes),
        d.graph.regions.flatMap (d.graph.block false))) =
      some ([("r", false, [0]), ("s", true, [1, 2])], ["region r (illegal)", "  a unscheduled",
        "region s (legal)", "  a level 0", "  b level 0"]) := by
    decide +kernel
  obtain ⟨schedule, hschedule⟩ := Option.isSome_iff_exists.mp hschedule
  obtain ⟨d, hd, hlists⟩ := Option.map_eq_some_iff.mp hdesign
  obtain ⟨hregions, hblocks⟩ := Prod.mk.inj hlists
  obtain ⟨r, s, hreport, hs⟩ := State.exists_report_of_schedule hd hschedule
  obtain ⟨p, d', -, hd', htext, -, -, hall⟩ :=
    levels_list_each_node_once twoStages {} .levels r s hreport hs
  rw [hd, Option.some.injEq] at hd'
  subst hd'
  rw [hstrict, hblocks] at htext
  exact ⟨r, s, d, hreport, hs, hd, hregions, htext, hall⟩

end Bankflow
