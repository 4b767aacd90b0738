import Bankflow.Proofs.Compile.Independence
import Bankflow.Proofs.Dataflow.History

/-!
# What every run keeps

A run may stop after any of its passes, but each pass leaves most of the state alone. After
resolving, the program and the options stay as they are, and the graph changes in its levels
and marks only (`Kept`). What the other passes find is at nodes, at regions or at the program
as a whole (`FoundAt`).

One pass keeps this (`Kept.runPass?`), so every run does (`runAll_induction`, `kept_run`),
wherever it stops. No run stops between the schedule and its check
(`isSome_legality_of_isSome_schedule`).
-/

namespace Bankflow

variable {p : Source.Program} {overrides options : Options}

/-- What passes after resolving find: blocked nodes and illegal regions, each where it is
declared, and results that do not pass their checks. -/
inductive FoundAt (p : Source.Program) : Finding → Prop where
  | node (x : Dataflow.Node) (hx : x ∈ (Design.ofProgram p).graph.nodes)
      (buffer : String) (producers consumers : Nat) :
    FoundAt p ⟨.blockedNode x.name buffer producers consumers, x.span⟩
  | region (r : Dataflow.Region) (hr : r ∈ (Design.ofProgram p).graph.regions)
      (pending total : Nat) :
    FoundAt p ⟨.illegalRegion r.name pending total, r.span⟩
  | whole (issue : Issue) (h : issue.IsInternal) : FoundAt p ⟨issue, p.span⟩

namespace Dataflow.Graph

variable {g g' : Graph}

/-- Graphs that are the same but for levels and marks have nodes at the same places. -/
theorem exists_mem_nodes_of_bare_eq (h : g'.bare = g.bare) {x : Node} (hx : x ∈ g'.nodes) :
    ∃ y ∈ g.nodes, y.name = x.name ∧ y.span = x.span := by
  have hmem : x.bare ∈ g.bare.nodes := h ▸ List.mem_map_of_mem hx
  obtain ⟨y, hy, hbare⟩ := List.mem_map.mp hmem
  have hname : y.bare.name = x.bare.name := by rw [hbare]
  have hspan : y.bare.span = x.bare.span := by rw [hbare]
  exact ⟨y, hy, hname, hspan⟩

theorem exists_mem_regions_of_bare_eq (h : g'.bare = g.bare) {r : Region} (hr : r ∈ g'.regions) :
    ∃ s ∈ g.regions, s.name = r.name ∧ s.span = r.span := by
  have hmem : r.bare ∈ g.bare.regions := h ▸ List.mem_map_of_mem hr
  obtain ⟨s, hs, hbare⟩ := List.mem_map.mp hmem
  have hname : s.bare.name = r.bare.name := by rw [hbare]
  have hspan : s.bare.span = r.bare.span := by rw [hbare]
  exact ⟨s, hs, hname, hspan⟩

end Dataflow.Graph

namespace State

/-- What every pass after resolving keeps. -/
structure Kept (p : Source.Program) (options : Options) (s : State) : Prop where
  program_eq : s.program = p
  options_eq : s.options = options
  design : ∃ d, s.design = some d ∧ d.graph.bare = (Design.ofProgram p).graph.bare
  evaluated_eq : ∀ l, s.legality = some l → l.evaluated = !options.ignoreViolations

theorem Kept.record {s : State} (h : s.Kept p options) (q : Pass) (found : List Finding) :
    (s.record q found).Kept p options :=
  ⟨h.program_eq, h.options_eq, h.design, h.evaluated_eq⟩

theorem Kept.fail {s : State} (h : s.Kept p options) :
    ({ s with failed := true } : State).Kept p options :=
  ⟨h.program_eq, h.options_eq, h.design, h.evaluated_eq⟩

/-! ## One pass -/

theorem foundAt_of_mem_certificateFindings {c : Certificate} {issue : List String → Issue}
    (hissue : ∀ fs, (issue fs).IsInternal) {f : Finding}
    (hf : f ∈ certificateFindings c issue p.span) : FoundAt p f := by
  unfold certificateFindings at hf
  split at hf
  · exact absurd hf List.not_mem_nil
  · rw [List.mem_singleton.mp hf]
    exact .whole _ (hissue _)

theorem foundAt_of_violationFinding? {g : Dataflow.Graph}
    (hg : g.bare = (Design.ofProgram p).graph.bare) {v : Nat × Nat} {f : Finding}
    (hf : g.violationFinding? v = some f) : FoundAt p f := by
  simp only [Dataflow.Graph.violationFinding?, Option.bind_eq_bind, Option.bind_eq_some_iff] at hf
  obtain ⟨x, hx, b, -, hf⟩ := hf
  cases hf
  obtain ⟨y, hy, hname, hspan⟩ :=
    Dataflow.Graph.exists_mem_nodes_of_bare_eq hg (List.mem_of_getElem? hx)
  rw [← hname, ← hspan]
  exact .node y hy _ _ _

theorem foundAt_of_regionFinding? {g : Dataflow.Graph}
    (hg : g.bare = (Design.ofProgram p).graph.bare) {i : Nat} {f : Finding}
    (hf : g.regionFinding? i = some f) : FoundAt p f := by
  simp only [Dataflow.Graph.regionFinding?, Option.bind_eq_bind, Option.bind_eq_some_iff] at hf
  obtain ⟨r, hr, hf⟩ := hf
  cases hf
  obtain ⟨s, hs, hname, hspan⟩ :=
    Dataflow.Graph.exists_mem_regions_of_bare_eq hg (List.mem_of_getElem? hr)
  rw [← hname, ← hspan]
  exact .region s hs _ _

theorem evaluated_checkLegality (g : Dataflow.Graph) (options : Options) :
    (g.checkLegality options).2.evaluated = !options.ignoreViolations := by
  unfold Dataflow.Graph.checkLegality
  cases options.ignoreViolations <;> rfl

/-- What a pass does after resolving. -/
theorem Kept.runPass? {s s' : State} {q : Pass} {found : List Finding} (h : s.Kept p options)
    (hq : q ≠ .resolve) (hrun : s.runPass? q = some (s', found)) :
    s'.Kept p options ∧ ∀ f ∈ found, FoundAt p f := by
  obtain ⟨rfl, rfl, ⟨d, hd, hgraph⟩, hevaluated⟩ := h
  cases q with
  | resolve => exact absurd rfl hq
  | bank =>
    rw [State.runPass?, hd] at hrun
    cases hrun
    refine ⟨⟨rfl, rfl, ⟨_, rfl, ?_⟩, hevaluated⟩, fun f hf => ?_⟩
    · exact (congrArg Dataflow.Graph.bare (Design.graph_install _ d)).trans hgraph
    · exact foundAt_of_mem_certificateFindings .uncertifiedBanking hf
  | schedule =>
    rw [State.runPass?, hd] at hrun
    cases hrun
    have hbare : (d.graph.schedule s.options).1.bare = (Design.ofProgram s.program).graph.bare :=
      (d.graph.bare_sweep (.schedule s.options)).trans hgraph
    refine ⟨⟨rfl, rfl, ⟨_, rfl, hbare⟩, hevaluated⟩, fun f hf => ?_⟩
    obtain ⟨v, -, hv⟩ := List.mem_filterMap.mp hf
    exact foundAt_of_violationFinding? hbare hv
  | legality =>
    rw [State.runPass?, hd] at hrun
    cases hrun
    have hbare : (d.graph.checkLegality s.options).1.bare =
        (Design.ofProgram s.program).graph.bare :=
      (d.graph.bare_sweep (.checkLegality s.options)).trans hgraph
    refine ⟨⟨rfl, rfl, ⟨_, rfl, hbare⟩, fun l hl => ?_⟩, fun f hf => ?_⟩
    · cases hl
      exact evaluated_checkLegality d.graph s.options
    · rcases List.mem_append.mp hf with hf | hf
      · obtain ⟨i, -, hi⟩ := List.mem_filterMap.mp hf
        exact foundAt_of_regionFinding? hbare hi
      · exact foundAt_of_mem_certificateFindings .uncertifiedSchedule hf

/-! ## Whole runs -/

/-- What passes keep, and what the mark of a failed run does not change, is kept by runs of
these passes. -/
theorem runAll_induction {P : State → Prop} (hdesign : ∀ {s}, P s → s.design.isSome = true)
    (hfailed : ∀ {s}, P s → P { s with failed := true }) :
    ∀ {qs : List Pass} {s : State},
      (∀ {s s' q found}, q ∈ qs → P s → s.runPass? q = some (s', found) →
        P (s'.record q found)) → P s → P (s.runAll qs).state
  | [], _, _, hs => hs
  | q :: qs, s, hpass, hs => by
    obtain ⟨s', found, hrun⟩ := exists_runPass?_of_isSome (hdesign hs) q
    have hs' := hpass List.mem_cons_self hs hrun
    cases herr : found.any Finding.isError with
    | true =>
      rw [runAll_cons_of_isError hrun herr]
      exact hfailed hs'
    | false =>
      rw [runAll_cons hrun herr]
      exact runAll_induction hdesign hfailed
        (fun hq => hpass (List.mem_cons_of_mem _ hq)) hs'

/-- A run keeps what passes keep, and all that it finds is found in the program or by one of
its passes. -/
theorem kept_run (p : Source.Program) (overrides : Options) {terminals : List Pass}
    (ht : terminals ≠ []) :
    ((start p overrides).run terminals).state.Kept p (p.optionsUnder overrides) ∧
      ∀ f ∈ ((start p overrides).run terminals).state.findings,
        f ∈ Bankflow.findings p ∨ FoundAt p f := by
  obtain ⟨rest, hrest⟩ := Pass.exists_required_eq ht
  have hnodup := Pass.nodup_required terminals
  rw [hrest] at hnodup
  have hstart : ((start p overrides).runResolve.1.record .resolve (Bankflow.findings p)).Kept p
      (p.optionsUnder overrides) := ⟨rfl, rfl, ⟨_, rfl, rfl⟩, fun l hl => nomatch hl⟩
  rw [run, hrest]
  cases herr : (Bankflow.findings p).any Finding.isError with
  | true =>
    rw [runAll_cons_of_isError (runPass?_resolve p overrides) herr]
    exact ⟨hstart.fail, fun f hf => .inl hf⟩
  | false =>
    rw [runAll_cons (runPass?_resolve p overrides) herr]
    refine runAll_induction (P := fun s => s.Kept p (p.optionsUnder overrides) ∧
      ∀ f ∈ s.findings, f ∈ Bankflow.findings p ∨ FoundAt p f) ?_ ?_ ?_
      ⟨hstart, fun f hf => .inl hf⟩
    · intro s hs
      obtain ⟨d, hd, -⟩ := hs.1.design
      rw [hd, Option.isSome_some]
    · intro s hs
      exact ⟨hs.1.fail, hs.2⟩
    · intro s s' q found hq hs hrun
      have hne : q ≠ .resolve := by
        rintro rfl
        exact (List.nodup_cons.mp hnodup).1 hq
      obtain ⟨hkept, hfound⟩ := hs.1.runPass? hne hrun
      refine ⟨hkept.record q found, ?_⟩
      show ∀ f ∈ s'.findings ++ found, _
      rw [(runPass?_keeps hrun).2.1]
      exact List.forall_mem_append.mpr ⟨hs.2, fun f hf => .inr (hfound f hf)⟩

/-! ## The schedule and its check -/

/-- The passes of each target, in their order. -/
theorem required_passes (target : Target) : Pass.required target.passes =
    match target with
    | .layout => [.resolve, .bank]
    | .levels => [.resolve, .schedule, .legality]
    | .design | .report | .json => [.resolve, .bank, .schedule, .legality] := by
  cases target <;> simp [Target.passes, Pass.required, Pass.chain_eq, Pass.inputs, Pass.addNew]

/-- A pass of a target that comes after the schedule is the one that checks it. -/
theorem eq_legality_of_schedule_mem {target : Target} {before rest : List Pass} {q : Pass}
    (h : Pass.required target.passes = before ++ q :: rest) (hs : .schedule ∈ before) :
    q = .legality := by
  rw [required_passes] at h
  have hbefore : before <+: before ++ q :: rest := List.prefix_append _ _
  rw [← h] at hbefore
  cases target <;> simp only [List.prefix_cons_iff, List.prefix_nil] at hbefore <;> grind

/-- A schedule is made with no errors. -/
theorem not_erroneous_schedule {s s' : State} {found : List Finding}
    (h : s.runPass? .schedule = some (s', found)) : ¬ Erroneous found := by
  obtain ⟨d, -, h⟩ := Option.map_eq_some_iff.mp h
  cases h
  intro herr
  obtain ⟨f, hf, herror⟩ := List.any_eq_true.mp herr
  obtain ⟨v, -, hv⟩ := List.mem_filterMap.mp hf
  rw [Dataflow.Graph.isError_violationFinding? hv] at herror
  cases herror

/-- Every target that asks for a schedule has it checked, by the pass right after it. -/
theorem isSome_legality_of_isSome_schedule (p : Source.Program) (overrides : Options)
    (target : Target)
    (h : ((start p overrides).run target.passes).state.schedule.isSome = true) :
    ((start p overrides).run target.passes).state.legality.isSome = true := by
  obtain ⟨haccounted, hpasses, -, hends⟩ := records_run p overrides target.passes
  have hschedule := (haccounted.hasResult_iff .schedule).mp h
  refine (haccounted.hasResult_iff .legality).mpr ?_
  rw [hpasses] at hschedule ⊢
  cases hends with
  | finished _ _ heq _ =>
    rw [heq, required_passes] at hschedule ⊢
    cases target <;> simp_all [start]
  | stopped before q found rest _ _ hevents heq _ herr =>
    have hq : q ≠ .schedule := by
      rintro rfl
      have hmem : (.schedule, found) ∈ ((start p overrides).run target.passes).events :=
        hevents ▸ List.mem_append_right before List.mem_cons_self
      obtain ⟨s, s', hrun⟩ := exists_runPass?_of_mem_events hmem
      exact not_erroneous_schedule hrun herr
    rw [hevents, List.map_append, List.mem_append, List.mem_append] at hschedule
    have hbefore := (hschedule.resolve_left List.not_mem_nil).resolve_right fun h =>
      hq (List.mem_singleton.mp h).symm
    rw [hevents, eq_legality_of_schedule_mem heq.symm hbefore, List.map_append]
    exact List.mem_append_right _ (List.mem_append_right _ List.mem_cons_self)

end State

end Bankflow
