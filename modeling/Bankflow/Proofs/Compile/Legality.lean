import Bankflow.Proofs.Compile.Run
import Bankflow.Proofs.Dataflow.Legality
import Bankflow.Proofs.Dataflow.Violations

/-!
# What compiling says about the legality of regions

A source that compiles went through all passes that its target asks for, and its findings
are those of the program and the warnings of the passes (`State.Reached.findings_eq`). Of
these, scheduling alone warns of blocked nodes and the legality check alone of illegal
regions (`filter_code_warnings`).

So the marks and warnings of a compiled source say exactly which regions lead to a cycle
or a contested buffer (`regions_legal_iff_flow_free`).
-/

namespace Bankflow

variable {p : Source.Program} {options : Options}

/-! ## Sources that compile -/

/-- A source that compiles has a program without errors, on which the passes were run to
the end. -/
theorem reached_of_compile {source : String} {overrides : Options} {target : Target}
    (hok : (compile source overrides target).failed = false) :
    ∃ p, (Source.parse source).program = some p ∧
      State.Reached p ((Options.ofProgram p).layered overrides) (Pass.required target.passes)
        (compile source overrides target) := by
  unfold compile at hok ⊢
  dsimp only at hok ⊢
  split at hok
  · next p hp herrors =>
    refine ⟨p, hp, ?_⟩
    have herr : (findings p).any Finding.isError = false := by
      refine Bool.eq_false_iff.mpr fun herr => ?_
      rw [State.failed_run_of_errors overrides target.passes_ne_nil herr] at hok
      cases hok
    exact (State.reached_run overrides target.passes_ne_nil herr (.inr hok)).2
  · cases hok

/-! ## Warnings by code -/

theorem Issue.IsOwn.code_ne {i : Issue} (h : i.IsOwn) :
    i.code ≠ some "W0200" ∧ i.code ≠ some "W0201" := by
  cases i <;> first | exact absurd h id | simp [code]

namespace Dataflow.Graph

theorem code_violationFinding? {g : Graph} {v : Nat × Nat} {f : Finding}
    (h : g.violationFinding? v = some f) : f.diagnostic.code = some "W0200" := by
  simp only [violationFinding?, Option.bind_eq_bind, Option.bind_eq_some_iff] at h
  obtain ⟨n, -, b, -, h⟩ := h
  cases h
  rfl

theorem code_regionFinding? {g : Graph} {region : Nat} {f : Finding}
    (h : g.regionFinding? region = some f) : f.diagnostic.code = some "W0201" := by
  simp only [regionFinding?, Option.bind_eq_bind, Option.bind_eq_some_iff] at h
  obtain ⟨r, -, h⟩ := h
  cases h
  rfl

/-- The code of the warnings of a pass. -/
theorem code_of_mem_warnings {g : Graph} {q : Pass} {f : Finding} (h : f ∈ g.warnings options q) :
    q = .schedule ∧ f.diagnostic.code = some "W0200" ∨
      q = .legality ∧ f.diagnostic.code = some "W0201" := by
  cases q with
  | resolve => cases h
  | bank => cases h
  | schedule =>
    obtain ⟨v, -, hv⟩ := List.mem_filterMap.mp h
    exact .inl ⟨rfl, code_violationFinding? hv⟩
  | legality =>
    obtain ⟨r, -, hr⟩ := List.mem_filterMap.mp h
    exact .inr ⟨rfl, code_regionFinding? hr⟩

/-- Among the warnings of all passes, those of illegal regions are the ones of the
legality check. -/
theorem filter_code_warnings {g : Graph} :
    ∀ {done : List Pass}, done.Nodup → .legality ∈ done →
      (done.flatMap (g.warnings options)).filter (·.diagnostic.code = some "W0201") =
        g.warnings options .legality := by
  have hnone : ∀ {done : List Pass}, .legality ∉ done →
      (done.flatMap (g.warnings options)).filter (·.diagnostic.code = some "W0201") = [] := by
    intro done hl
    refine List.filter_eq_nil_iff.mpr fun f hf => ?_
    obtain ⟨q, hq, hf⟩ := List.mem_flatMap.mp hf
    rcases code_of_mem_warnings hf with ⟨-, hcode⟩ | ⟨rfl, -⟩
    · simp [hcode]
    · exact absurd hq hl
  intro done hnodup hl
  obtain ⟨before, after, rfl⟩ := List.append_of_mem hl
  rw [List.nodup_middle, List.nodup_cons, List.mem_append, not_or] at hnodup
  rw [List.flatMap_append, List.flatMap_cons, List.filter_append, List.filter_append,
    hnone hnodup.1.1, hnone hnodup.1.2, List.nil_append, List.append_nil]
  refine List.filter_eq_self.mpr fun f hf => ?_
  rcases code_of_mem_warnings hf with ⟨hq, -⟩ | ⟨-, hcode⟩
  · cases hq
  · exact decide_eq_true hcode

/-- No warnings are given when violations are ignored. -/
theorem warnings_of_ignored {g : Graph} (hignored : options.ignoreViolations = true) (q : Pass) :
    g.warnings options q = [] := by
  cases q with
  | resolve => rfl
  | bank => rfl
  | schedule =>
    rw [warnings, violations_schedule_of_ignored hignored, List.filterMap_nil]
  | legality =>
    show List.filterMap _ (Graph.checkLegality _ options).2.illegal = []
    rw [checkLegality_of_ignored hignored, List.filterMap_nil]

end Dataflow.Graph

namespace State

/-- The warnings of illegal regions among all findings. -/
theorem Reached.filter_code {s : State} {done : List Pass} (h : Reached p options done s)
    (hnodup : done.Nodup) (hl : .legality ∈ done) :
    s.findings.filter (·.diagnostic.code = some "W0201") =
      (Design.ofProgram p).graph.warnings options .legality := by
  have hown : (Bankflow.findings p).filter (·.diagnostic.code = some "W0201") = [] :=
    List.filter_eq_nil_iff.mpr fun f hf hcode =>
      (allOwn_findings p f hf).code_ne.2 (of_decide_eq_true hcode)
  rw [h.findings_eq, List.filter_append, hown, List.nil_append,
    Dataflow.Graph.filter_code_warnings hnodup hl]

theorem Reached.findings_of_ignored {s : State} {done : List Pass} (h : Reached p options done s)
    (hignored : options.ignoreViolations = true) : s.findings = Bankflow.findings p := by
  have hnil : done.flatMap ((Design.ofProgram p).graph.warnings options) = [] :=
    List.flatMap_eq_nil_iff.mpr fun q _ => Dataflow.Graph.warnings_of_ignored hignored q
  rw [h.findings_eq, hnil, List.append_nil]

/-- The graph at the end of a run with the legality check. -/
theorem Reached.graph_eq {s : State} {done : List Pass} (h : Reached p options done s)
    (hl : .legality ∈ done) :
    ∃ d, s.design = some d ∧ d.graph =
      (((Design.ofProgram p).graph.schedule options).1.checkLegality options).1 := by
  obtain ⟨d, hd, hprogress⟩ := h.design
  refine ⟨d, hd, ?_⟩
  rw [hprogress.graph_eq, Dataflow.Graph.after, if_pos hl]

end State

/-! ## Regions of sources that compile -/

/-- A source that compiles with the legality check has its regions marked by the flow of
data. Unless violations are ignored, by the program or its caller, a region is marked legal
exactly if its nodes lead neither to a node with a contested output nor to a cycle, in this
region or any other; and the warnings of illegal regions are those of the unmarked ones, in
order, each with the number of its nodes without a level, as an issue and as the diagnostic
that is shown. If violations are ignored no region is marked, and there are no warnings about
nodes or regions. -/
theorem regions_legal_iff_flow_free (source : String) (overrides : Options) (target : Target)
    (htarget : .legality ∈ Pass.required target.passes)
    (hok : (compile source overrides target).failed = false) :
    ∃ p d, (Source.parse source).program = some p ∧
      (compile source overrides target).options = (Options.ofProgram p).layered overrides ∧
      (compile source overrides target).design = some d ∧
      ((compile source overrides target).options.ignoreViolations = false →
        (∀ r ∈ d.graph.regions, r.legal = true ↔
          ∀ n ∈ r.nodes, ∀ m, d.graph.Reaches n m → ¬ d.graph.Blocked m ∧ ¬ d.graph.OnCycle m) ∧
        (compile source overrides target).findings.filter (·.diagnostic.code = some "W0201") =
          (d.graph.regions.filter (!·.legal)).map (fun r =>
            ⟨.illegalRegion r.name (r.nodes.filter (!d.graph.isLevelled ·)).length r.nodes.length,
              r.span⟩) ∧
        ((compile source overrides target).findings.map Finding.diagnostic).filter
            (·.code = some "W0201") =
          (d.graph.regions.filter (!·.legal)).map fun r =>
            ⟨.warning, some "W0201", r.span, "region " ++ quoted r.name ++ " is not legal: " ++
              toString (r.nodes.filter (!d.graph.isLevelled ·)).length ++ " of " ++
              toString r.nodes.length ++ " node(s) unscheduled", none⟩) ∧
      ((compile source overrides target).options.ignoreViolations = true →
        (∀ r ∈ d.graph.regions, r.legal = false) ∧
        ∀ f ∈ (compile source overrides target).findings,
          f.diagnostic.code ≠ some "W0200" ∧ f.diagnostic.code ≠ some "W0201") := by
  obtain ⟨p, hp, hreached⟩ := reached_of_compile hok
  obtain ⟨d, hd, hgraph⟩ := hreached.graph_eq htarget
  have hbuilt := Design.built_ofProgram p
  refine ⟨p, d, hp, hreached.options_eq, hd, fun hstrict => ?_, fun hignored => ?_⟩
  · rw [hreached.options_eq] at hstrict
    have hwarnings := hreached.filter_code (Pass.nodup_required _) htarget
    rw [hgraph]
    refine ⟨fun r hr => ?_, ?_, ?_⟩
    · rw [hbuilt.legal_iff_forall_free hstrict hr]
      simp only [Dataflow.Graph.Free, hstrict, true_imp_iff, and_comm]
    · rw [hwarnings]
      exact Dataflow.Graph.filterMap_regionFinding? hstrict
    · rw [List.filter_map]
      refine (congrArg (List.map Finding.diagnostic)
        (hwarnings.trans (Dataflow.Graph.filterMap_regionFinding? hstrict))).trans ?_
      rw [List.map_map]
      rfl
  · rw [hreached.options_eq] at hignored
    rw [hgraph, hreached.findings_of_ignored hignored]
    exact ⟨hbuilt.legal_eq_false_of_ignored hignored,
      fun f hf => (allOwn_findings p f hf).code_ne⟩

/-- Data of the first region goes to the second, where two nodes read the same buffer. -/
def sharedBuffer : String :=
  "region r \x7b\n node a() -> (x)\n\x7d\nregion s \x7b\n node b(x) -> (y)\n node c(y)\n node d(y)\n\x7d"

theorem sharedBuffer_compiles :
    (compile sharedBuffer {} .levels).failed = false ∧
      (compile sharedBuffer {} .levels).options.ignoreViolations = false ∧
      ((compile sharedBuffer {} .levels).design.map fun d => d.graph.regions.map (·.legal)) =
        some [false, false] := by
  decide +kernel

theorem sharedBuffer_reaches_contested :
    .legality ∈ Pass.required Target.levels.passes ∧
      (compile sharedBuffer {} .levels).failed = false ∧
      ∃ d, (compile sharedBuffer {} .levels).design = some d ∧
        d.graph.regions.map (·.legal) = [false, false] ∧
        ∀ r ∈ d.graph.regions, ∃ n ∈ r.nodes, ∃ m, d.graph.Reaches n m ∧
          (d.graph.Blocked m ∨ d.graph.OnCycle m) := by
  have htarget : .legality ∈ Pass.required Target.levels.passes :=
    Pass.mem_required List.mem_cons_self
  obtain ⟨hok, hstrict, hlegal⟩ := sharedBuffer_compiles
  obtain ⟨p, d, -, -, hd, hmarks, -⟩ :=
    regions_legal_iff_flow_free sharedBuffer {} .levels htarget hok
  rw [hd, Option.map_some, Option.some.injEq] at hlegal
  refine ⟨htarget, hok, d, hd, hlegal, fun r hr => ?_⟩
  have hr' : r.legal = false := by
    have hmem : r.legal ∈ d.graph.regions.map (·.legal) := List.mem_map_of_mem hr
    rw [hlegal] at hmem
    simpa using hmem
  have hnot := mt ((hmarks hstrict).1 r hr).mpr (by rw [hr']; exact Bool.false_ne_true)
  simp only [not_forall, not_and_or, not_not] at hnot
  obtain ⟨n, hn, m, hm, hbad⟩ := hnot
  exact ⟨n, hn, m, hm, hbad⟩

end Bankflow
