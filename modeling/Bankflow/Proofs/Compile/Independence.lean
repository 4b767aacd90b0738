import Bankflow.Proofs.Compile.Record
import Bankflow.Report.Basic

/-!
# Banking and scheduling are independent

Banking works on the arrays of a design, scheduling and the legality check on its graph.
What is known after some passes is therefore a function of which passes they were
(`State.after`): it is the same whatever their order (`State.runAll_after`,
`State.after_congr`), and what a pass finds out is there after any run with this pass.

A run that goes on with scheduling keeps what banking did, even if it fails later
(`State.runAll_append_keeps_banking`).

So a target that asks for less gets the same as one that asks for more, and passes may be
asked for in any order (`smaller_runs_agree`).
-/

namespace Bankflow

variable {p : Source.Program} {overrides options : Options} {done : List Pass}

/-- The options in force for a program and its caller. -/
abbrev Source.Program.optionsUnder (p : Source.Program) (overrides : Options) : Options :=
  (Options.ofProgram p).layered overrides

/-! ## The design -/

namespace Design

theorem install_withGraph (g : Dataflow.Graph) : ∀ (as : List Applied) (d : Design),
    ({ d with graph := g } : Design).install as = { d.install as with graph := g }
  | [], _ => rfl
  | a :: as, d => install_withGraph g as (d.setLayout a.decision.array a.decision.layout)

/-- Banking does not look at the graph. -/
theorem bank_withGraph (d : Design) (g : Dataflow.Graph) :
    ({ d with graph := g } : Design).bank = ({ d.bank.1 with graph := g }, d.bank.2) :=
  Prod.ext (install_withGraph g d.plan.applied d) rfl

/-- The arrays and the loops of a design. -/
def withoutGraph (d : Design) : Design := { d with graph := .empty }

/-- A design after some passes. -/
def after (d : Design) (options : Options) (done : List Pass) : Design :=
  { d with
    memories := if .bank ∈ done then d.bank.1.memories else d.memories
    graph := d.graph.after options done }

theorem bank_after (d : Design) (options : Options) (hb : .bank ∉ done) :
    (d.after options done).bank =
      ({ d.bank.1 with graph := d.graph.after options done }, d.bank.2) := by
  rw [after, if_neg hb]
  exact bank_withGraph d _

theorem progress_after (options : Options) (hordered : .legality ∈ done → .schedule ∈ done) :
    Progress p options done ((ofProgram p).after options done) where
  nests_eq := rfl
  memories_eq hb := if_neg hb
  graph_eq := rfl
  ordered := hordered

theorem Progress.eq_after {d : Design} (h : Progress p options done d)
    (hm : .bank ∈ done → d.memories = (ofProgram p).bank.1.memories) :
    d = (ofProgram p).after options done := by
  obtain ⟨memories, nests, graph⟩ := d
  obtain ⟨rfl, hmemories, rfl, -⟩ := h
  unfold after
  congr 1
  split
  · next hb => exact hm hb
  · next hb => exact hmemories hb

end Design

/-- The warnings of some passes. Those of the schedule come first in any order of them. -/
def Dataflow.Graph.warningsAfter (g : Dataflow.Graph) (options : Options) (done : List Pass) :
    List Finding :=
  (if .schedule ∈ done then g.warnings options .schedule else []) ++
    if .legality ∈ done then g.warnings options .legality else []

/-! ## One more pass -/

namespace State

/-- The state after resolving a program and some other passes that found no errors. -/
def after (p : Source.Program) (overrides : Options) (done : List Pass) : State :=
  let options := p.optionsUnder overrides
  let d := Design.ofProgram p
  { program := p
    overrides
    options
    design := some (d.after options done)
    plan := if .bank ∈ done then some d.bank.2 else none
    schedule := if .schedule ∈ done then some (d.graph.schedule options).2 else none
    legality :=
      if .legality ∈ done then some ((d.graph.schedule options).1.checkLegality options).2 else none
    passes := done
    findings := Bankflow.findings p ++ d.graph.warningsAfter options done
    failed := false }

theorem after_append_bank : after p overrides (done ++ [.bank]) =
    { after p overrides done with
      design := some ((Design.ofProgram p).after (p.optionsUnder overrides) (done ++ [.bank]))
      plan := some (Design.ofProgram p).bank.2
      passes := done ++ [.bank] } := by
  simp [after, Dataflow.Graph.warningsAfter]

theorem after_append_schedule (hs : .schedule ∉ done) (hl : .legality ∉ done) :
    after p overrides (done ++ [.schedule]) =
      { after p overrides done with
        design := some ((Design.ofProgram p).after (p.optionsUnder overrides) (done ++ [.schedule]))
        schedule := some ((Design.ofProgram p).graph.schedule (p.optionsUnder overrides)).2
        passes := done ++ [.schedule]
        findings := (after p overrides done).findings ++
          (Design.ofProgram p).graph.warnings (p.optionsUnder overrides) .schedule } := by
  simp [after, Dataflow.Graph.warningsAfter, hs, hl]

theorem after_append_legality (hl : .legality ∉ done) :
    after p overrides (done ++ [.legality]) =
      { after p overrides done with
        design := some ((Design.ofProgram p).after (p.optionsUnder overrides) (done ++ [.legality]))
        legality := some (((Design.ofProgram p).graph.schedule (p.optionsUnder overrides)).1
          |>.checkLegality (p.optionsUnder overrides)).2
        passes := done ++ [.legality]
        findings := (after p overrides done).findings ++
          (Design.ofProgram p).graph.warnings (p.optionsUnder overrides) .legality } := by
  simp [after, Dataflow.Graph.warningsAfter, hl]

/-- A pass that finds no errors leads to the state after one more pass. -/
theorem runPass?_after (p : Source.Program) (overrides : Options) {q : Pass}
    (hresolve : .resolve ∈ done) (hq : q ∉ done) (hin : q.inputs ⊆ done)
    (hordered : .legality ∈ done → .schedule ∈ done) :
    ∃ s' found, (after p overrides done).runPass? q = some (s', found) ∧
      (¬ Erroneous found → s'.record q found = after p overrides (done ++ [q])) := by
  have hprogress := Design.progress_after (p := p) (p.optionsUnder overrides) hordered
  -- the other passes keep the arrays as they are
  have hmemories : q ≠ .bank → .bank ∈ done ++ [q] →
      ((Design.ofProgram p).after (p.optionsUnder overrides) done).memories =
        (Design.ofProgram p).bank.1.memories := by
    intro hne hb
    exact if_pos ((List.mem_append.mp hb).resolve_right fun h => hne (List.mem_singleton.mp h).symm)
  cases q with
  | resolve => exact absurd hresolve hq
  | bank =>
    have hbank := Design.bank_after (Design.ofProgram p) (p.optionsUnder overrides) hq
    have hdesign := hprogress.bank.eq_after fun _ => congrArg (·.1.memories) hbank
    have hplan := congrArg Prod.snd hbank
    refine ⟨_, _, rfl, fun hclean => ?_⟩
    have hnil := certificateFindings_eq_nil_of_not_isError (fun _ => rfl)
      (Bool.eq_false_iff.mpr hclean)
    rw [hnil, after_append_bank, ← hdesign, ← hplan, record, List.append_nil]
    rfl
  | schedule =>
    have hl : .legality ∉ done := fun hl => hq (hordered hl)
    have hdesign := (hprogress.schedule hq).eq_after (hmemories Pass.noConfusion)
    refine ⟨_, _, rfl, fun _ => ?_⟩
    rw [after_append_schedule hq hl, ← hdesign, ← hprogress.unscheduled hq]
    rfl
  | legality =>
    have hs : .schedule ∈ done := hin List.mem_cons_self
    have hdesign := (hprogress.legality hs hq).eq_after (hmemories Pass.noConfusion)
    have hgraph := hprogress.scheduled hs hq
    refine ⟨((after p overrides done).runLegality _).1, ((after p overrides done).runLegality _).2,
      rfl, fun hclean => ?_⟩
    have hnil := certificateFindings_eq_nil_of_not_isError (fun _ => rfl)
      (Bool.or_eq_false_iff.mp (List.any_append ▸ Bool.eq_false_iff.mpr hclean)).2
    have hfound : ((after p overrides done).runLegality
        ((Design.ofProgram p).after (p.optionsUnder overrides) done)).2 =
        (Design.ofProgram p).graph.warnings (p.optionsUnder overrides) .legality := by
      refine (congrArg (_ ++ ·) hnil).trans ?_
      rw [List.append_nil, hgraph]
      rfl
    rw [after_append_legality hq, ← hdesign, ← hgraph, hfound]
    rfl

/-! ## Whole runs -/

/-- A run that does not fail leads to the state after all of its passes. -/
theorem runAll_after :
    ∀ {qs done : List Pass}, .resolve ∈ done → Pass.Supplied [] (done ++ qs) →
      (done ++ qs).Nodup → ((after p overrides done).runAll qs).failing = none →
      ((after p overrides done).runAll qs).state = after p overrides (done ++ qs)
  | [], done, _, _, _, _ => (congrArg (after p overrides) (List.append_nil done)).symm
  | q :: qs, done, hresolve, hsupplied, hnodup, hok => by
    have hq : q ∉ done := fun hm =>
      (List.nodup_append.mp hnodup).2.2 q hm q List.mem_cons_self rfl
    have hordered : .legality ∈ done → .schedule ∈ done := fun hl =>
      (Pass.supplied_append.mp hsupplied).1.inputs_subset_of_mem hl List.mem_cons_self
    obtain ⟨s', found, hrun, hafter⟩ := runPass?_after p overrides hresolve hq
      hsupplied.inputs_subset hordered
    cases herr : found.any Finding.isError with
    | true =>
      rw [runAll_cons_of_isError hrun herr] at hok
      cases hok
    | false =>
      rw [runAll_cons hrun herr, hafter (Bool.eq_false_iff.mp herr)] at hok ⊢
      rw [List.append_cons done q qs] at hsupplied hnodup ⊢
      exact runAll_after (List.mem_append_left _ hresolve) hsupplied hnodup hok

theorem runPass?_resolve (p : Source.Program) (overrides : Options) :
    (start p overrides).runPass? .resolve =
      some ((start p overrides).runResolve.1, Bankflow.findings p) :=
  rfl

/-- The state after resolving a program with errors. -/
def afterErrors (p : Source.Program) (overrides : Options) : State :=
  { (start p overrides).runResolve.1.record .resolve (Bankflow.findings p) with failed := true }

theorem state_run_of_errors (overrides : Options) {terminals : List Pass} (ht : terminals ≠ [])
    (herr : Erroneous (Bankflow.findings p)) :
    ((start p overrides).run terminals).state = afterErrors p overrides := by
  obtain ⟨rest, hrest⟩ := Pass.exists_required_eq ht
  rw [run, hrest, runAll_cons_of_isError (runPass?_resolve p overrides) herr, afterErrors]

theorem state_run_of_no_errors (overrides : Options) {terminals : List Pass} (hp : p.Sized)
    (ht : terminals ≠ []) (herr : ¬ Erroneous (Bankflow.findings p)) :
    ((start p overrides).run terminals).state = after p overrides (Pass.required terminals) := by
  have hfailing := (run_of_no_errors overrides hp ht (Bool.eq_false_iff.mpr herr)).1
  obtain ⟨rest, hrest⟩ := Pass.exists_required_eq ht
  have hsupplied := Pass.supplied_required terminals
  have hnodup := Pass.nodup_required terminals
  have hstart : (start p overrides).runResolve.1.record .resolve (Bankflow.findings p) =
      after p overrides [.resolve] := by
    simp [start, runResolve, record, after, Design.after, Dataflow.Graph.after,
      Dataflow.Graph.warningsAfter]
  rw [hrest] at hsupplied hnodup
  rw [run, hrest, runAll_cons (runPass?_resolve p overrides) (Bool.eq_false_iff.mpr herr),
    hstart] at hfailing ⊢
  exact runAll_after List.mem_cons_self hsupplied hnodup hfailing

/-- The order of passes does not matter. -/
theorem after_congr {done done' : List Pass} (h : ∀ q, q ∈ done ↔ q ∈ done') :
    { after p overrides done with passes := done' } = after p overrides done' := by
  simp only [after, Design.after, Dataflow.Graph.after, Dataflow.Graph.warningsAfter, h]

/-- All lists of passes that require the same lead to the same state. -/
theorem state_run_congr (overrides : Options) {terminals terminals' : List Pass} (hp : p.Sized)
    (h : ∀ q, q ∈ Pass.required terminals ↔ q ∈ Pass.required terminals') :
    { ((start p overrides).run terminals).state with
      passes := ((start p overrides).run terminals').state.passes } =
      ((start p overrides).run terminals').state := by
  by_cases ht : terminals = []
  · have ht' : terminals' = [] := List.eq_nil_iff_forall_not_mem.mpr fun q hq =>
      absurd ((h q).mpr (Pass.mem_required hq)) (ht ▸ List.not_mem_nil)
    rw [ht, ht']
  · have ht' : terminals' ≠ [] := fun hnil => ht <| List.eq_nil_iff_forall_not_mem.mpr fun q hq =>
      absurd ((h q).mp (Pass.mem_required hq)) (hnil ▸ List.not_mem_nil)
    by_cases herr : Erroneous (Bankflow.findings p)
    · rw [state_run_of_errors overrides ht herr, state_run_of_errors overrides ht' herr]
    · rw [state_run_of_no_errors overrides hp ht herr, state_run_of_no_errors overrides hp ht' herr]
      exact after_congr h

theorem failed_run_eq (overrides : Options) {terminals : List Pass} (hp : p.Sized)
    (ht : terminals ≠ []) : ((start p overrides).run terminals).state.failed =
      (Bankflow.findings p).any Finding.isError := by
  by_cases herr : Erroneous (Bankflow.findings p)
  · rw [state_run_of_errors overrides ht herr, herr, afterErrors]
  · rw [state_run_of_no_errors overrides hp ht herr, Bool.eq_false_iff.mpr herr, after]

/-- Runs with the legality check agree on the graph and its schedule. -/
theorem schedule_run_congr (overrides : Options) {terminals terminals' : List Pass} (hp : p.Sized)
    (h : .legality ∈ terminals) (h' : .legality ∈ terminals') :
    ((start p overrides).run terminals).state.report?.map (·.schedule) =
        ((start p overrides).run terminals').state.report?.map (·.schedule) ∧
      ((start p overrides).run terminals).state.design.map (·.graph) =
        ((start p overrides).run terminals').state.design.map (·.graph) := by
  have ht := List.ne_nil_of_mem h
  have ht' := List.ne_nil_of_mem h'
  by_cases herr : Erroneous (Bankflow.findings p)
  · rw [state_run_of_errors overrides ht herr, state_run_of_errors overrides ht' herr]
    exact ⟨rfl, rfl⟩
  · rw [state_run_of_no_errors overrides hp ht herr, state_run_of_no_errors overrides hp ht' herr]
    obtain ⟨hs, hl⟩ := Pass.schedule_mem_required h
    obtain ⟨hs', hl'⟩ := Pass.schedule_mem_required h'
    simp only [report?, after, Design.after, Dataflow.Graph.after, Option.map_some, hs, hl, hs',
      hl', if_true, and_self]

/-! ## What banking did -/

/-- The section on banking does not look at the graph. -/
theorem banking_report? (s : State) : s.report?.map (·.banking) =
    (s.design.map Design.withoutGraph).map fun d => s.plan.map (BankReport.of d) := by
  rw [report?, Option.map_map, Option.map_map]
  rfl

theorem banking_congr {s s' : State} (hplan : s.plan = s'.plan)
    (hdesign : s.design.map Design.withoutGraph = s'.design.map Design.withoutGraph) :
    s.report?.map (·.banking) = s'.report?.map (·.banking) ∧
      s.design.map (·.memories) = s'.design.map (·.memories) := by
  have hmemories := congrArg (Option.map (·.memories)) hdesign
  rw [Option.map_map, Option.map_map] at hmemories
  refine ⟨?_, hmemories⟩
  rw [banking_report?, banking_report?, hdesign, hplan]

/-- Scheduling and the legality check keep what banking did. -/
theorem runPass?_keeps_banking {s s' : State} {q : Pass} {found : List Finding}
    (hq : q ≠ .resolve ∧ q ≠ .bank) (h : s.runPass? q = some (s', found)) :
    s'.plan = s.plan ∧ s'.design.map Design.withoutGraph = s.design.map Design.withoutGraph := by
  cases q with
  | resolve => exact absurd rfl hq.1
  | bank => exact absurd rfl hq.2
  | schedule | legality =>
    obtain ⟨d, hd, h⟩ := Option.map_eq_some_iff.mp h
    cases h
    rw [hd]
    exact ⟨rfl, rfl⟩

theorem runAll_keeps_banking :
    ∀ {qs : List Pass} {s : State}, (∀ q ∈ qs, q ≠ .resolve ∧ q ≠ .bank) →
      (s.runAll qs).state.plan = s.plan ∧
        (s.runAll qs).state.design.map Design.withoutGraph = s.design.map Design.withoutGraph
  | [], _, _ => ⟨rfl, rfl⟩
  | q :: qs, s, hqs => by
    obtain ⟨hq, hqs⟩ := List.forall_mem_cons.mp hqs
    cases hrun : s.runPass? q with
    | none =>
      simp only [runAll, hrun, and_self]
    | some result =>
      obtain ⟨s', found⟩ := result
      have hkept := runPass?_keeps_banking hq hrun
      cases herr : found.any Finding.isError with
      | true =>
        rw [runAll_cons_of_isError hrun herr]
        exact hkept
      | false =>
        rw [runAll_cons hrun herr]
        have ih := runAll_keeps_banking (s := s'.record q found) hqs
        exact ⟨ih.1.trans hkept.1, ih.2.trans hkept.2⟩

/-- A run goes on with further passes unless it failed before. -/
theorem state_runAll_append (rs : List Pass) : ∀ (qs : List Pass) (s : State),
    (s.runAll (qs ++ rs)).state =
      if (s.runAll qs).failing = none then ((s.runAll qs).state.runAll rs).state
      else (s.runAll qs).state
  | [], _ => rfl
  | q :: qs, s => by
    rw [List.cons_append]
    cases hrun : s.runPass? q with
    | none =>
      simp only [runAll, hrun, reduceCtorEq, if_false]
    | some result =>
      obtain ⟨s', found⟩ := result
      cases herr : found.any Finding.isError with
      | true =>
        rw [runAll_cons_of_isError hrun herr, runAll_cons_of_isError hrun herr]
        rfl
      | false =>
        rw [runAll_cons hrun herr, runAll_cons hrun herr]
        exact state_runAll_append rs qs (s'.record q found)

/-- A run that goes on with scheduling keeps what banking did. -/
theorem runAll_append_keeps_banking (s : State) (qs : List Pass) {rs : List Pass}
    (hrs : ∀ q ∈ rs, q ≠ .resolve ∧ q ≠ .bank) :
    (s.runAll (qs ++ rs)).state.plan = (s.runAll qs).state.plan ∧
      (s.runAll (qs ++ rs)).state.design.map Design.withoutGraph =
        (s.runAll qs).state.design.map Design.withoutGraph := by
  rw [state_runAll_append]
  split
  · exact runAll_keeps_banking hrs
  · exact ⟨rfl, rfl⟩

/-- Asking for more than banking changes nothing about it. -/
theorem run_bank_cons_keeps_banking (s : State) (terminals : List Pass) :
    (s.run (.bank :: terminals)).state.plan = (s.run [.bank]).state.plan ∧
      (s.run (.bank :: terminals)).state.design.map Design.withoutGraph =
        (s.run [.bank]).state.design.map Design.withoutGraph := by
  obtain ⟨rest, hrest⟩ := Pass.isPrefix_required_append [.bank] terminals
  have hnodup := Pass.nodup_required ([.bank] ++ terminals)
  rw [← hrest] at hnodup
  -- what banking requires is not run again
  have hnew : ∀ q ∈ rest, q ∉ Pass.required [.bank] := fun q hq hm =>
    (List.nodup_append.mp hnodup).2.2 q hm q hq rfl
  have hresolve : .resolve ∈ Pass.required [.bank] :=
    Pass.mem_required_iff.mpr ⟨.bank, List.mem_cons_self, .single List.mem_cons_self⟩
  have hbank : .bank ∈ Pass.required [.bank] := Pass.mem_required List.mem_cons_self
  rw [run, run, ← List.singleton_append, ← hrest]
  refine runAll_append_keeps_banking s _ fun q hq => ⟨?_, ?_⟩
  · rintro rfl
    exact hnew _ hq hresolve
  · rintro rfl
    exact hnew _ hq hbank

end State

/-! ## Targets -/

/-- A source either has a program, on which every target runs its passes, or errors. -/
theorem compile_cases (source : String) (overrides : Options) :
    (∃ p, (Source.parse source).program = some p ∧ ∀ target, compile source overrides target =
      ((State.start p overrides).run target.passes).state) ∨
    ∀ target, compile source overrides target =
      .unparsed source (Source.parse source).errors overrides := by
  cases hp : (Source.parse source).program with
  | none => exact .inr fun target => by simp only [compile, hp]
  | some p =>
    cases he : (Source.parse source).errors with
    | nil => exact .inl ⟨p, rfl, fun target => by simp only [compile, hp, he]⟩
    | cons e es => exact .inr fun target => by simp only [compile, hp, he]

/-- Smaller runs agree with larger ones, and the order of the passes asked for does not
matter. For every source the layout target has the section on banking and the arrays of the
report target, and, if the program is sized, fails with it; the levels target has its section
on the schedule and its graph. For every sized program, all lists of passes that require the
same passes lead to the same state, but for the order in which the passes were run. -/
theorem smaller_runs_agree :
    (∀ (source : String) (overrides : Options),
      (compile source overrides .layout).report?.map (·.banking) =
          (compile source overrides .report).report?.map (·.banking) ∧
        (compile source overrides .layout).design.map (·.memories) =
          (compile source overrides .report).design.map (·.memories) ∧
        ((∀ p, (Source.parse source).program = some p → p.Sized) →
          (compile source overrides .layout).failed = (compile source overrides .report).failed ∧
          (compile source overrides .levels).report?.map (·.schedule) =
            (compile source overrides .report).report?.map (·.schedule) ∧
          (compile source overrides .levels).design.map (·.graph) =
            (compile source overrides .report).design.map (·.graph))) ∧
    ∀ (p : Source.Program) (overrides : Options) (terminals terminals' : List Pass), p.Sized →
      (∀ q, q ∈ Pass.required terminals ↔ q ∈ Pass.required terminals') →
        { ((State.start p overrides).run terminals).state with
          passes := ((State.start p overrides).run terminals').state.passes } =
          ((State.start p overrides).run terminals').state := by
  refine ⟨fun source overrides => ?_, fun p overrides _ _ => State.state_run_congr overrides⟩
  rcases compile_cases source overrides with ⟨p, hp, hcompile⟩ | hcompile
  · simp only [hcompile]
    obtain ⟨hplan, hdesign⟩ :=
      State.run_bank_cons_keeps_banking (State.start p overrides) [.legality]
    obtain ⟨hbanking, hmemories⟩ := State.banking_congr hplan.symm hdesign.symm
    refine ⟨hbanking, hmemories, fun hsized => ⟨?_, ?_⟩⟩
    · rw [State.failed_run_eq overrides (hsized p hp) Target.layout.passes_ne_nil,
        State.failed_run_eq overrides (hsized p hp) Target.report.passes_ne_nil]
    · exact State.schedule_run_congr overrides (hsized p hp) List.mem_cons_self
        (List.mem_cons_of_mem _ List.mem_cons_self)
  · simp only [hcompile, implies_true, and_self]

/-- The pipelined loop of `staircase`, and two nodes that read the same buffer. -/
def forkedStaircase : Source.Program :=
  let here : Span := ⟨0, 0⟩
  let node (name : String) (inputs outputs : List String) : Source.Node :=
    ⟨⟨name, here⟩, inputs.map (⟨·, here⟩), outputs.map (⟨·, here⟩), here⟩
  { staircase with
    statements := staircase.statements ++
      [⟨.region ⟨"r", here⟩ [node "a" [] ["x"], node "b" ["x"] [], node "c" ["x"] []], here⟩] }

theorem forkedStaircase_runs_agree :
    forkedStaircase.Sized ∧
      (∀ q, q ∈ Pass.required [.bank, .legality] ↔
        q ∈ Pass.required [.legality, .bank, .legality]) ∧
      { ((State.start forkedStaircase {}).run [.bank, .legality]).state with
        passes :=
          ((State.start forkedStaircase {}).run [.legality, .bank, .legality]).state.passes } =
        ((State.start forkedStaircase {}).run [.legality, .bank, .legality]).state ∧
      (∀ p, (Source.parse "region r \x7b\n node a()\n\x7d").program = some p → p.Sized) ∧
      (compile "region r \x7b\n node a()\n\x7d" {} .levels).report?.map (·.schedule) =
        (compile "region r \x7b\n node a()\n\x7d" {} .report).report?.map (·.schedule) := by
  have hsized : forkedStaircase.Sized := by
    refine ⟨fun loop hloop => ?_, by decide⟩
    cases List.mem_singleton.mp hloop
    decide
  have hsame : ∀ q, q ∈ Pass.required [.bank, .legality] ↔
      q ∈ Pass.required [.legality, .bank, .legality] := by
    have hmem : ∀ t, t ∈ [Pass.bank, .legality] ↔ t ∈ [Pass.legality, .bank, .legality] := by
      intro t
      cases t <;> decide
    intro q
    rw [Pass.mem_required_iff, Pass.mem_required_iff]
    simp only [hmem]
  have hparsed : ∀ p, (Source.parse "region r \x7b\n node a()\n\x7d").program = some p → p.Sized :=
    fun p hp => Source.sized_of_parse hp (by decide)
  obtain ⟨htargets, horder⟩ := smaller_runs_agree
  exact ⟨hsized, hsame, horder forkedStaircase {} _ _ hsized hsame, hparsed,
    ((htargets _ {}).2.2 hparsed).2.1⟩

end Bankflow
