import Bankflow.Proofs.Compile.Run

/-!
# What a run records

A state is `Accounted` for if it has the results of the passes that it lists, and of no
others. A pass adds its own result and leaves the records of the run alone
(`runPass?_keeps`), so a run over supplied passes stays accounted for, lists what it ran and
found, and stops after the first pass that finds errors (`Accounted.runAll`).

So the records of a run agree with each other and with the passes that were asked for
(`run_records_agree`).
-/

namespace Bankflow

/-- Findings after which a run stops. -/
abbrev Erroneous (found : List Finding) : Prop := found.any Finding.isError = true

/-- How a run over some passes ends: after the last of them, or after the first that finds
errors. -/
inductive Run.Ends (qs : List Pass) (run : Run) : Prop where
  | finished (failing_eq : run.failing = none) (failed_eq : run.state.failed = false)
      (passes_eq : run.events.map (·.1) = qs) (clean : ∀ e ∈ run.events, ¬ Erroneous e.2)
  | stopped (before : List (Pass × List Finding)) (q : Pass) (found : List Finding)
      (rest : List Pass) (failing_eq : run.failing = some q) (failed_eq : run.state.failed = true)
      (events_eq : run.events = before ++ [(q, found)])
      (passes_eq : before.map (·.1) ++ q :: rest = qs) (clean : ∀ e ∈ before, ¬ Erroneous e.2)
      (erroneous : Erroneous found)

namespace Run.Ends

variable {qs : List Pass} {run : Run}

theorem failed_iff (h : run.Ends qs) : run.state.failed = true ↔ run.failing ≠ none := by
  cases h with
  | finished hfailing hfailed =>
    rw [hfailing, hfailed]
    exact iff_of_false Bool.false_ne_true fun hne => hne rfl
  | stopped _ q _ _ hfailing hfailed =>
    rw [hfailing, hfailed]
    exact iff_of_true rfl (Option.some_ne_none q)

theorem of_failing_eq_none (h : run.Ends qs) (hfailing : run.failing = none) :
    run.events.map (·.1) = qs ∧ ∀ e ∈ run.events, ¬ Erroneous e.2 := by
  cases h with
  | finished _ _ hqs hclean => exact ⟨hqs, hclean⟩
  | stopped _ q _ _ hsome => cases hfailing.symm.trans hsome

/-- A run that stopped did so after the one pass with errors. -/
theorem of_failing_eq_some {q : Pass} (h : run.Ends qs) (hnodup : qs.Nodup)
    (hfailing : run.failing = some q) :
    run.events.map (·.1) <+: qs ∧ (run.events.map (·.1)).getLast? = some q ∧
      ∀ e ∈ run.events, Erroneous e.2 ↔ e.1 = q := by
  cases h with
  | finished hnone => cases hfailing.symm.trans hnone
  | stopped before r found rest hsome _ hevents hqs hclean herr =>
    cases hfailing.symm.trans hsome
    rw [hevents, List.map_append, List.map_singleton]
    refine ⟨⟨rest, ?_⟩, List.getLast?_concat, List.forall_mem_append.mpr ⟨fun e he => ?_, ?_⟩⟩
    · rw [List.append_assoc, List.singleton_append, hqs]
    · -- a pass before the last one is another one
      rw [← hqs] at hnodup
      have hne : e.1 ≠ q := (List.nodup_append.mp hnodup).2.2 e.1 (List.mem_map_of_mem he) q
        List.mem_cons_self
      exact iff_of_false (hclean e he) hne
    · intro e he
      cases List.mem_singleton.mp he
      exact iff_of_true herr rfl

end Run.Ends

namespace State

/-- Whether a state has the result of a pass. -/
def hasResult (s : State) : Pass → Bool
  | .resolve => s.design.isSome
  | .bank => s.plan.isSome
  | .schedule => s.schedule.isSome
  | .legality => s.legality.isSome

/-- A state with the results of the passes that were run, of which one was to resolve. -/
structure Accounted (s : State) : Prop where
  hasResult_iff : ∀ q, s.hasResult q = true ↔ q ∈ s.passes
  resolve_mem : s.passes ≠ [] → .resolve ∈ s.passes

theorem accounted_start (p : Source.Program) (overrides : Options) :
    (start p overrides).Accounted where
  hasResult_iff q := by
    cases q <;> exact iff_of_false Bool.false_ne_true List.not_mem_nil
  resolve_mem h := absurd rfl h

/-- What a run over some passes adds to the records of its first state. -/
structure Records (s : State) (qs : List Pass) (run : Run) : Prop where
  accounted : run.state.Accounted
  passes_eq : run.state.passes = s.passes ++ run.events.map (·.1)
  findings_eq : run.state.findings = s.findings ++ run.events.flatMap (·.2)
  ends : run.Ends qs

/-! ## One pass -/

/-- A pass adds its result, and leaves alone what the run records. -/
theorem runPass?_keeps {s s' : State} {q : Pass} {found : List Finding}
    (h : s.runPass? q = some (s', found)) :
    s'.passes = s.passes ∧ s'.findings = s.findings ∧ s'.failed = s.failed ∧
      ∀ r, s'.hasResult r = (decide (r = q) || s.hasResult r) := by
  cases q with
  | resolve =>
    cases h
    exact ⟨rfl, rfl, rfl, fun r => by cases r <;> rfl⟩
  | bank | schedule | legality =>
    obtain ⟨d, hd, h⟩ := Option.map_eq_some_iff.mp h
    cases h
    refine ⟨rfl, rfl, rfl, fun r => ?_⟩
    cases r <;> simp [hasResult, hd]

theorem exists_runPass?_of_isSome {s : State} (h : s.design.isSome = true) (q : Pass) :
    ∃ s' found, s.runPass? q = some (s', found) := by
  obtain ⟨d, hd⟩ := Option.isSome_iff_exists.mp h
  cases q with
  | resolve => exact ⟨_, _, rfl⟩
  | bank | schedule | legality => exact ⟨_, _, by rw [runPass?, hd, Option.map_some]⟩

namespace Accounted

variable {s s' : State} {q : Pass} {found : List Finding}

/-- A pass whose inputs were run can be run. -/
theorem exists_runPass? (h : s.Accounted) (hin : q.inputs ⊆ s.passes) :
    ∃ s' found, s.runPass? q = some (s', found) := by
  by_cases hnil : s.passes = []
  · rw [hnil] at hin
    rw [Pass.eq_resolve_of_inputs_eq_nil (List.eq_nil_of_subset_nil hin)]
    exact ⟨_, _, rfl⟩
  · exact exists_runPass?_of_isSome ((h.hasResult_iff .resolve).mpr (h.resolve_mem hnil)) q

theorem record (h : s.Accounted) (hrun : s.runPass? q = some (s', found))
    (hin : q.inputs ⊆ s.passes) : (s'.record q found).Accounted := by
  obtain ⟨hpasses, -, -, hresults⟩ := runPass?_keeps hrun
  constructor
  · intro r
    show s'.hasResult r = true ↔ r ∈ s'.passes ++ [q]
    rw [hresults, hpasses, Bool.or_eq_true, decide_eq_true_iff, h.hasResult_iff, List.mem_append,
      List.mem_singleton, or_comm]
  · intro _
    show .resolve ∈ s'.passes ++ [q]
    rw [hpasses, List.mem_append]
    by_cases hnil : s.passes = []
    · rw [hnil] at hin
      rw [Pass.eq_resolve_of_inputs_eq_nil (List.eq_nil_of_subset_nil hin)]
      exact .inr List.mem_cons_self
    · exact .inl (h.resolve_mem hnil)

/-! ## Whole runs -/

/-- A run over supplied passes, from a state that is accounted for. -/
theorem runAll :
    ∀ {qs : List Pass} {s : State}, s.Accounted → s.failed = false → Pass.Supplied s.passes qs →
      s.Records qs (s.runAll qs)
  | [], s, h, hfailed, _ =>
    ⟨h, (List.append_nil _).symm, (List.append_nil _).symm,
      .finished rfl hfailed rfl (List.forall_mem_nil _)⟩
  | q :: qs, s, h, hfailed, hsupplied => by
    obtain ⟨s', found, hrun⟩ := h.exists_runPass? hsupplied.1
    obtain ⟨hpasses, hfindings, hfailed', -⟩ := runPass?_keeps hrun
    have hrecord := h.record hrun hsupplied.1
    have hrecord_passes : (s'.record q found).passes = s.passes ++ [q] :=
      congrArg (· ++ [q]) hpasses
    have hrecord_findings : (s'.record q found).findings = s.findings ++ found :=
      congrArg (· ++ found) hfindings
    cases herr : found.any Finding.isError with
    | true =>
      rw [runAll_cons_of_isError hrun herr]
      refine ⟨⟨hrecord.hasResult_iff, hrecord.resolve_mem⟩, hrecord_passes, ?_, ?_⟩
      · rw [List.flatMap_singleton]
        exact hrecord_findings
      · exact .stopped [] q found qs rfl rfl rfl rfl (List.forall_mem_nil _) herr
    | false =>
      rw [runAll_cons hrun herr]
      have ih := runAll hrecord (hfailed'.trans hfailed) (hrecord_passes ▸ hsupplied.2)
      refine ⟨ih.accounted, ?_, ?_, ?_⟩
      · rw [ih.passes_eq, hrecord_passes, List.map_cons, List.append_assoc, List.singleton_append]
      · rw [ih.findings_eq, hrecord_findings, List.flatMap_cons, List.append_assoc]
      · have hclean : ¬ Erroneous found := Bool.eq_false_iff.mp herr
        cases ih.ends with
        | finished hfailing hfailed hqs hall =>
          refine .finished hfailing hfailed ?_ (List.forall_mem_cons.mpr ⟨hclean, hall⟩)
          rw [List.map_cons, hqs]
        | stopped before r found' rest hfailing hfailed hevents hqs hall herr' =>
          refine .stopped ((q, found) :: before) r found' rest hfailing hfailed ?_ ?_
            (List.forall_mem_cons.mpr ⟨hclean, hall⟩) herr'
          · rw [hevents, List.cons_append]
          · rw [List.map_cons, List.cons_append, hqs]

end Accounted

/-- What is reported of a pass is what it found in some state. -/
theorem exists_runPass?_of_mem_events :
    ∀ {qs : List Pass} {s : State} {e : Pass × List Finding}, e ∈ (s.runAll qs).events →
      ∃ s₀ s₁, runPass? s₀ e.1 = some (s₁, e.2)
  | [], _, _, he => absurd he List.not_mem_nil
  | q :: qs, s, e, he => by
    cases hrun : s.runPass? q with
    | none =>
      simp only [State.runAll, hrun] at he
      exact absurd he List.not_mem_nil
    | some result =>
      cases herr : result.2.any Finding.isError with
      | true =>
        rw [runAll_cons_of_isError hrun herr] at he
        cases List.mem_singleton.mp he
        exact ⟨s, result.1, hrun⟩
      | false =>
        rw [runAll_cons hrun herr] at he
        rcases List.mem_cons.mp he with rfl | he
        · exact ⟨s, result.1, hrun⟩
        · exact exists_runPass?_of_mem_events he

/-- A run for some passes, from the start. -/
theorem records_run (p : Source.Program) (overrides : Options) (terminals : List Pass) :
    (start p overrides).Records (Pass.required terminals) ((start p overrides).run terminals) :=
  (accounted_start p overrides).runAll rfl (Pass.supplied_required terminals)

end State

/-- The records of a run agree, for every program and all passes asked for. The required
passes are those asked for and all that they need, each once and after its inputs. The run
reports each pass that it ran, in this order: all of them if it does not fail, and otherwise
those up to the failing one, which is the only one with errors. The findings are those
reported, the state is marked as failed if the run fails, and it has the results of the
passes that were run and of no others. -/
theorem run_records_agree (p : Source.Program) (overrides : Options) (terminals : List Pass) :
    let run := (State.start p overrides).run terminals
    (Pass.required terminals).Nodup ∧
    (∀ q, q ∈ Pass.required terminals ↔ ∃ t ∈ terminals, t.Needs q) ∧
    (∀ before q after, Pass.required terminals = before ++ q :: after → q.inputs ⊆ before) ∧
    run.events.map (·.1) = run.state.passes ∧
    (run.failing = none →
      run.state.passes = Pass.required terminals ∧ ∀ e ∈ run.events, ¬ Erroneous e.2) ∧
    (∀ q, run.failing = some q →
      run.state.passes <+: Pass.required terminals ∧ run.state.passes.getLast? = some q ∧
        ∀ e ∈ run.events, Erroneous e.2 ↔ e.1 = q) ∧
    run.state.findings = run.events.flatMap (·.2) ∧
    (run.state.failed = true ↔ run.failing ≠ none) ∧
    (run.state.design.isSome = true ↔ .resolve ∈ run.state.passes) ∧
    (run.state.plan.isSome = true ↔ .bank ∈ run.state.passes) ∧
    (run.state.schedule.isSome = true ↔ .schedule ∈ run.state.passes) ∧
    (run.state.legality.isSome = true ↔ .legality ∈ run.state.passes) := by
  intro run
  have h : (State.start p overrides).Records (Pass.required terminals) run :=
    State.records_run p overrides terminals
  have hnodup := Pass.nodup_required terminals
  have hpasses : run.state.passes = run.events.map (·.1) := h.passes_eq
  have hresults := h.accounted.hasResult_iff
  refine ⟨hnodup, fun q => Pass.mem_required_iff, fun before q after hsplit => ?_, hpasses.symm,
    fun hfailing => ?_, fun q hfailing => ?_, h.findings_eq, h.ends.failed_iff,
    hresults .resolve, hresults .bank, hresults .schedule, hresults .legality⟩
  · have hsupplied := Pass.supplied_required terminals
    rw [hsplit] at hsupplied
    exact hsupplied.inputs_subset
  · rw [hpasses]
    exact h.ends.of_failing_eq_none hfailing
  · rw [hpasses]
    exact h.ends.of_failing_eq_some hnodup hfailing

end Bankflow
