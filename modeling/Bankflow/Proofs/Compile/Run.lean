import Bankflow.Compile.State
import Bankflow.Proofs.Compile.Order
import Bankflow.Proofs.Dataflow.Certificate
import Bankflow.Proofs.Design.Findings
import Bankflow.Proofs.Design.OfProgram

/-!
# Runs fail through the fault of the program only

A pass that is run once, after its inputs, works on the design as resolving left it, as
far as it looks at it (`Design.Progress`). There banking and scheduling pass their
certificates, so after resolving no pass finds an error (`State.Reached.runPass?`), and
by induction over the passes no run of them does (`State.Reached.runAll`). What is then
found is what is wrong with the program and the warnings of the passes
(`State.Reached.findings_eq`).

So a run fails exactly if resolving finds errors, and no source makes `compile` report
an internal issue (`runs_fail_only_at_resolve`).
-/

namespace Bankflow

variable {p : Source.Program} {options : Options} {done : List Pass}

theorem Source.Program.Sized.nodes_le (h : p.Sized) :
    (Design.ofProgram p).graph.nodes.length ≤ Dataflow.maxLevel :=
  Nat.le_trans (length_nodes_graphOf_le _) (Nat.le_of_lt_succ h.nodes_lt)

theorem Design.built_ofProgram (p : Source.Program) : (Design.ofProgram p).graph.Built :=
  built_graphOf _

/-! ## The design -/

/-- A graph after some passes. -/
def Dataflow.Graph.after (g : Dataflow.Graph) (options : Options) (done : List Pass) :
    Dataflow.Graph :=
  if .legality ∈ done then ((g.schedule options).1.checkLegality options).1
  else if .schedule ∈ done then (g.schedule options).1
  else g

namespace Design

/-- What is left of the design of a program after some passes. Banking changes its
arrays, scheduling and the legality check its graph. -/
structure Progress (p : Source.Program) (options : Options) (done : List Pass) (d : Design) :
    Prop where
  nests_eq : d.nests = (ofProgram p).nests
  memories_eq : .bank ∉ done → d.memories = (ofProgram p).memories
  graph_eq : d.graph = (ofProgram p).graph.after options done
  ordered : .legality ∈ done → .schedule ∈ done

theorem Bankable.congr {d d' : Design} (h : d.Bankable) (hm : d'.memories = d.memories)
    (hn : d'.nests = d.nests) : d'.Bankable := by
  obtain ⟨memories, nests, graph⟩ := d'
  cases hm
  cases hn
  exact ⟨h.named, h.counted, h.size_pos, h.size_le, h.unbanked⟩

namespace Progress

variable {d : Design}

theorem start (p : Source.Program) (options : Options) :
    Progress p options [.resolve] (ofProgram p) where
  nests_eq := rfl
  memories_eq _ := rfl
  graph_eq := rfl
  ordered h := nomatch List.mem_singleton.mp h

theorem bankable (h : Progress p options done d) (hp : p.Sized) (hb : .bank ∉ done) :
    d.Bankable :=
  (bankable_ofProgram hp.counted).congr (h.memories_eq hb) h.nests_eq

/-- A graph that was scheduled and not yet checked. -/
theorem scheduled (h : Progress p options done d) (hs : .schedule ∈ done)
    (hl : .legality ∉ done) : d.graph = ((ofProgram p).graph.schedule options).1 := by
  rw [h.graph_eq, Dataflow.Graph.after, if_neg hl, if_pos hs]

theorem unscheduled (h : Progress p options done d) (hs : .schedule ∉ done) :
    d.graph = (ofProgram p).graph := by
  rw [h.graph_eq, Dataflow.Graph.after, if_neg fun hl => hs (h.ordered hl), if_neg hs]

theorem bank (h : Progress p options done d) : Progress p options (done ++ [.bank]) d.bank.1 where
  nests_eq := (nests_install _ d).trans h.nests_eq
  memories_eq hb := absurd (List.mem_append_right done List.mem_cons_self) hb
  graph_eq := by
    refine (graph_install _ d).trans (h.graph_eq.trans ?_)
    simp [Dataflow.Graph.after]
  ordered hl := by
    simp only [List.mem_append, List.mem_singleton, reduceCtorEq, or_false] at hl ⊢
    exact h.ordered hl

theorem schedule (h : Progress p options done d) (hs : .schedule ∉ done) :
    Progress p options (done ++ [.schedule])
      { d with graph := (d.graph.schedule options).1 } where
  nests_eq := h.nests_eq
  memories_eq hb := h.memories_eq fun hm => hb (List.mem_append_left _ hm)
  graph_eq := by
    have hl : .legality ∉ done := fun hl => hs (h.ordered hl)
    rw [h.unscheduled hs]
    simp [Dataflow.Graph.after, hl]
  ordered _ := List.mem_append_right done List.mem_cons_self

theorem legality (h : Progress p options done d) (hs : .schedule ∈ done)
    (hl : .legality ∉ done) :
    Progress p options (done ++ [.legality])
      { d with graph := (d.graph.checkLegality options).1 } where
  nests_eq := h.nests_eq
  memories_eq hb := h.memories_eq fun hm => hb (List.mem_append_left _ hm)
  graph_eq := by
    rw [h.scheduled hs hl]
    simp [Dataflow.Graph.after]
  ordered _ := List.mem_append_left _ hs

end Progress

end Design

/-! ## One pass -/

theorem certificateFindings_eq_nil {c : Certificate} (h : c.allPass = true)
    (issue : List String → Issue) (span : Span) : certificateFindings c issue span = [] :=
  if_pos h

/-- An uncertified result is an error. -/
theorem certificateFindings_eq_nil_of_not_isError {c : Certificate} {issue : List String → Issue}
    {span : Span} (herror : ∀ fs, (issue fs).severity = .error)
    (h : (certificateFindings c issue span).any Finding.isError = false) :
    certificateFindings c issue span = [] := by
  unfold certificateFindings at h ⊢
  split
  · rfl
  · next hc =>
    rw [if_neg hc, List.any_cons, List.any_nil, Bool.or_false, Finding.isError,
      decide_eq_false_iff_not] at h
    exact absurd (herror c.failures) h

namespace Dataflow.Graph

/-- What the passes on the dataflow of a program find, if their certificates pass. -/
def warnings (g : Graph) (options : Options) : Pass → List Finding
  | .schedule =>
    (g.schedule options).2.violations.filterMap (g.schedule options).1.violationFinding?
  | .legality =>
    ((g.schedule options).1.checkLegality options).2.illegal.filterMap
      ((g.schedule options).1.checkLegality options).1.regionFinding?
  | .resolve | .bank => []

theorem isError_violationFinding? {g : Graph} {v : Nat × Nat} {f : Finding}
    (h : g.violationFinding? v = some f) : f.isError = false := by
  simp only [violationFinding?, Option.bind_eq_bind, Option.bind_eq_some_iff] at h
  obtain ⟨n, -, b, -, h⟩ := h
  cases h
  rfl

theorem isError_regionFinding? {g : Graph} {region : Nat} {f : Finding}
    (h : g.regionFinding? region = some f) : f.isError = false := by
  simp only [regionFinding?, Option.bind_eq_bind, Option.bind_eq_some_iff] at h
  obtain ⟨r, -, h⟩ := h
  cases h
  rfl

theorem isError_of_mem_warnings {g : Graph} {options : Options} {q : Pass} {f : Finding}
    (h : f ∈ g.warnings options q) : f.isError = false := by
  cases q with
  | resolve => cases h
  | bank => cases h
  | schedule =>
    obtain ⟨v, -, hv⟩ := List.mem_filterMap.mp h
    exact isError_violationFinding? hv
  | legality =>
    obtain ⟨r, -, hr⟩ := List.mem_filterMap.mp h
    exact isError_regionFinding? hr

end Dataflow.Graph

namespace State

/-- The state after resolving and some other passes, which only added their warnings to
the findings of the program. -/
structure Reached (p : Source.Program) (options : Options) (done : List Pass) (s : State) :
    Prop where
  options_eq : s.options = options
  passes_eq : s.passes = done
  design : ∃ d, s.design = some d ∧ d.Progress p options done
  findings_eq : s.findings =
    Bankflow.findings p ++ done.flatMap ((Design.ofProgram p).graph.warnings options)

/-- The state in which a run goes on after a pass. -/
def record (s : State) (q : Pass) (found : List Finding) : State :=
  { s with findings := s.findings ++ found, passes := s.passes ++ [q] }

/-- A pass that changes the design and finds its warnings only. -/
theorem Reached.record {s s' : State} {d : Design} {q : Pass} {found : List Finding}
    (h : Reached p options done s) (ho : s'.options = s.options) (hp : s'.passes = s.passes)
    (hf : s'.findings = s.findings) (hd : s'.design = some d)
    (hprogress : d.Progress p options (done ++ [q]))
    (hfound : found = (Design.ofProgram p).graph.warnings options q) :
    Reached p options (done ++ [q]) (s'.record q found) where
  options_eq := ho.trans h.options_eq
  passes_eq := by rw [State.record, hp, h.passes_eq]
  design := ⟨d, hd, hprogress⟩
  findings_eq := by
    rw [State.record, hf, h.findings_eq, hfound, List.append_assoc, List.flatMap_append,
      List.flatMap_singleton]

/-- After resolving, a pass whose inputs are there can be run. If it finds no error, it
finds its warnings. If the program is sized, it finds no error. -/
theorem Reached.runPass? {s : State} {q : Pass} (h : Reached p options done s)
    (hresolve : .resolve ∈ done) (hq : q ∉ done) (hin : q.inputs ⊆ done) :
    ∃ s' found, s.runPass? q = some (s', found) ∧
      (found.any Finding.isError = false → Reached p options (done ++ [q]) (s'.record q found)) ∧
      (p.Sized → found.any Finding.isError = false) := by
  obtain ⟨d, hd, hprogress⟩ := h.design
  -- what a pass certifies is still as its inputs left it, since no pass is run twice
  cases q with
  | resolve => exact absurd hresolve hq
  | bank =>
    refine ⟨_, _, by rw [State.runPass?, hd, Option.map_some], fun hfound => ?_, fun hp => ?_⟩
    · refine h.record rfl rfl rfl rfl hprogress.bank ?_
      exact certificateFindings_eq_nil_of_not_isError (fun _ => rfl) hfound
    · have hnil : (s.runBank d).2 = [] :=
        certificateFindings_eq_nil (hprogress.bankable hp hq).allPass_certificate _ _
      rw [hnil, List.any_nil]
  | schedule =>
    have hfound : (s.runSchedule d).2 = (Design.ofProgram p).graph.warnings options .schedule := by
      rw [State.runSchedule, hprogress.unscheduled hq, h.options_eq]
      rfl
    refine ⟨_, _, by rw [State.runPass?, hd, Option.map_some], fun _ => ?_, fun _ => ?_⟩
    · refine h.record rfl rfl rfl rfl ?_ hfound
      rw [h.options_eq]
      exact hprogress.schedule hq
    · rw [hfound]
      exact List.any_eq_false.mpr fun f hf =>
        Bool.not_eq_true _ ▸ Dataflow.Graph.isError_of_mem_warnings hf
  | legality =>
    have hs : .schedule ∈ done := hin List.mem_cons_self
    have hfound : (s.runLegality d).2 =
        (Design.ofProgram p).graph.warnings options .legality ++ certificateFindings
          (((Design.ofProgram p).graph.schedule options).1.checkLegality options).1.certificate
          .uncertifiedSchedule s.program.span := by
      rw [State.runLegality, hprogress.scheduled hs hq, h.options_eq]
      rfl
    refine ⟨_, _, by rw [State.runPass?, hd, Option.map_some], fun herr => ?_, fun hp => ?_⟩
    · rw [hfound, List.any_append, Bool.or_eq_false_iff] at herr
      refine h.record rfl rfl rfl rfl (h.options_eq ▸ hprogress.legality hs hq) ?_
      rw [hfound, certificateFindings_eq_nil_of_not_isError (fun _ => rfl) herr.2, List.append_nil]
    · have hpass := (Design.built_ofProgram p).allPass_certificate hp.nodes_le options
      rw [hfound, List.any_append, certificateFindings_eq_nil hpass, List.any_nil, Bool.or_false]
      exact List.any_eq_false.mpr fun f hf =>
        Bool.not_eq_true _ ▸ Dataflow.Graph.isError_of_mem_warnings hf

/-! ## Whole runs -/

theorem runAll_cons_of_isError {s s' : State} {q : Pass} {qs : List Pass} {found : List Finding}
    (hq : s.runPass? q = some (s', found)) (herr : found.any Finding.isError = true) :
    s.runAll (q :: qs) = ⟨{ s'.record q found with failed := true }, [(q, found)], some q⟩ := by
  simp only [runAll, hq, herr, if_true]
  rfl

theorem runAll_cons {s s' : State} {q : Pass} {qs : List Pass} {found : List Finding}
    (hq : s.runPass? q = some (s', found)) (herr : found.any Finding.isError = false) :
    s.runAll (q :: qs) = { (s'.record q found).runAll qs with
      events := (q, found) :: ((s'.record q found).runAll qs).events } := by
  simp only [runAll, hq, herr, Bool.false_eq_true, if_false]
  rfl

/-- After resolving, passes in order run to the end unless they fail, and they do not fail
on a sized program. -/
theorem Reached.runAll :
    ∀ {qs done : List Pass} {s : State}, Reached p options done s → .resolve ∈ done →
      Pass.Supplied done qs → (done ++ qs).Nodup → (p.Sized ∨ (s.runAll qs).state.failed = false) →
      (s.runAll qs).failing = none ∧ Reached p options (done ++ qs) (s.runAll qs).state
  | [], done, s, h, _, _, _, _ => ⟨rfl, (List.append_nil done).symm ▸ h⟩
  | q :: qs, done, s, h, hresolve, hsupplied, hnodup, hok => by
    have hq : q ∉ done := fun hm =>
      (List.nodup_append.mp hnodup).2.2 q hm q List.mem_cons_self rfl
    obtain ⟨s', found, hrun, hreached, hsized⟩ := h.runPass? hresolve hq hsupplied.1
    have herr : found.any Finding.isError = false := by
      rcases hok with hp | hok
      · exact hsized hp
      · refine Bool.eq_false_iff.mpr fun herr => ?_
        rw [runAll_cons_of_isError hrun herr] at hok
        cases hok
    rw [runAll_cons hrun herr] at hok ⊢
    rw [List.append_cons] at hnodup ⊢
    exact (hreached herr).runAll (List.mem_append_left _ hresolve) hsupplied.2 hnodup hok

/-- A run whose program has errors stops after resolving. -/
theorem run_of_errors (overrides : Options) {terminals : List Pass} (ht : terminals ≠ [])
    (herr : (Bankflow.findings p).any Finding.isError = true) :
    ((start p overrides).run terminals).failing = some .resolve ∧
      ((start p overrides).run terminals).state.findings = Bankflow.findings p := by
  obtain ⟨rest, hrest⟩ := Pass.exists_required_eq ht
  rw [run, hrest, runAll_cons_of_isError rfl herr]
  exact ⟨rfl, rfl⟩

theorem failed_run_of_errors (overrides : Options) {terminals : List Pass} (ht : terminals ≠ [])
    (herr : (Bankflow.findings p).any Finding.isError = true) :
    ((start p overrides).run terminals).state.failed = true := by
  obtain ⟨rest, hrest⟩ := Pass.exists_required_eq ht
  rw [run, hrest, runAll_cons_of_isError rfl herr]

/-- Any other run goes to its end, unless it fails on a program that is not sized. -/
theorem reached_run (overrides : Options) {terminals : List Pass} (ht : terminals ≠ [])
    (herr : (Bankflow.findings p).any Finding.isError = false)
    (hok : p.Sized ∨ ((start p overrides).run terminals).state.failed = false) :
    ((start p overrides).run terminals).failing = none ∧
      Reached p ((Options.ofProgram p).layered overrides) (Pass.required terminals)
        ((start p overrides).run terminals).state := by
  obtain ⟨rest, hrest⟩ := Pass.exists_required_eq ht
  have hsupplied := Pass.supplied_required terminals
  have hnodup := Pass.nodup_required terminals
  rw [hrest] at hsupplied hnodup
  rw [run, hrest, runAll_cons rfl herr] at hok ⊢
  have hstart : Reached p ((Options.ofProgram p).layered overrides) [.resolve]
      ((start p overrides).runResolve.1.record .resolve (Bankflow.findings p)) :=
    ⟨rfl, rfl, ⟨_, rfl, .start p _⟩, (List.append_nil _).symm⟩
  exact hstart.runAll List.mem_cons_self hsupplied.2 hnodup hok

theorem run_of_no_errors (overrides : Options) {terminals : List Pass} (hp : p.Sized)
    (ht : terminals ≠ []) (herr : (Bankflow.findings p).any Finding.isError = false) :
    ((start p overrides).run terminals).failing = none ∧
      Reached p ((Options.ofProgram p).layered overrides) (Pass.required terminals)
        ((start p overrides).run terminals).state :=
  reached_run overrides ht herr (.inl hp)

theorem not_isInternal_of_mem_run {overrides : Options} {terminals : List Pass} {f : Finding}
    (hp : p.Sized) (ht : terminals ≠ [])
    (hf : f ∈ ((start p overrides).run terminals).state.findings) : ¬ f.issue.IsInternal := by
  cases herr : (Bankflow.findings p).any Finding.isError with
  | true =>
    rw [(run_of_errors overrides ht herr).2] at hf
    exact (allOwn_findings p f hf).not_isInternal
  | false =>
    rw [(run_of_no_errors overrides hp ht herr).2.findings_eq, List.mem_append] at hf
    rcases hf with hf | hf
    · exact (allOwn_findings p f hf).not_isInternal
    · intro hi
      obtain ⟨q, -, hf⟩ := List.mem_flatMap.mp hf
      have hwarning := Dataflow.Graph.isError_of_mem_warnings hf
      rw [hi.isError] at hwarning
      cases hwarning

end State

theorem Target.passes_ne_nil (t : Target) : t.passes ≠ [] := by
  cases t <;> exact List.cons_ne_nil _ _

theorem not_isInternal_of_mem_compile {source : String} {overrides : Options} {target : Target}
    {f : Finding} (hsource : source.length < 2 ^ 32)
    (hf : f ∈ (compile source overrides target).findings) : ¬ f.issue.IsInternal := by
  unfold compile at hf
  dsimp only at hf
  split at hf
  · next p hp _ =>
    exact State.not_isInternal_of_mem_run (Source.sized_of_parse hp hsource)
      target.passes_ne_nil hf
  · obtain ⟨e, -, rfl⟩ := List.mem_map.mp hf
    nofun

/-- Only a program can make a run fail. For every program and all passes asked for, the
run fails exactly if resolving finds errors, and then at resolving; otherwise all
required passes are run. Banking and scheduling the design of a program pass their
certificates, and compiling a source never reports an internal issue. -/
theorem runs_fail_only_at_resolve :
    (∀ (p : Source.Program) (overrides : Options) (terminals : List Pass), p.Sized →
      terminals ≠ [] →
        ((State.start p overrides).run terminals).failing =
            (if (findings p).any Finding.isError then some .resolve else none) ∧
          ((findings p).any Finding.isError = false →
            ((State.start p overrides).run terminals).state.passes = Pass.required terminals)) ∧
    (∀ p : Source.Program, p.Sized →
      ((Design.ofProgram p).bank.1.certificate (Design.ofProgram p).bank.2).allPass = true ∧
        ∀ options : Options, (((Design.ofProgram p).graph.schedule options).1.checkLegality
          options).1.certificate.allPass = true) ∧
    ∀ (source : String) (overrides : Options) (target : Target), source.length < 2 ^ 32 →
      ∀ f ∈ (compile source overrides target).findings,
        f.diagnostic.code ≠ some "E0600" ∧ f.diagnostic.code ≠ some "E0601" ∧
          ∀ pass, f.diagnostic.message ≠ "internal: " ++ pass ++ " ran before resolve" := by
  refine ⟨fun p overrides terminals hp ht => ?_, fun p hp => ⟨?_, fun options => ?_⟩,
    fun source overrides target hsource f hf => ?_⟩
  · cases herr : (findings p).any Finding.isError with
    | true => exact ⟨(State.run_of_errors overrides ht herr).1, nofun⟩
    | false =>
      obtain ⟨hfailing, hreached⟩ := State.run_of_no_errors overrides hp ht herr
      exact ⟨hfailing, fun _ => hreached.passes_eq⟩
  · exact (Design.bankable_ofProgram hp.counted).allPass_certificate
  · exact (built_graphOf _).allPass_certificate hp.nodes_le options
  · have hf' := not_isInternal_of_mem_compile hsource hf
    obtain ⟨hbank, hschedule⟩ := Issue.code_ne_of_not_isInternal hf'
    exact ⟨hbank, hschedule, Issue.message_ne_of_not_isInternal hf'⟩

/-- A loop over an array. -/
def swept : String := "array A[8] : f32\nloop i = 0 to 8 \x7b\n  read A[i]\n\x7d\n"

theorem staircase_runs_to_end :
    staircase.Sized ∧ [Pass.bank, Pass.legality] ≠ [] ∧
      ((State.start staircase {}).run [.bank, .legality]).failing = none ∧
      ((State.start staircase {}).run [.bank, .legality]).state.passes =
        Pass.required [.bank, .legality] ∧
      (compile swept {} .report).passes = Pass.required Target.report.passes ∧
      ∀ f ∈ (compile swept {} .report).findings, f.diagnostic.code ≠ some "E0600" := by
  have hsized : staircase.Sized := ⟨counted_staircase, by decide⟩
  have hne : [Pass.bank, Pass.legality] ≠ [] := List.cons_ne_nil _ _
  have hclean : (findings staircase).any Finding.isError = false := by decide +kernel
  obtain ⟨hruns, -, hcompile⟩ := runs_fail_only_at_resolve
  obtain ⟨hfailing, hpasses⟩ := hruns staircase {} [.bank, .legality] hsized hne
  rw [hclean] at hfailing
  exact ⟨hsized, hne, hfailing, hpasses hclean, by decide +kernel,
    fun f hf => (hcompile _ {} .report (by decide) f hf).1⟩

end Bankflow
