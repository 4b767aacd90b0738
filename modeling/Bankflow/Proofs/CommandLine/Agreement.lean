import Bankflow.CommandLine.Command
import Bankflow.CommandLine.FileSystem
import Bankflow.Proofs.Compile.Record

/-!
# Commands agree with compiling

A command goes through the passes on its own and logs what each of them finds, while
`compile` collects the findings in its state. Both come to the same: the log has one entry
for each finding of the state (`messages_run_eq`), a command that does not fail has a
text to deliver (`exists_render_eq`), and it is the one that the state has for the target
(`Printed.of_render_eq`, `Arguments.answered_compile`). Entries give the line of a finding,
which is found by walking over characters and is the one that the bytes before it give
(`lineOf_eq_lineFrom`).

Every target can be asked for, with or without its flag (`request_wordsFor`), and whatever
arguments ask for it, the outcome is that of `compile` (`run_agrees_with_compile`).
-/

namespace Bankflow.CommandLine

/-! ## Lines -/

/-- All bytes of a code that is longer than one byte are above those of short codes. -/
theorem le_toNat_of_mem_utf8EncodeChar {c : Char} {b : UInt8} (hc : 127 < c.val.toNat)
    (hb : b ∈ String.utf8EncodeChar c) : 128 ≤ b.toNat := by
  unfold String.utf8EncodeChar at hb
  rw [if_neg (Nat.not_le_of_lt hc)] at hb
  repeat' split at hb
  all_goals
    simp only [List.mem_cons, List.not_mem_nil, or_false] at hb
    rcases hb with rfl | rfl | rfl | rfl <;> rw [UInt8.toNat_ofNat'] <;> omega

/-- The byte of a line feed only codes a line feed. -/
theorem eq_lineFeed_of_mem_utf8EncodeChar {c : Char} (h : 10 ∈ String.utf8EncodeChar c) :
    c = '\n' := by
  have hc : c.val.toNat ≤ 127 :=
    Nat.le_of_not_lt fun hc => absurd (le_toNat_of_mem_utf8EncodeChar hc h) (by decide)
  unfold String.utf8EncodeChar at h
  rw [if_pos hc, List.mem_singleton, ← UInt8.toNat_inj, UInt8.toNat_ofNat'] at h
  have hval : c.val.toNat = 10 := by
    rw [Nat.mod_eq_of_lt (by omega)] at h
    exact h.symm
  exact Char.ext (UInt32.toNat_inj.mp hval)

theorem count_take_utf8EncodeChar (c : Char) (n : Nat) :
    ((String.utf8EncodeChar c).take (n + 1)).count 10 = if c = '\n' then 1 else 0 := by
  split
  next h =>
    rw [h, List.take_of_length_le (Nat.le_add_left 1 n)]
    rfl
  next h =>
    rw [List.count_eq_zero]
    exact fun hmem => h (eq_lineFeed_of_mem_utf8EncodeChar (List.mem_of_mem_take hmem))

/-- Line ends are counted by characters, and line feeds by bytes. -/
theorem lineEnds_eq_count :
    ∀ (cs : List Char) (n : Nat),
      lineEnds n cs = ((cs.flatMap String.utf8EncodeChar).take n).count 10
  | [], n => by simp [lineEnds]
  | _ :: _, 0 => by simp [lineEnds]
  | c :: cs, n + 1 => by
    rw [lineEnds, List.flatMap_cons, List.take_append, List.count_append,
      count_take_utf8EncodeChar, String.length_utf8EncodeChar, lineEnds_eq_count cs]

/-- The line of an offset, from one: one more than the line feeds in the bytes before it. -/
def lineFrom (source : String) (offset : Nat) : Nat :=
  (source.toUTF8.data.toList.take offset).count 10 + 1

theorem lineOf_eq_lineFrom (source : String) (offset : Nat) :
    lineOf source offset = lineFrom source offset := by
  rw [lineOf, lineFrom, lineEnds_eq_count, String.toUTF8_eq_toByteArray, ← String.utf8Encode_toList,
    List.utf8Encode, List.data_toByteArray]

/-! ## What is read -/

/-- A text is read back from its bytes. -/
theorem decode_toUTF8 (s : String) : decode s.toUTF8 = .ok s := by
  have h : String.fromUTF8? s.toUTF8 = some s := by
    unfold String.fromUTF8?
    rw [String.toUTF8_eq_toByteArray, dif_pos s.isValidUTF8]
    rfl
  rw [decode, h]

/-- The name of a target in arguments. -/
def targetWord : Target → String
  | .design => "ir"
  | .layout => "layout"
  | .levels => "levels"
  | .report => "report"
  | .json => "json"

/-- Arguments that ask for a target of a source on standard output. -/
def wordsFor (path : String) (target : Target) (ignoreViolations : Bool) : List String :=
  "--emit" :: targetWord target ::
    ((if ignoreViolations then ["--ignore-violations"] else []) ++ ["--", path])

theorem Argument.of_targetWord (target : Target) :
    of (targetWord target) = .operand (targetWord target) := by
  cases target <;> decide

theorem Given.withTarget_targetWord {g : Given} (h : g.target = none) (target : Target) :
    g.withTarget (targetWord target) = .ok { g with target := some target } := by
  cases target <;> simp [withTarget, targetWord, targetNamed?, h]

theorem requestAfter_emit {g : Given} (h : g.target = none) (target : Target)
    (rest : List String) :
    requestAfter g ("--emit" :: targetWord target :: rest) =
      requestAfter { g with target := some target } rest := by
  have heffect : g.effect (Argument.of "--emit") = .await .target := by
    rw [show Argument.of "--emit" = .long "emit" none by decide]
    rfl
  simp only [requestAfter, heffect, Argument.of_targetWord, ValueOption.give,
    Given.withTarget_targetWord h]

theorem requestAfter_ignoreViolations {g : Given} (h : g.ignoreViolations = false)
    (rest : List String) :
    requestAfter g ("--ignore-violations" :: rest) =
      requestAfter { g with ignoreViolations := true } rest := by
  have heffect : g.effect (Argument.of "--ignore-violations") =
      .give { g with ignoreViolations := true } := by
    rw [show Argument.of "--ignore-violations" = .long "ignore-violations" none by decide]
    simp [Given.effect, Effect.ofFlag, Effect.ofGiven, Given.withIgnoreViolations, h]
  simp only [requestAfter, heffect]

theorem requestAfter_source {g : Given} (h : g.source = none) {path : String} (hpath : path ≠ "") :
    requestAfter g ["--", path] = { g with source := some path }.request := by
  have heffect : g.effect (Argument.of "--") = .operandsOnly := by
    rw [show Argument.of "--" = .endOfOptions by decide]
    rfl
  have hsource : g.withSource path = .ok { g with source := some path } := by
    simp [Given.withSource, h, hpath]
  simp only [requestAfter, heffect, Given.operands, hsource]

theorem request_wordsFor {path : String} (hpath : path ≠ "") (target : Target)
    (ignoreViolations : Bool) :
    request (wordsFor path target ignoreViolations) =
      .run ⟨path, target, ignoreViolations, none, false⟩ := by
  rw [request, wordsFor, requestAfter_emit rfl]
  cases ignoreViolations with
  | false =>
    rw [if_neg Bool.false_ne_true, List.nil_append, requestAfter_source rfl hpath]
    rfl
  | true =>
    rw [if_pos rfl, List.singleton_append, requestAfter_ignoreViolations rfl,
      requestAfter_source rfl hpath]
    rfl

/-! ## What is logged -/

/-- What the log says of a finding. Bad syntax is told without severity and code. -/
def logText (f : Finding) : String :=
  match f.issue with
  | .badSyntax problem => "parse error: " ++ problem.message
  | _ => f.diagnostic.text

/-- The entry of the log for a finding in a source. -/
def entry (path source : String) (f : Finding) : String :=
  say (path ++ ":" ++ toString (lineFrom source f.span.start) ++ ": " ++ logText f)

theorem sayAt_logText (path source : String) (f : Finding) :
    sayAt path source f.span.start (logText f) = entry path source f := by
  rw [sayAt, lineOf_eq_lineFrom, entry]

theorem logText_of_isOwn {f : Finding} (h : f.issue.IsOwn) : logText f = f.diagnostic.text := by
  obtain ⟨issue, span⟩ := f
  cases issue with
  | badSyntax problem => exact h.elim
  | _ => rfl

theorem logText_of_mem_certificateFindings {c : Certificate} {issue : List String → Issue}
    {span : Span} {f : Finding}
    (hissue : ∀ failures, logText ⟨issue failures, span⟩ =
      (⟨issue failures, span⟩ : Finding).diagnostic.text)
    (hf : f ∈ certificateFindings c issue span) : logText f = f.diagnostic.text := by
  unfold certificateFindings at hf
  split at hf
  · exact absurd hf List.not_mem_nil
  · cases List.mem_singleton.mp hf
    exact hissue c.failures

/-- No pass finds bad syntax. -/
theorem logText_of_runPass? {s s' : State} {q : Pass} {found : List Finding}
    (h : s.runPass? q = some (s', found)) : ∀ f ∈ found, logText f = f.diagnostic.text := by
  intro f hf
  cases q with
  | resolve =>
    cases h
    exact logText_of_isOwn (allOwn_findings s.program f hf)
  | bank =>
    obtain ⟨d, -, h⟩ := Option.map_eq_some_iff.mp h
    cases h
    exact logText_of_mem_certificateFindings (fun _ => rfl) hf
  | schedule =>
    obtain ⟨d, -, h⟩ := Option.map_eq_some_iff.mp h
    cases h
    obtain ⟨v, -, hv⟩ := List.mem_filterMap.mp hf
    simp only [Dataflow.Graph.violationFinding?, Option.bind_eq_bind, Option.bind_eq_some_iff] at hv
    obtain ⟨n, -, b, -, hfinding⟩ := hv
    cases hfinding
    rfl
  | legality =>
    obtain ⟨d, -, h⟩ := Option.map_eq_some_iff.mp h
    cases h
    rcases List.mem_append.mp hf with hf | hf
    · obtain ⟨r, -, hr⟩ := List.mem_filterMap.mp hf
      simp only [Dataflow.Graph.regionFinding?, Option.bind_eq_bind, Option.bind_eq_some_iff] at hr
      obtain ⟨region, -, hfinding⟩ := hr
      cases hfinding
      rfl
    · exact logText_of_mem_certificateFindings (fun _ => rfl) hf

/-- The messages of the passes of a run are the entries of the findings that it collects. -/
theorem messages_run_eq (path source : String) (p : Source.Program) (overrides : Options)
    (terminals : List Pass) :
    (((State.start p overrides).run terminals).events.flatMap fun e =>
        e.2.map fun f => sayAt path source f.span.start f.diagnostic.text) =
      ((State.start p overrides).run terminals).state.findings.map (entry path source) := by
  have hfindings : ((State.start p overrides).run terminals).state.findings =
      ((State.start p overrides).run terminals).events.flatMap (·.2) :=
    (State.records_run p overrides terminals).findings_eq
  rw [hfindings, List.map_flatMap]
  refine List.flatMap_congr fun e he => List.map_congr_left fun f hf => ?_
  obtain ⟨_, _, hpass⟩ := State.exists_runPass?_of_mem_events he
  rw [← logText_of_runPass? hpass f hf, sayAt_logText]

/-! ## What is delivered -/

/-- The text that a state has for a target: that of the design, of a section of the report or
of all of it, or the report as data with a line end after it. -/
inductive Printed (s : State) : Target → String → Prop where
  | design (d : Design) (design_eq : s.design = some d) : Printed s .design d.text
  | layout (r : Report) (report_eq : s.report? = some r) : Printed s .layout r.layoutText
  | levels (r : Report) (report_eq : s.report? = some r) : Printed s .levels r.levelsText
  | report (r : Report) (report_eq : s.report? = some r) : Printed s .report r.text
  | json (r : Report) (report_eq : s.report? = some r) : Printed s .json (r.json.text ++ "\n")

theorem Printed.of_render_eq {s : State} {target : Target} {text : String}
    (h : render target s = some text) : Printed s target text := by
  cases target with
  | design =>
    obtain ⟨d, hd, rfl⟩ := Option.map_eq_some_iff.mp h
    exact .design d hd
  | layout =>
    obtain ⟨r, hr, rfl⟩ := Option.map_eq_some_iff.mp h
    exact .layout r hr
  | levels =>
    obtain ⟨r, hr, rfl⟩ := Option.map_eq_some_iff.mp h
    exact .levels r hr
  | report =>
    obtain ⟨r, hr, rfl⟩ := Option.map_eq_some_iff.mp h
    exact .report r hr
  | json =>
    obtain ⟨r, hr, rfl⟩ := Option.map_eq_some_iff.mp h
    exact .json r hr

/-- A run for a target that does not fail gives a text. -/
theorem exists_render_eq {p : Source.Program} {overrides : Options} {target : Target}
    (h : ((State.start p overrides).run target.passes).failing = none) :
    ∃ text, render target ((State.start p overrides).run target.passes).state = some text := by
  have hrecords := State.records_run p overrides target.passes
  obtain ⟨rest, hrest⟩ := Pass.exists_required_eq target.passes_ne_nil
  have hpasses : ((State.start p overrides).run target.passes).state.passes = .resolve :: rest :=
    hrecords.passes_eq.trans ((hrecords.ends.of_failing_eq_none h).1.trans hrest)
  have hresolve := (hrecords.accounted.hasResult_iff .resolve).mpr (hpasses ▸ List.mem_cons_self)
  obtain ⟨d, hd⟩ := Option.isSome_iff_exists.mp hresolve
  cases target <;> exact ⟨_, by simp only [render, State.report?, hd, Option.map_some]; rfl⟩

/-- What a state has for a command: findings to log, and a text unless it failed. -/
inductive Answered (a : Arguments) (source : String) (s : State) :
    Except Nat String × List String → Prop where
  | failed (failed_eq : s.failed = true) :
      Answered a source s (.error 1, s.findings.map (entry a.source source))
  | rendered (text : String) (failed_eq : s.failed = false) (printed : Printed s a.target text) :
      Answered a source s (.ok text, s.findings.map (entry a.source source))

namespace Arguments

variable {a : Arguments}

theorem aside_of_quiet (h : a.verbose = false) (messages : List String) :
    a.aside messages = [] := by
  rw [aside, h]
  rfl

theorem answered_unparsed (a : Arguments) (source : String) (errors : List Source.SyntaxError)
    (overrides : Options) :
    Answered a source (.unparsed source errors overrides)
      (.error 1, errors.map fun e =>
        sayAt a.source source e.span.start ("parse error: " ++ e.message)) := by
  have hentries : ((State.unparsed source errors overrides).findings.map (entry a.source source)) =
      errors.map fun e => sayAt a.source source e.span.start ("parse error: " ++ e.message) := by
    refine List.map_map.trans (List.map_congr_left fun e _ => ?_)
    exact (sayAt_logText a.source source ⟨.badSyntax e.problem, e.span⟩).symm
  rw [← hentries]
  exact .failed rfl

/-- Compiling for a quiet command, by the state of `compile`. -/
theorem answered_compile (hquiet : a.verbose = false) (source : String) :
    Answered a source (Bankflow.compile source ⟨a.ignoreViolations⟩ a.target)
      (a.compile source) := by
  cases hprogram : (Source.parse source).program with
  | none =>
    simp only [compile, Bankflow.compile, hprogram]
    exact answered_unparsed ..
  | some p =>
    cases herrors : (Source.parse source).errors with
    | cons e es =>
      simp only [compile, Bankflow.compile, hprogram, herrors]
      exact answered_unparsed ..
    | nil =>
      have hends := (State.records_run p ⟨a.ignoreViolations⟩ a.target.passes).ends
      simp only [compile, Bankflow.compile, hprogram, herrors, aside_of_quiet hquiet,
        List.nil_append, List.append_nil, messages_run_eq]
      cases hfailing : ((State.start p ⟨a.ignoreViolations⟩).run a.target.passes).failing with
      | some q => exact .failed (hends.failed_iff.mpr (by simp [hfailing]))
      | none =>
        obtain ⟨text, htext⟩ := exists_render_eq hfailing
        simp only [htext]
        refine .rendered text ?_ (.of_render_eq htext)
        exact Bool.eq_false_iff.mpr fun hfailed => hends.failed_iff.mp hfailed hfailing

/-- Without a file to write, what was compiled is the outcome. -/
def outcome : Except Nat String × List String → Outcome
  | (.ok text, log) => ⟨0, text, log⟩
  | (.error code, log) => ⟨code, "", log⟩

theorem run_access_eq {fs : FileSystem} {source : String} (hout : a.output = none)
    (hquiet : a.verbose = false) (hread : fs.read a.source = .ok source.toUTF8) :
    (a.run FileSystem.access).run fs = pure (outcome (a.compile source), fs) := by
  have hpreamble : a.preamble = [] := aside_of_quiet hquiet _
  have hsource : (fs.read a.source >>= decode) = .ok source := by
    rw [hread]
    exact decode_toUTF8 source
  simp only [run, FileSystem.access, StateT.run_bind, StateT.run_get, pure_bind, StateT.run_pure,
    hsource, hpreamble, List.nil_append]
  rcases a.compile source with ⟨code | text, log⟩
  · rfl
  · simp only [deliver, hout]
    rfl

end Arguments

/-- Commands agree with `compile`. Every target of every source can be asked for, with and
without its flag. Whatever arguments ask for it, if the result is not put into a file, the
command is quiet and the source can be read as a text, then the command changes no file and
its exit code is `0` if compiling does not fail, and `1` otherwise. It prints the text of
the state for the target in the one case and nothing in the other. Its log has an entry for
each finding, in order, with its line. -/
theorem run_agrees_with_compile :
    (∀ (path : String) (target : Target) (ignoreViolations : Bool), path ≠ "" →
      request (wordsFor path target ignoreViolations) =
        .run ⟨path, target, ignoreViolations, none, false⟩) ∧
    ∀ (fs : FileSystem) (args : List String) (a : Arguments) (source : String),
      request args = .run a → a.output = none → a.verbose = false →
      fs.read a.source = .ok source.toUTF8 →
      let s := Bankflow.compile source ⟨a.ignoreViolations⟩ a.target
      ∃ o : Outcome, (run FileSystem.access args).run fs = pure (o, fs) ∧
        (o.exit = 0 ↔ s.failed = false) ∧
        (s.failed = true → o.exit = 1 ∧ o.stdout = "") ∧
        (s.failed = false → Printed s a.target o.stdout) ∧
        o.log = s.findings.map (entry a.source source) := by
  refine ⟨fun path target flag h => request_wordsFor h target flag,
    fun fs args a source hargs hout hquiet hread => ?_⟩
  intro s
  have hanswered : Answered a source s (a.compile source) := a.answered_compile hquiet source
  have hrun : (run FileSystem.access args).run fs =
      pure (Arguments.outcome (a.compile source), fs) := by
    rw [run, hargs]
    exact Arguments.run_access_eq hout hquiet hread
  refine ⟨_, hrun, ?_⟩
  revert hanswered
  generalize a.compile source = answer
  rintro (hfailed | ⟨text, hfailed, htext⟩)
  · rw [hfailed]
    exact ⟨iff_of_false Nat.one_ne_zero Bool.noConfusion, fun _ => ⟨rfl, rfl⟩, Bool.noConfusion,
      rfl⟩
  · rw [hfailed]
    exact ⟨iff_of_true rfl rfl, Bool.noConfusion, fun _ => htext, rfl⟩

/-- A setting that is not known and one with a wrong value, below a character of two bytes. -/
def badSettings : String := "# é\nset fast = 1\nset ignore_violations = 2\n"

/-- A setting that is not known, and a region. -/
def oddSetting : String := "# é\nset fast = 1\nregion r \x7bnode a()->(x)\nnode b(x)\x7d\n"

/-- A working directory with one file. -/
def filesWith (bytes : ByteArray) : FileSystem :=
  ⟨["work"], [[], ["work"]], [(["work", "in"], bytes)]⟩

theorem read_filesWith (bytes : ByteArray) : (filesWith bytes).read "in" = .ok bytes := by
  have hpath : Path.of "in" = ⟨false, ["in"], false⟩ := by decide +kernel
  simp only [FileSystem.read, FileSystem.readPlace, hpath]
  rfl

theorem findings_badSettings :
    (Bankflow.compile badSettings ⟨true⟩ .levels).failed = true ∧
      (Bankflow.compile badSettings ⟨true⟩ .levels).findings =
        [⟨.unknownSetting "fast", ⟨9, 13⟩⟩, ⟨.notBoolean "ignore_violations", ⟨42, 43⟩⟩] := by
  decide +kernel

theorem design_oddSetting :
    (Bankflow.compile oddSetting ⟨false⟩ .design).failed = false ∧
      (Bankflow.compile oddSetting ⟨false⟩ .design).findings =
        [⟨.unknownSetting "fast", ⟨9, 13⟩⟩] ∧
      (Bankflow.compile oddSetting ⟨false⟩ .design).design.map Design.text =
        some ("region r legal \x7b\n  node a() -> (x) level 1\n  node b(x) level 0\n\x7d\n") := by
  decide +kernel

/-- A source that fails and one that does not. -/
theorem settings_run_agree :
    request (wordsFor "in" .levels true) = .run ⟨"in", .levels, true, none, false⟩ ∧
      (filesWith badSettings.toUTF8).read "in" = .ok badSettings.toUTF8 ∧
      (∃ o, (run FileSystem.access (wordsFor "in" .levels true)).run
          (filesWith badSettings.toUTF8) = pure (o, filesWith badSettings.toUTF8) ∧
        o.exit = 1 ∧ o.stdout = "" ∧
        o.log =
          ["hlsopt: in:2: warning[W0100]: unknown setting 'fast' ignored\n" ++
              "  hint: known settings: ignore_violations",
            "hlsopt: in:3: error[E0107]: 'ignore_violations' expects a boolean\n" ++
              "  hint: use true, false, 1 or 0"]) ∧
      ∃ o, (run FileSystem.access (wordsFor "in" .design false)).run
          (filesWith oddSetting.toUTF8) = pure (o, filesWith oddSetting.toUTF8) ∧
        o.exit = 0 ∧
        o.stdout = "region r legal \x7b\n  node a() -> (x) level 1\n  node b(x) level 0\n\x7d\n" ∧
        o.log =
          ["hlsopt: in:2: warning[W0100]: unknown setting 'fast' ignored\n" ++
              "  hint: known settings: ignore_violations"] := by
  have hrequest := run_agrees_with_compile.1 "in" .levels true (by decide)
  have hread := read_filesWith badSettings.toUTF8
  refine ⟨hrequest, hread, ?_, ?_⟩
  · obtain ⟨hfailed, hfindings⟩ := findings_badSettings
    obtain ⟨o, hrun, -, hstopped, -, hlog⟩ :=
      run_agrees_with_compile.2 _ _ _ badSettings hrequest rfl rfl hread
    refine ⟨o, hrun, (hstopped hfailed).1, (hstopped hfailed).2, ?_⟩
    rw [hlog, hfindings]
    decide +kernel
  · obtain ⟨hdone, hfindings, htext⟩ := design_oddSetting
    obtain ⟨o, hrun, hexit, -, hprinted, hlog⟩ :=
      run_agrees_with_compile.2 _ _ _ oddSetting
        (run_agrees_with_compile.1 "in" .design false (by decide)) rfl rfl
        (read_filesWith oddSetting.toUTF8)
    refine ⟨o, hrun, hexit.mpr hdone, ?_, ?_⟩
    · generalize o.stdout = text at hprinted
      cases hprinted hdone with
      | design d hd =>
        rw [hd, Option.map_some, Option.some.injEq] at htext
        exact htext
    · rw [hlog, hfindings]
      decide +kernel

end Bankflow.CommandLine
