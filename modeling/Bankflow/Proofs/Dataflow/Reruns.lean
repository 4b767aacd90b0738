import Bankflow.Proofs.Dataflow.Violations
import Mathlib.Data.List.Sort

/-!
# Runs one after the other

A strict run is a part of the way of a permissive one (`underway_strict`). So a permissive run
gets to the same end from where a strict one stopped, and the two ends differ only if there
are violations (`schedule_strict_of_no_violations`). At the end of a permissive run no node is
ready, whatever is enforced (`readyCount_eq_zero_mono`), so that a strict run has nothing to
add.

A run from the end of another one is a single round, which reports what was left before
(`schedule_schedule`). All of this is put together in `permissive_run_absorbs_strict`.
-/

namespace Bankflow.Dataflow.Graph

variable {g : Graph} {options options' : Options}

/-! ## Strict and permissive runs -/

theorem underway_strict (g : Graph) : Underway g ⟨true⟩ (g.schedule ⟨false⟩).1 :=
  (Underway.start g ⟨true⟩).settle fun _ => rfl

/-- Where no node is ready, none is ready where more is enforced. -/
theorem readyCount_eq_zero_mono
    (hle : options.ignoreViolations = false → options'.ignoreViolations = false)
    (h : g.readyCount options = 0) : g.readyCount options' = 0 := by
  rw [readyCount_eq_zero_iff] at h ⊢
  refine fun x hx => Option.eq_none_iff_forall_ne_some.mpr fun l hl => ?_
  have hready := readyLevel?_mono hle hl
  rw [h x hx] at hready
  cases hready

/-- If a strict run has no violations, a permissive one would have ended there as well. -/
theorem schedule_strict_of_no_violations (h : (g.schedule ⟨false⟩).2.violations = []) :
    (g.schedule ⟨false⟩).1 = (g.schedule ⟨true⟩).1 := by
  refine (underway_strict g).eq_of_done (readyCount_eq_zero_iff.mpr fun x hx => ?_)
    (underway_schedule g ⟨true⟩) (readyCount_schedule g ⟨true⟩)
  obtain ⟨n, hn⟩ := List.mem_iff_getElem?.mp hx
  refine Option.eq_none_iff_forall_ne_some.mpr fun l hl => ?_
  obtain ⟨hnone, -, habove⟩ := readyLevel?_eq_some_iff.mp hl
  have hfree := isBlocked_eq_false_of_no_violations h rfl hn hnone
  have hready : (g.schedule ⟨false⟩).1.readyLevel? ⟨false⟩ x = some l :=
    readyLevel?_eq_some_iff.mpr ⟨hnone, fun _ => hfree, habove⟩
  rw [readyLevel?_eq_none (readyCount_schedule g ⟨false⟩) hn] at hready
  cases hready

/-! ## Runs from the end of a run -/

theorem fst_schedule_of_none_ready (h : g.readyCount options = 0) : (g.schedule options).1 = g := by
  rw [schedule, settle_of_none_ready h]

theorem schedule_of_none_ready (h : g.readyCount options = 0) :
    g.schedule options = (g, ⟨1, [], g.pending, (g.schedule options).2.violations⟩) := by
  simp only [schedule, settle_of_none_ready h, blockedInRounds_of_none_ready h,
    List.length_singleton]

/-- A second run is a single round and reports what the first one did. -/
theorem schedule_schedule (g : Graph) (options : Options) :
    (g.schedule options).1.schedule options =
      ((g.schedule options).1, { (g.schedule options).2 with rounds := 1, assigned := [] }) := by
  have hdone := readyCount_schedule g options
  have hbare : (g.schedule options).1.bare = g.bare := bare_sweep g (.schedule options)
  -- both lists are in order, so it is enough to compare what is in them
  have hviolations : ((g.schedule options).1.schedule options).2.violations =
      (g.schedule options).2.violations := by
    refine (pairwise_violations_schedule _ options).eq_of_mem_iff
      (pairwise_violations_schedule g options) fun v => ?_
    obtain ⟨n, b⟩ := v
    have hwrites : (g.schedule options).1.Writes n b ↔ g.Writes n b :=
      hasPort_of_bare_eq hbare fun _ => rfl
    rw [mem_violations_schedule, mem_violations_schedule, fst_schedule_of_none_ready hdone,
      hwrites, isShared_of_bare_eq hbare]
  have hagain := schedule_of_none_ready hdone
  rw [hviolations] at hagain
  exact hagain

/-! ## Histories -/

/-- Ignoring violations only adds levels, whatever levels there are at the start. A node that a
strict run levels gets the same level in a permissive one, and if there are no violations the
two are the same. A strict run before or after a permissive one changes nothing of the end.
Every run goes on until no node is ready, so that the same run once more assigns nothing and
reports the same nodes and violations. -/
theorem permissive_run_absorbs_strict (g : Graph) :
    (∀ n l, (g.schedule ⟨false⟩).1.level? n = some l → (g.schedule ⟨true⟩).1.level? n = some l) ∧
    ((g.schedule ⟨false⟩).2.violations = [] →
      (g.schedule ⟨false⟩).1 = (g.schedule ⟨true⟩).1) ∧
    ((g.schedule ⟨false⟩).1.schedule ⟨true⟩).1 = (g.schedule ⟨true⟩).1 ∧
    ((g.schedule ⟨true⟩).1.schedule ⟨false⟩).1 = (g.schedule ⟨true⟩).1 ∧
    ∀ options, (g.schedule options).1.readyCount options = 0 ∧
      (g.schedule options).1.schedule options =
        ((g.schedule options).1, { (g.schedule options).2 with rounds := 1, assigned := [] }) := by
  refine ⟨fun n l hl => ?_, schedule_strict_of_no_violations, ?_, ?_, fun options =>
    ⟨readyCount_schedule g options, schedule_schedule g options⟩⟩
  · exact level?_schedule_iff_due.mpr ((underway_strict g).due n l hl)
  · exact ((underway_strict g).settle id).eq_of_done (readyCount_schedule _ ⟨true⟩)
      (underway_schedule g ⟨true⟩) (readyCount_schedule g ⟨true⟩)
  · have hdone : (g.schedule ⟨true⟩).1.readyCount ⟨false⟩ = 0 :=
      readyCount_eq_zero_mono (fun _ => rfl) (readyCount_schedule g ⟨true⟩)
    exact fst_schedule_of_none_ready hdone

/-- The last node has a level before the runs. Only a permissive run levels the source, and it
does so also after a strict one. -/
theorem forked_run_absorbs_strict :
    ((forked.assignLevel 2 5).schedule ⟨false⟩).1.level? 1 = some 6 ∧
      ((forked.assignLevel 2 5).schedule ⟨false⟩).1.level? 0 = none ∧
      ((forked.assignLevel 2 5).schedule ⟨true⟩).1.level? 1 = some 6 ∧
      (((forked.assignLevel 2 5).schedule ⟨false⟩).1.schedule ⟨true⟩).1.level? 0 = some 7 ∧
      (((forked.assignLevel 2 5).schedule ⟨false⟩).1.schedule ⟨false⟩).2 =
        ⟨1, [], [0], [(0, 0)]⟩ := by
  obtain ⟨hadds, -, hafter, -, hagain⟩ := permissive_run_absorbs_strict (forked.assignLevel 2 5)
  have hleft : ((forked.assignLevel 2 5).schedule ⟨false⟩).1.level? 1 = some 6 := by decide +kernel
  refine ⟨hleft, by decide +kernel, hadds 1 6 hleft, ?_, ?_⟩
  · rw [hafter]
    decide +kernel
  · rw [(hagain ⟨false⟩).2]
    decide +kernel

end Bankflow.Dataflow.Graph
