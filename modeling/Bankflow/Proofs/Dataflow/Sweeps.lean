import Bankflow.Proofs.Dataflow.History

/-!
# Sweeps in any order

A graph may be scheduled and checked any number of times, in any order and with different
options each time. Levels are written once (`levelsKept_sweepAll`). What a strict and a
permissive run find fits together: either way a level is the length of the longest walk
from a node that leads to no cycle. This and the marks are the invariant (`Swept`), which
every sweep keeps (`Swept.sweep`).

Once a graph was scheduled, it therefore passes its certificate however it is swept
(`sweeps_certified`).
-/

namespace Bankflow.Dataflow.Graph

variable {g g₀ g' g'' : Graph} {options : Options} {sweeps : List Sweep}

/-- The graph after some sweeps. -/
def sweepAll (g : Graph) (sweeps : List Sweep) : Graph := sweeps.foldl sweep g

theorem sweepAll_append (g : Graph) (before after : List Sweep) :
    g.sweepAll (before ++ after) = (g.sweepAll before).sweepAll after :=
  List.foldl_append

/-! ## Levels are written once -/

/-- Graph `g'` has all levels of `g`, and perhaps more. -/
def LevelsKept (g g' : Graph) : Prop := ∀ n l, g.level? n = some l → g'.level? n = some l

theorem LevelsKept.refl (g : Graph) : g.LevelsKept g := fun _ _ h => h

theorem LevelsKept.trans (h : g.LevelsKept g') (h' : g'.LevelsKept g'') : g.LevelsKept g'' :=
  fun n l hl => h' n l (h n l hl)

theorem levelsKept_advance (g : Graph) (options : Options) :
    g.LevelsKept (g.advance options) := by
  intro n l hl
  rw [level?_advance, hl, Option.some_or]

theorem levelsKept_sweep (g : Graph) (s : Sweep) : g.LevelsKept (g.sweep s) := by
  cases s with
  | schedule options =>
    exact settle_induction (P := g.LevelsKept) (fun g' h => h.trans (levelsKept_advance g' options))
      (.refl g)
  | checkLegality options =>
    obtain ⟨regions, hg⟩ := exists_regions_checkLegality g options
    rw [sweep, hg]
    exact fun _ _ h => h

theorem levelsKept_sweepAll (g : Graph) (sweeps : List Sweep) :
    g.LevelsKept (g.sweepAll sweeps) := by
  induction sweeps generalizing g with
  | nil => exact .refl g
  | cons s sweeps ih => exact (levelsKept_sweep g s).trans (ih (g.sweep s))

theorem LevelsKept.isLevelled (h : g.LevelsKept g') {n : Nat} (hn : g.isLevelled n = true) :
    g'.isLevelled n = true := by
  obtain ⟨l, hl⟩ := Option.isSome_iff_exists.mp hn
  exact Option.isSome_iff_exists.mpr ⟨l, h n l hl⟩

/-- More levels do no harm to regions that are marked legal. -/
theorem LevelsKept.legalRegionsLevelled (h : g.LevelsKept g') (hregions : g'.regions = g.regions)
    (hmarks : g.legalRegionsLevelled = true) : g'.legalRegionsLevelled = true := by
  refine List.all_eq_true.mpr fun r hr => ?_
  have hr' := List.all_eq_true.mp hmarks r (hregions ▸ hr)
  rw [Bool.or_eq_true] at hr' ⊢
  refine hr'.imp_right fun hlegal => ?_
  exact List.all_eq_true.mpr fun n hn => h.isLevelled (List.all_eq_true.mp hlegal n hn)

/-! ## The invariant -/

/-- What holds after any sweeps over a graph `g₀` without levels and marks. Levels are as if
violations had been ignored all along, but strict sweeps may have left some out. -/
structure Swept (g₀ g : Graph) : Prop extends Levelling g₀ ⟨true⟩ g where
  marks : g.legalRegionsLevelled = true

theorem Built.swept (hg : g.Built) : Swept g g :=
  ⟨levelling_start hg.mirrors hg.level_eq_none,
    legalRegionsLevelled_of_unmarked hg.legal_eq_false⟩

/-- Levels and ports are not in the regions. -/
theorem Levelling.checkLegality {options' : Options} (h : Levelling g₀ options g) :
    Levelling g₀ options (g.checkLegality options').1 := by
  obtain ⟨regions, hg⟩ := exists_regions_checkLegality g options'
  rw [hg]
  exact ⟨⟨⟨⟨h.mirrors.inputs.listed, h.mirrors.inputs.lt⟩,
    ⟨h.mirrors.outputs.listed, h.mirrors.outputs.lt⟩⟩, h.feeds_iff, h.blocked_iff, h.length_eq,
    h.free⟩, h.longest⟩

/-- Every sweep keeps the invariant. -/
theorem Swept.sweep (h : Swept g₀ g) (hsize : g₀.nodes.length ≤ maxLevel) (s : Sweep) :
    Swept g₀ (g.sweep s) := by
  cases s with
  | schedule options =>
    have hlevelling : Levelling g₀ ⟨true⟩ (g.settle options).1 :=
      settle_induction (fun _ h => h.advance (fun _ => rfl) hsize) h.toLevelling
    exact ⟨hlevelling, (levelsKept_sweep g (.schedule options)).legalRegionsLevelled
      (regions_settle g options) h.marks⟩
  | checkLegality options =>
    exact ⟨h.toLevelling.checkLegality, legalRegionsLevelled_checkLegality h.marks⟩

theorem Swept.sweepAll (h : Swept g₀ g) (hsize : g₀.nodes.length ≤ maxLevel)
    (sweeps : List Sweep) : Swept g₀ (g.sweepAll sweeps) := by
  induction sweeps generalizing g with
  | nil => exact h
  | cons s sweeps ih => exact ih (h.sweep hsize s)

/-- Every schedule brings the nodes without outputs to level `0`, and they stay there. -/
theorem Swept.sinksAtZero (h : Swept g₀ g) (hsize : g₀.nodes.length ≤ maxLevel)
    (hsome : .schedule options ∈ sweeps) : (g.sweepAll sweeps).sinksAtZero = true := by
  induction sweeps using List.reverseRecOn with
  | nil => exact absurd hsome List.not_mem_nil
  | append_singleton sweeps s ih =>
    rw [sweepAll_append]
    cases s with
    | schedule options' =>
      have hswept := (h.sweepAll hsize sweeps).sweep hsize (.schedule options')
      exact hswept.toLevelling.sinksAtZero (readyCount_settle (g.sweepAll sweeps) options')
    | checkLegality options' =>
      have hbefore : .schedule options ∈ sweeps := by simpa using hsome
      exact sinksAtZero_checkLegality.trans (ih hbefore)

/-! ## Certificates -/

/-- A graph without levels that is swept in any order and with any options, and scheduled at
least once, passes its certificate at the end. A level that a node has at some point of the
sequence is its level at every later point. Nodes are numbered in 32 bits, so there are
fewer than `2 ^ 32`. -/
theorem sweeps_certified (hg : g.Built) (hsize : g.nodes.length < 2 ^ 32) (sweeps : List Sweep)
    (hsome : ∃ options, .schedule options ∈ sweeps) :
    ((g.sweepAll sweeps).certificate).allPass = true ∧
      ∀ i j n l, i ≤ j → (g.sweepAll (sweeps.take i)).level? n = some l →
        (g.sweepAll (sweeps.take j)).level? n = some l := by
  have hmax : g.nodes.length ≤ maxLevel := by
    simp only [maxLevel]
    omega
  obtain ⟨options, hsome⟩ := hsome
  have hswept := hg.swept.sweepAll hmax sweeps
  refine ⟨?_, fun i j n l hij hl => ?_⟩
  · simp only [certificate, Certificate.allPass, hswept.marks, hswept.levelsOrdered,
      hg.swept.sinksAtZero hmax hsome, List.all_cons, List.all_nil, Bool.and_self]
  · obtain ⟨k, rfl⟩ := Nat.exists_eq_add_of_le hij
    rw [List.take_add, sweepAll_append]
    exact levelsKept_sweepAll _ _ n l hl

/-- The buffer of the first node is read by the two others. -/
def forked : Graph where
  nodes := [⟨"source", 0, [], [0], ⟨0, 0⟩, none⟩, ⟨"left", 0, [0], [1], ⟨0, 0⟩, none⟩,
    ⟨"right", 1, [0, 1], [], ⟨0, 0⟩, none⟩]
  buffers := [⟨"a", [0], [1, 2]⟩, ⟨"b", [1], [2]⟩]
  regions := [⟨"r", [0, 1], false, ⟨0, 0⟩⟩, ⟨"s", [2], false, ⟨0, 0⟩⟩]

theorem built_forked : forked.Built := by
  have regions := (Built.empty.addRegion "r" ⟨0, 0⟩).addRegion "s" ⟨0, 0⟩
  have buffers := (regions.internBuffer "a").internBuffer "b"
  have source := @Built.addNode _ _ 0 0 "source" [] [0] ⟨0, 0⟩ buffers rfl
  have left := @Built.addNode _ _ 0 1 "left" [0] [1] ⟨0, 0⟩ source rfl
  exact @Built.addNode _ _ 1 2 "right" [0, 1] [] ⟨0, 0⟩ left rfl

/-- The regions are checked before the first schedule. The strict schedule leaves out the
source, which the permissive one levels above the others. -/
def strictThenPermissive : List Sweep :=
  [.checkLegality ⟨false⟩, .schedule ⟨false⟩, .checkLegality ⟨false⟩, .schedule ⟨true⟩,
    .checkLegality ⟨true⟩]

theorem forked_certified :
    forked.Built ∧ forked.nodes.length < 2 ^ 32 ∧
      .schedule ⟨false⟩ ∈ strictThenPermissive ∧
      ((forked.sweepAll strictThenPermissive).certificate).allPass = true ∧
      (forked.sweepAll (strictThenPermissive.take 2)).level? 0 = none ∧
      (forked.sweepAll (strictThenPermissive.take 2)).level? 1 = some 1 ∧
      (forked.sweepAll (strictThenPermissive.take 4)).level? 0 = some 2 ∧
      (forked.sweepAll (strictThenPermissive.take 4)).level? 1 = some 1 := by
  have hsize : forked.nodes.length < 2 ^ 32 := by decide
  have hmem : .schedule ⟨false⟩ ∈ strictThenPermissive := by decide
  have hstrict : (forked.sweepAll (strictThenPermissive.take 2)).level? 1 = some 1 := by
    decide +kernel
  obtain ⟨hpass, hkept⟩ := sweeps_certified built_forked hsize strictThenPermissive ⟨_, hmem⟩
  exact ⟨built_forked, hsize, hmem, hpass, by decide +kernel, hstrict, by decide +kernel,
    hkept 2 4 1 1 (by decide) hstrict⟩

end Bankflow.Dataflow.Graph
