import Bankflow.Proofs.Dataflow.Due
import Mathlib.Data.Fintype.EquivFin

/-!
# What violations explain

Every round notes which nodes it finds blocked, and a node may name an output twice, so a run
comes with many copies of the same notes. What is left of them are the contested outputs of
the nodes without a level, each once and in order (`mem_violations_schedule`,
`pairwise_violations_schedule`).

A node without a level is blocked, or it waits for another node without a level
(`exists_stuck`). There are finitely many nodes, so that without violations the nodes that
wait for each other form a cycle (`exists_cycle`). So whatever a run leaves out is explained
by a violation or by a cycle (`violations_explain_pending`).
-/

namespace Bankflow

/-- A dead end is missing among finitely many numbers, so there is a cycle. -/
theorem exists_cycle {r : Nat → Nat → Prop} {size n : Nat} (hlt : ∀ a b, r a b → a < size)
    (hstep : ∀ a, Relation.ReflTransGen r n a → ∃ b, r a b) :
    ∃ a, Relation.ReflTransGen r n a ∧ Relation.TransGen r a a := by
  by_contra hnone
  -- numbers that are reached later come first, so that induction goes along `r`
  let after (a b : { a : Fin size // Relation.ReflTransGen r n a }) : Prop :=
    Relation.TransGen r b.1 a.1
  have htrans : IsTrans _ after := ⟨fun _ _ _ hab hbc => hbc.trans hab⟩
  have hirrefl : Std.Irrefl after := ⟨fun a hcycle => hnone ⟨a.1, a.2, hcycle⟩⟩
  obtain ⟨m, hm⟩ := hstep n .refl
  refine (Finite.wellFounded_of_trans_of_irrefl after).induction (C := fun _ => False)
    ⟨⟨n, hlt n m hm⟩, .refl⟩ fun a ih => ?_
  obtain ⟨b, hab⟩ := hstep a.1 a.2
  obtain ⟨c, hbc⟩ := hstep b (a.2.tail hab)
  exact ih ⟨⟨b, hlt b c hbc⟩, a.2.tail hab⟩ (.single hab)

namespace Dataflow

/-! ## Distinct pairs in order -/

theorem pairLt_iff {v w : Nat × Nat} : pairLt v w = true ↔ v.1 < w.1 ∨ v.1 = w.1 ∧ v.2 < w.2 := by
  simp [pairLt]

theorem strictOrder_pairLt : StrictOrder pairLt where
  trans huv hvw := by
    rw [pairLt_iff] at *
    omega
  total {v w} hvw hne := by
    rw [pairLt_iff] at *
    have hne' : ¬ (v.1 = w.1 ∧ v.2 = w.2) := fun heq => hne (Prod.ext heq.1 heq.2)
    omega

theorem mem_distinctPairs {v : Nat × Nat} {vs : List (Nat × Nat)} :
    v ∈ distinctPairs vs ↔ v ∈ vs :=
  mem_ordered

theorem pairwise_distinctPairs (vs : List (Nat × Nat)) :
    (distinctPairs vs).Pairwise (Prod.Lex (· < ·) (· < ·)) :=
  (pairwise_ordered strictOrder_pairLt vs).imp fun h => Prod.lex_def.mpr (pairLt_iff.mp h)

namespace Graph

open Relation (ReflTransGen TransGen)

variable {g : Graph} {options : Options} {n m b : Nat} {x : Node}

/-! ## Notes of blocked nodes -/

theorem mem_blockers : b ∈ g.blockers options x ↔
    options.ignoreViolations = false ∧ x.level = none ∧ b ∈ x.outputs ∧ g.isShared b = true := by
  unfold blockers
  cases options.ignoreViolations <;> cases x.level <;> simp

/-- A round notes the shared outputs of the nodes that have no level by then. -/
theorem mem_blockedNow : (n, b) ∈ g.blockedNow options ↔
    options.ignoreViolations = false ∧ g.level? n = none ∧ g.Writes n b ∧ g.isShared b = true := by
  simp only [blockedNow, List.mem_flatMap, List.mem_map, List.mem_zipIdx_iff_getElem?, mem_blockers]
  constructor
  · rintro ⟨⟨x, i⟩, hx, b', ⟨hstrict, hnone, hb, hshared⟩, heq⟩
    obtain ⟨rfl, rfl⟩ := Prod.mk.inj heq
    exact ⟨hstrict, (level?_eq_level hx).trans hnone, ⟨x, hx, hb⟩, hshared⟩
  · rintro ⟨hstrict, hnone, ⟨x, hx, hb⟩, hshared⟩
    exact ⟨(x, n), hx, b, ⟨hstrict, (level?_eq_level hx).symm.trans hnone, hb, hshared⟩, rfl⟩

theorem blockedInRounds_of_none_ready (h : g.readyCount options = 0) :
    g.blockedInRounds options = [g.blockedNow options] := by
  rw [blockedInRounds, if_pos h]

theorem blockedInRounds_of_some_ready (h : g.readyCount options ≠ 0) :
    g.blockedInRounds options =
      g.blockedNow options :: (g.advance options).blockedInRounds options := by
  rw [blockedInRounds, if_neg h]

/-- Rounds change no ports, so all of them note outputs that were shared at the start. -/
theorem shared_of_mem_blockedInRounds (h : (n, b) ∈ (g.blockedInRounds options).flatten) :
    options.ignoreViolations = false ∧ g.Writes n b ∧ g.isShared b = true := by
  induction g using settle.induct options with
  | case1 g _ hdone =>
    rw [blockedInRounds_of_none_ready hdone, List.flatten_singleton, mem_blockedNow] at h
    exact ⟨h.1, h.2.2⟩
  | case2 g _ hready _ _ _ ih =>
    rw [blockedInRounds_of_some_ready hready, List.flatten_cons, List.mem_append,
      mem_blockedNow] at h
    rcases h with h | h
    · exact ⟨h.1, h.2.2⟩
    · obtain ⟨hstrict, hwrites, hshared⟩ := ih h
      exact ⟨hstrict, writes_advance.mp hwrites, hshared⟩

/-- The first round notes all that is blocked at the start. -/
theorem mem_blockedInRounds_of_blockedNow (h : (n, b) ∈ g.blockedNow options) :
    (n, b) ∈ (g.blockedInRounds options).flatten := by
  rw [blockedInRounds, List.flatten_cons]
  exact List.mem_append_left _ h

/-! ## Violations of a run -/

/-- The violations of a run are the shared outputs of the nodes without a level at the end. -/
theorem mem_violations_schedule : (n, b) ∈ (g.schedule options).2.violations ↔
    options.ignoreViolations = false ∧ (g.schedule options).1.level? n = none ∧
      g.Writes n b ∧ g.isShared b = true := by
  have hpending : (!(g.schedule options).1.isLevelled n) = true ↔
      (g.schedule options).1.level? n = none := by
    rw [isLevelled, Bool.not_eq_true', Option.isSome_eq_false_iff, Option.isNone_iff_eq_none]
  show (n, b) ∈ (distinctPairs _).filter _ ↔ _
  rw [List.mem_filter, mem_distinctPairs]
  constructor
  · rintro ⟨hnoted, hnone⟩
    obtain ⟨hstrict, hshared⟩ := shared_of_mem_blockedInRounds hnoted
    exact ⟨hstrict, hpending.mp hnone, hshared⟩
  · rintro ⟨hstrict, hnone, hshared⟩
    -- levels are kept, so the node had none in the first round
    have hstart : g.level? n = none := by
      refine Option.eq_none_iff_forall_ne_some.mpr fun l hl => ?_
      have hkept := levelsKept_sweep g (.schedule options) n l hl
      rw [sweep, hnone] at hkept
      cases hkept
    exact ⟨mem_blockedInRounds_of_blockedNow (mem_blockedNow.mpr ⟨hstrict, hstart, hshared⟩),
      hpending.mpr hnone⟩

theorem pairwise_violations_schedule (g : Graph) (options : Options) :
    (g.schedule options).2.violations.Pairwise (Prod.Lex (· < ·) (· < ·)) :=
  (pairwise_distinctPairs _).filter _

theorem violations_schedule_of_ignored (h : options.ignoreViolations = true) :
    (g.schedule options).2.violations = [] := by
  refine List.eq_nil_iff_forall_not_mem.mpr fun v hv => ?_
  obtain ⟨n, b⟩ := v
  rw [mem_violations_schedule, h] at hv
  cases hv.1

/-- Without violations no node that a strict run leaves without a level is blocked. -/
theorem isBlocked_eq_false_of_no_violations (hnone : (g.schedule options).2.violations = [])
    (hstrict : options.ignoreViolations = false)
    (hx : (g.schedule options).1.nodes[n]? = some x) (hlevel : x.level = none) :
    (g.schedule options).1.isBlocked x = false := by
  have hbare : (g.schedule options).1.bare = g.bare := bare_sweep g (.schedule options)
  refine Bool.eq_false_iff.mpr fun hblocked => ?_
  obtain ⟨b, hb, hshared⟩ := List.any_eq_true.mp hblocked
  have hviolation : (n, b) ∈ (g.schedule options).2.violations := mem_violations_schedule.mpr
    ⟨hstrict, (level?_eq_level hx).trans hlevel,
      (hasPort_of_bare_eq hbare fun _ => rfl).mp ⟨x, hx, hb⟩, isShared_of_bare_eq hbare b ▸ hshared⟩
  rw [hnone] at hviolation
  cases hviolation

/-! ## Nodes that wait for each other -/

/-- A node without a level passes data to another one without a level. -/
def Stuck (g : Graph) (n m : Nat) : Prop := g.Feeds n m ∧ g.level? n = none ∧ g.level? m = none

/-- Where no node is ready, a node without a level that is not blocked waits for another
one. -/
theorem exists_stuck (hg : g.Mirrors) (hdone : g.readyCount options = 0)
    (hx : g.nodes[n]? = some x) (hnone : x.level = none)
    (hfree : options.ignoreViolations = false → g.isBlocked x = false) : ∃ m, g.Stuck n m := by
  by_contra hnot
  have hsuccessors : ∀ m ∈ g.successors x, (g.level? m).isSome := by
    intro m hm
    refine Option.isSome_iff_ne_none.mpr fun hm' => hnot ⟨m, ?_, ?_, hm'⟩
    · exact (hg.mem_successors hx).mp hm
    · exact (level?_eq_level hx).trans hnone
  obtain ⟨l, hl⟩ := exists_readyLevel? hnone hfree hsuccessors
  rw [readyLevel?_eq_none hdone hx] at hl
  cases hl

/-- The nodes without a level, ascending. -/
theorem enumerates_pending (g : Graph) :
    Enumerates g.pending fun n => n < g.nodes.length ∧ g.level? n = none := by
  refine ⟨List.pairwise_lt_range.filter _, fun n => ?_⟩
  rw [pending, List.mem_filter, List.mem_range, isLevelled, Bool.not_eq_true',
    Option.isSome_eq_false_iff, Option.isNone_iff_eq_none]

/-- Without violations every node that is left out leads to a cycle of such nodes. -/
theorem Consistent.exists_stuck_cycle (hg : g.Consistent)
    (hnone : (g.schedule options).2.violations = [])
    (hn : n ∈ (g.schedule options).2.unscheduled) :
    ∃ m, ReflTransGen (g.schedule options).1.Stuck n m ∧
      TransGen (g.schedule options).1.Stuck m m := by
  have hend : (g.schedule options).1.Consistent :=
    hg.of_bare_eq (bare_sweep g (.schedule options))
  -- from a node without a level one only comes to others
  have hpending : ∀ a, ReflTransGen (g.schedule options).1.Stuck n a →
      a < (g.schedule options).1.nodes.length ∧ (g.schedule options).1.level? a = none := by
    intro a ha
    cases ha with
    | refl => exact ((enumerates_pending _).mem_iff n).mp hn
    | tail _ hstuck => exact ⟨hstuck.1.lt_right, hstuck.2.2⟩
  refine exists_cycle (fun _ _ hstuck => hstuck.1.lt_left) fun a ha => ?_
  obtain ⟨hlt, hlevel⟩ := hpending a ha
  have hx := List.getElem?_eq_getElem hlt
  rw [level?_eq_level hx] at hlevel
  exact exists_stuck hend.toMirrors (readyCount_schedule g options) hx hlevel fun hstrict =>
    isBlocked_eq_false_of_no_violations hnone hstrict hx hlevel

/-- What a run leaves without a level is explained, whatever levels were there before. The
violations of a strict run are, each once and in order, the contested outputs of the nodes
that it leaves without a level, and a permissive run has none. If a run has no violations,
every node that it leaves without a level leads to a cycle, all through nodes without a
level. -/
theorem violations_explain_pending (hg : g.Consistent) (options : Options) :
    (options.ignoreViolations = false →
      (g.schedule options).2.violations.Pairwise (Prod.Lex (· < ·) (· < ·)) ∧
      ∀ n b, (n, b) ∈ (g.schedule options).2.violations ↔
        (g.schedule options).1.level? n = none ∧ g.Writes n b ∧ g.Contested b) ∧
    (options.ignoreViolations = true → (g.schedule options).2.violations = []) ∧
    ((g.schedule options).2.violations = [] → ∀ n ∈ (g.schedule options).2.unscheduled,
      ∃ m, ReflTransGen (g.schedule options).1.Stuck n m ∧
        TransGen (g.schedule options).1.Stuck m m) := by
  refine ⟨fun hstrict => ⟨pairwise_violations_schedule g options, fun n b => ?_⟩,
    violations_schedule_of_ignored, fun hnone n hn => hg.exists_stuck_cycle hnone hn⟩
  rw [mem_violations_schedule, and_iff_right hstrict]
  refine and_congr_right fun _ => and_congr_right fun hwrites => ?_
  exact hg.isShared_iff (hg.outputs.lt n b hwrites)

/-- The first node names an output twice, and another output goes to two nodes. The last
node feeds itself. -/
def knotted : Graph where
  nodes := [⟨"source", 0, [], [1, 0, 1], ⟨0, 0⟩, none⟩, ⟨"left", 0, [0], [], ⟨0, 0⟩, none⟩,
    ⟨"right", 0, [0, 1], [2], ⟨0, 0⟩, none⟩, ⟨"echo", 0, [2, 3], [3], ⟨0, 0⟩, none⟩]
  buffers := [⟨"a", [0], [1, 2]⟩, ⟨"b", [0], [2]⟩, ⟨"c", [2], [3]⟩, ⟨"d", [3], [3]⟩]
  regions := [⟨"r", [0, 1, 2, 3], false, ⟨0, 0⟩⟩]

theorem built_knotted : knotted.Built := by
  have region := Built.empty.addRegion "r" ⟨0, 0⟩
  have buffers := (((region.internBuffer "a").internBuffer "b").internBuffer "c").internBuffer "d"
  have source := @Built.addNode _ _ 0 0 "source" [] [1, 0, 1] ⟨0, 0⟩ buffers rfl
  have left := @Built.addNode _ _ 0 1 "left" [0] [] ⟨0, 0⟩ source rfl
  have right := @Built.addNode _ _ 0 2 "right" [0, 1] [2] ⟨0, 0⟩ left rfl
  exact @Built.addNode _ _ 0 3 "echo" [2, 3] [3] ⟨0, 0⟩ right rfl

/-- The third node has a level before the run. A strict run leaves out the first node, for
its output `a`, and a permissive run only the last one, which is a cycle of its own. -/
theorem knotted_explained :
    (knotted.assignLevel 2 7).Consistent ∧
      ((knotted.assignLevel 2 7).schedule ⟨false⟩).2.unscheduled = [0, 3] ∧
      ((knotted.assignLevel 2 7).schedule ⟨false⟩).2.violations = [(0, 0)] ∧
      (knotted.assignLevel 2 7).Contested 0 ∧
      ((knotted.assignLevel 2 7).schedule ⟨true⟩).2.unscheduled = [3] ∧
      ∃ m, ReflTransGen ((knotted.assignLevel 2 7).schedule ⟨true⟩).1.Stuck 3 m ∧
        TransGen ((knotted.assignLevel 2 7).schedule ⟨true⟩).1.Stuck m m := by
  have hg : (knotted.assignLevel 2 7).Consistent :=
    built_knotted.consistent.of_bare_eq (bare_assignLevel knotted 2 7)
  obtain ⟨hstrict, -, -⟩ := violations_explain_pending hg ⟨false⟩
  obtain ⟨-, hignored, hcycle⟩ := violations_explain_pending hg ⟨true⟩
  have hviolations : ((knotted.assignLevel 2 7).schedule ⟨false⟩).2.violations = [(0, 0)] := by
    decide +kernel
  have hpending : ((knotted.assignLevel 2 7).schedule ⟨true⟩).2.unscheduled = [3] := by
    decide +kernel
  refine ⟨hg, by decide +kernel, hviolations, ?_, hpending, ?_⟩
  · exact (((hstrict rfl).2 0 0).mp (hviolations ▸ List.mem_cons_self)).2.2
  · exact hcycle (hignored rfl) 3 (hpending ▸ List.mem_cons_self)

end Graph

end Dataflow

end Bankflow
