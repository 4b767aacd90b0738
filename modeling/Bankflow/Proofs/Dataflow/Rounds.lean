import Bankflow.Proofs.Dataflow.Violations
import Mathlib.Algebra.BigOperators.Group.List.Basic
import Mathlib.Data.List.GetD

/-!
# What the rounds count

A run goes through the graphs `afterRounds`, and its numbers are read off these: an entry of
`assigned` is how many nodes are ready after that many rounds (`getD_settle`).

From a graph without levels, a node that is ready after `k` rounds was not ready before. So
one of its successors got its level in the last of these rounds (`exists_successor_levelled`),
and none got it later, which makes `k` the level of the node, as far as levels are counted
(`InStep`). Rounds and levels are therefore the same thing (`levelledIn_iff`), and the entries
of `assigned` count the nodes of each level (`schedule_counts_levels`).
-/

namespace Bankflow.Dataflow.Graph

variable {g : Graph} {options : Options} {n m k l : Nat} {x : Node}

/-! ## Rounds of a run -/

/-- The graph after `k` rounds. -/
def afterRounds (g : Graph) (options : Options) : Nat → Graph
  | 0 => g
  | k + 1 => (g.afterRounds options k).advance options

/-- Node `n` gets its level in the round after `k` others. -/
def LevelledIn (g : Graph) (options : Options) (k n : Nat) : Prop :=
  (g.afterRounds options k).level? n = none ∧ (g.afterRounds options (k + 1)).isLevelled n = true

theorem afterRounds_advance (g : Graph) (options : Options) (k : Nat) :
    (g.advance options).afterRounds options k = g.afterRounds options (k + 1) := by
  induction k with
  | zero => rfl
  | succ k ih =>
    rw [afterRounds, ih]
    rfl

/-- A round that finds nothing changes nothing. -/
theorem advance_of_none_ready (h : g.readyCount options = 0) : g.advance options = g := by
  have hnodes : g.nodes.map (g.advanceNode options) = g.nodes := by
    refine (List.map_congr_left fun x hx => ?_).trans (List.map_id _)
    obtain ⟨n, hn⟩ := List.mem_iff_getElem?.mp hx
    rw [advanceNode, readyLevel?_eq_none h hn, id]
  rw [advance, hnodes]

theorem afterRounds_of_none_ready (h : g.readyCount options = 0) (k : Nat) :
    g.afterRounds options k = g := by
  induction k with
  | zero => rfl
  | succ k ih => rw [afterRounds, ih, advance_of_none_ready h]

theorem settle_eq_afterRounds (g : Graph) (options : Options) :
    (g.settle options).1 = g.afterRounds options (g.settle options).2.length := by
  induction g using settle.induct options with
  | case1 g _ h => rw [settle_of_none_ready h, List.length_nil, afterRounds]
  | case2 g _ h _ _ _ ih =>
    rw [settle_of_some_ready h, List.length_cons, ← afterRounds_advance]
    exact ih

/-- An entry is the number of nodes that are ready after that many rounds, and where there is
no entry no node is ready. -/
theorem getD_settle (g : Graph) (options : Options) (k : Nat) :
    (g.settle options).2.getD k 0 = (g.afterRounds options k).readyCount options := by
  induction g using settle.induct options generalizing k with
  | case1 g _ h =>
    rw [settle_of_none_ready h, afterRounds_of_none_ready h]
    exact h.symm
  | case2 g _ h _ _ _ ih =>
    rw [settle_of_some_ready h]
    cases k with
    | zero => rfl
    | succ k => rw [List.getD_cons_succ, ← afterRounds_advance, ih]

theorem pos_of_mem_settle {c : Nat} (hc : c ∈ (g.settle options).2) : 0 < c := by
  induction g using settle.induct options with
  | case1 g _ h =>
    rw [settle_of_none_ready h] at hc
    cases hc
  | case2 g _ h _ _ _ ih =>
    rw [settle_of_some_ready h, List.mem_cons] at hc
    rcases hc with rfl | hc
    · exact Nat.pos_of_ne_zero h
    · exact ih hc

/-- Every node without a level gets one in some round or is left at the end. -/
theorem sum_settle_add_pendingCount (g : Graph) (options : Options) :
    (g.settle options).2.sum + (g.settle options).1.pendingCount = g.pendingCount := by
  induction g using settle.induct options with
  | case1 g _ h => rw [settle_of_none_ready h, List.sum_nil, Nat.zero_add]
  | case2 g _ h _ _ _ ih =>
    have hround := g.pendingCount_advance options
    simp only [settle_of_some_ready h, List.sum_cons]
    omega

theorem length_blockedInRounds (g : Graph) (options : Options) :
    (g.blockedInRounds options).length = (g.settle options).2.length + 1 := by
  induction g using settle.induct options with
  | case1 g _ h => rw [settle_of_none_ready h, blockedInRounds_of_none_ready h]; rfl
  | case2 g _ h _ _ _ ih =>
    rw [settle_of_some_ready h, blockedInRounds_of_some_ready h, List.length_cons, ih,
      List.length_cons]

theorem length_pending (g : Graph) : g.pending.length = g.pendingCount := by
  refine ((enumerates_pending g).congr fun n => ?_).length_eq_countP
  constructor
  · rintro ⟨hn, hnone⟩
    have hx : g.nodes[n]? = some g.nodes[n] := List.getElem?_eq_getElem hn
    exact ⟨_, hx, Option.isNone_iff_eq_none.mpr ((level?_eq_level hx).symm.trans hnone)⟩
  · rintro ⟨x, hx, hnone⟩
    exact ⟨(List.getElem?_eq_some_iff.mp hx).1,
      (level?_eq_level hx).trans (Option.isNone_iff_eq_none.mp hnone)⟩

/-! ## Rounds and levels -/

/-- A node that gets a level in a round was ready for it. -/
theorem exists_ready_of_level?_advance (hnone : g.level? n = none)
    (hl : (g.advance options).level? n = some l) :
    ∃ x, g.nodes[n]? = some x ∧ g.readyLevel? options x = some l := by
  rcases level?_advance_cases hl with hl | hready
  · rw [hnone] at hl
    cases hl
  · exact hready

/-- Where `k` rounds led to: the levels that they gave are below `k`, and the nodes that are
ready now are ready for level `k`, as far as levels are counted. -/
structure InStep (g : Graph) (options : Options) (k : Nat) : Prop where
  level : ∀ n l, g.level? n = some l → ∃ j < k, l = min j maxLevel
  ready : ∀ (n : Nat) x l, g.nodes[n]? = some x → g.readyLevel? options x = some l →
    l = min k maxLevel

theorem inStep_start (hnone : ∀ x ∈ g.nodes, x.level = none) : InStep g options 0 := by
  refine ⟨fun n l hl => ?_, fun n x l hx hl => ?_⟩
  · rw [level?_eq_none hnone] at hl
    cases hl
  · obtain ⟨-, -, habove⟩ := readyLevel?_eq_some_iff.mp hl
    rcases (levelAboveAll_eq_some habove).2 with rfl | ⟨j, hj, -⟩
    · rfl
    · obtain ⟨m, -, hm⟩ := List.mem_map.mp hj
      rw [level?_eq_none hnone] at hm
      cases hm

/-- A node that a round makes ready has a successor that got its level in that round. -/
theorem exists_successor_levelled (hx : (g.advance options).nodes[n]? = some x)
    (hl : (g.advance options).readyLevel? options x = some l) :
    ∃ m ∈ (g.advance options).successors x, g.level? m = none := by
  obtain ⟨hnone, hfree, -⟩ := readyLevel?_eq_some_iff.mp hl
  obtain ⟨y, hy, hyx⟩ := exists_node_of_bare_eq (bare_advance g options) hx
  have hbefore : y.level = none ∧ g.readyLevel? options y = none := by
    have hlevel : (g.advance options).level? n = _ := level?_advance n
    rw [level?_eq_level hx, hnone, level?_eq_level hy, hy, Option.bind_some, eq_comm,
      Option.or_eq_none_iff] at hlevel
    exact hlevel
  rw [isBlocked_of_bare_eq (bare_advance g options) hyx] at hfree
  rw [successors_of_bare_eq (bare_advance g options) hyx]
  by_contra hall
  have hsome : ∀ m ∈ g.successors y, (g.level? m).isSome := fun m hm =>
    Option.isSome_iff_ne_none.mpr fun hm' => hall ⟨m, hm, hm'⟩
  obtain ⟨l', hl'⟩ := exists_readyLevel? hbefore.1 hfree hsome
  rw [hbefore.2] at hl'
  cases hl'

/-- One round on. -/
theorem InStep.advance (h : InStep g options k) : InStep (g.advance options) options (k + 1) := by
  have hlevel : ∀ n l, (g.advance options).level? n = some l → ∃ j < k + 1, l = min j maxLevel := by
    intro n l hl
    rcases level?_advance_cases hl with hl | ⟨x, hx, hready⟩
    · obtain ⟨j, hj, rfl⟩ := h.level n l hl
      exact ⟨j, by omega, rfl⟩
    · exact ⟨k, by omega, h.ready n x l hx hready⟩
  refine ⟨hlevel, fun n x l hx hl => ?_⟩
  obtain ⟨-, -, habove⟩ := readyLevel?_eq_some_iff.mp hl
  obtain ⟨hall, hmax⟩ := levelAboveAll_eq_some habove
  -- no successor is above level `k`
  have hle : l ≤ min (k + 1) maxLevel := by
    rcases hmax with rfl | ⟨j, hj, rfl⟩
    · omega
    · obtain ⟨m, -, hm⟩ := List.mem_map.mp hj
      obtain ⟨i, hi, rfl⟩ := hlevel m j hm
      rw [levelAbove]
      omega
  -- and the one that got its level in this round is there
  obtain ⟨m, hm, hnone⟩ := exists_successor_levelled hx hl
  obtain ⟨j, hj, hlj⟩ := hall _ (List.mem_map_of_mem hm)
  obtain ⟨y, hy, hready⟩ := exists_ready_of_level?_advance hnone hj
  rw [h.ready m y j hy hready, levelAbove] at hlj
  omega

theorem inStep_afterRounds (hnone : ∀ x ∈ g.nodes, x.level = none) (k : Nat) :
    InStep (g.afterRounds options k) options k := by
  induction k with
  | zero => exact inStep_start hnone
  | succ k ih => exact ih.advance

/-! ## The numbers of a run -/

theorem level?_afterRounds_mono {j : Nat} (hjk : j ≤ k)
    (hl : (g.afterRounds options j).level? n = some l) :
    (g.afterRounds options k).level? n = some l := by
  induction hjk with
  | refl => exact hl
  | step _ ih => exact levelsKept_advance _ options n l ih

/-- A node that has a level got it in one of the rounds. -/
theorem exists_levelledIn (hnone : ∀ x ∈ g.nodes, x.level = none)
    (hl : (g.afterRounds options k).level? n = some l) : ∃ j < k, g.LevelledIn options j n := by
  induction k generalizing l with
  | zero =>
    rw [afterRounds, level?_eq_none hnone] at hl
    cases hl
  | succ k ih =>
    cases hk : (g.afterRounds options k).level? n with
    | none => exact ⟨k, by omega, hk, Option.isSome_iff_exists.mpr ⟨l, hl⟩⟩
    | some l' =>
      obtain ⟨j, hj, hround⟩ := ih hk
      exact ⟨j, by omega, hround⟩

theorem levelledIn_iff_ready : g.LevelledIn options k n ↔
    ∃ x, (g.afterRounds options k).nodes[n]? = some x ∧
      ((g.afterRounds options k).readyLevel? options x).isSome = true := by
  constructor
  · rintro ⟨hnone, hsome⟩
    obtain ⟨l, hl⟩ := Option.isSome_iff_exists.mp hsome
    obtain ⟨x, hx, hready⟩ := exists_ready_of_level?_advance hnone hl
    exact ⟨x, hx, Option.isSome_iff_exists.mpr ⟨l, hready⟩⟩
  · rintro ⟨x, hx, hsome⟩
    obtain ⟨l, hl⟩ := Option.isSome_iff_exists.mp hsome
    have hnone : (g.afterRounds options k).level? n = none :=
      (level?_eq_level hx).trans (level_eq_none_of_readyLevel? hl)
    refine ⟨hnone, ?_⟩
    rw [isLevelled, afterRounds, level?_advance, hnone, hx, Option.none_or, Option.bind_some, hl]
    rfl

/-- A node gets a level in a round of the run, and it gets the number of the rounds before. -/
theorem LevelledIn.level?_settle (hnone : ∀ x ∈ g.nodes, x.level = none)
    (h : g.LevelledIn options k n) : k < (g.settle options).2.length ∧
      (g.settle options).1.level? n = some (min k maxLevel) := by
  obtain ⟨l, hl⟩ := Option.isSome_iff_exists.mp h.2
  obtain ⟨x, hx, hready⟩ := exists_ready_of_level?_advance h.1 hl
  have hlt : k < (g.settle options).2.length := by
    by_contra hge
    have hdone : (g.afterRounds options k).readyCount options = 0 := by
      rw [← getD_settle, List.getD_eq_default _ _ (Nat.le_of_not_lt hge)]
    rw [readyLevel?_eq_none hdone hx] at hready
    cases hready
  refine ⟨hlt, ?_⟩
  rw [settle_eq_afterRounds, level?_afterRounds_mono hlt hl,
    (inStep_afterRounds hnone k).ready n x l hx hready]

theorem length_settle_le (g : Graph) (options : Options) :
    (g.settle options).2.length ≤ g.nodes.length := by
  have hle := List.length_le_sum_of_one_le (g.settle options).2 fun c hc => pos_of_mem_settle hc
  have hsum := sum_settle_add_pendingCount g options
  have hpending : g.pendingCount ≤ g.nodes.length := List.countP_le_length
  omega

/-- The nodes that get their level after `k` rounds are those of level `k`. No level is too
high to be counted, because every round before levels at least one node. -/
theorem levelledIn_iff (hnone : ∀ x ∈ g.nodes, x.level = none) (hsize : g.nodes.length ≤ 2 ^ 32) :
    g.LevelledIn options k n ↔ (g.schedule options).1.level? n = some k := by
  have hlevel : ∀ j, g.LevelledIn options j n → (g.schedule options).1.level? n = some j := by
    intro j h
    obtain ⟨hlt, hl⟩ := h.level?_settle hnone
    have hlength := length_settle_le g options
    have hcounted : min j maxLevel = j := by
      simp only [maxLevel]
      omega
    rwa [hcounted] at hl
  refine ⟨hlevel k, fun hl => ?_⟩
  obtain ⟨j, -, hj⟩ := exists_levelledIn hnone (settle_eq_afterRounds g options ▸ hl)
  have hjk : some j = some k := (hlevel j hj).symm.trans hl
  exact Option.some.inj hjk ▸ hj

theorem getD_assigned (hnone : ∀ x ∈ g.nodes, x.level = none) (hsize : g.nodes.length ≤ 2 ^ 32)
    (k : Nat) : (g.schedule options).2.assigned.getD k 0 =
      (g.schedule options).1.nodes.countP fun x => x.level = some k := by
  refine (getD_settle g options k).trans (Enumerates.countP_eq_of_places fun n => ?_)
  rw [← levelledIn_iff_ready, levelledIn_iff hnone hsize, level?, Option.bind_eq_some_iff]
  simp only [decide_eq_true_eq]

/-- The numbers of a run from a graph without levels. The last round is the one that finds
nothing, and every other one finds some nodes. Round `k + 1` is for the nodes of level `k`: it
gives a level to exactly those that have level `k` at the end, and entry `k` of `assigned` is
their number. The entries and the nodes that are left without a level, which are listed in
order, make up all nodes. Nodes are numbered in 32 bits, so there are at most `2 ^ 32`. The
rounds are counted without a bound: for fewer than `2 ^ 32 - 1` nodes they fit in 32 bits, and
`Store.schedule_ofGraph` says what becomes of a counter of 32 bits where they do not. -/
theorem schedule_counts_levels (hnone : ∀ x ∈ g.nodes, x.level = none)
    (hsize : g.nodes.length ≤ 2 ^ 32) (options : Options) :
    (g.schedule options).2.rounds = (g.schedule options).2.assigned.length + 1 ∧
    (g.schedule options).2.rounds ≤ g.nodes.length + 1 ∧
    (g.schedule options).1 = g.afterRounds options (g.schedule options).2.assigned.length ∧
    (∀ c ∈ (g.schedule options).2.assigned, 0 < c) ∧
    (∀ k, (g.schedule options).2.assigned.getD k 0 =
      (g.schedule options).1.nodes.countP fun x => x.level = some k) ∧
    (∀ k n, g.LevelledIn options k n ↔ (g.schedule options).1.level? n = some k) ∧
    (g.schedule options).2.assigned.sum + (g.schedule options).2.unscheduled.length =
      g.nodes.length ∧
    Enumerates (g.schedule options).2.unscheduled (fun n =>
      n < g.nodes.length ∧ (g.schedule options).1.level? n = none) ∧
    (g.nodes.length + 1 < 2 ^ 32 → (g.schedule options).2.rounds < 2 ^ 32) := by
  have hrounds : (g.schedule options).2.rounds = (g.schedule options).2.assigned.length + 1 :=
    length_blockedInRounds g options
  have hle : (g.schedule options).2.rounds ≤ g.nodes.length + 1 := by
    rw [hrounds]
    exact Nat.succ_le_succ (length_settle_le g options)
  refine ⟨hrounds, hle, settle_eq_afterRounds g options, fun c hc => pos_of_mem_settle hc,
    getD_assigned hnone hsize, fun k n => levelledIn_iff hnone hsize, ?_, ?_,
    Nat.lt_of_le_of_lt hle⟩
  · have hall : g.pendingCount = g.nodes.length :=
      List.countP_eq_length.mpr fun x hx => Option.isNone_iff_eq_none.mpr (hnone x hx)
    rw [← hall, ← sum_settle_add_pendingCount g options, ← length_pending]
    rfl
  · have hnodes : (g.schedule options).1.nodes.length = g.nodes.length :=
      length_nodes_of_bare_eq (bare_sweep g (.schedule options))
    exact hnodes ▸ enumerates_pending (g.schedule options).1

/-- A strict run levels one node in each of two rounds and leaves the source out. A permissive
run needs one round more, for the source. -/
theorem forked_counts_levels :
    (∀ x ∈ forked.nodes, x.level = none) ∧ forked.nodes.length ≤ 2 ^ 32 ∧
      (forked.schedule ⟨false⟩).2.assigned = [1, 1] ∧ (forked.schedule ⟨false⟩).2.rounds = 3 ∧
      (forked.schedule ⟨false⟩).2.unscheduled.length = 1 ∧
      (forked.schedule ⟨true⟩).2.assigned = [1, 1, 1] ∧ (forked.schedule ⟨true⟩).2.rounds = 4 ∧
      (forked.schedule ⟨true⟩).1.level? 0 = some 2 ∧ forked.LevelledIn ⟨true⟩ 2 0 := by
  have hnone := built_forked.level_eq_none
  have hsize : forked.nodes.length ≤ 2 ^ 32 := by decide
  have hstrict : (forked.schedule ⟨false⟩).2.assigned = [1, 1] := by decide +kernel
  have hpermissive : (forked.schedule ⟨true⟩).2.assigned = [1, 1, 1] := by decide +kernel
  have hsource : (forked.schedule ⟨true⟩).1.level? 0 = some 2 := by decide +kernel
  obtain ⟨hrounds, -, -, -, -, -, hsum, -⟩ := schedule_counts_levels hnone hsize ⟨false⟩
  obtain ⟨hrounds', -, -, -, -, hlevelled, -⟩ := schedule_counts_levels hnone hsize ⟨true⟩
  rw [hstrict] at hrounds hsum
  rw [hpermissive] at hrounds'
  exact ⟨hnone, hsize, hstrict, hrounds, Nat.add_left_cancel hsum, hpermissive, hrounds', hsource,
    (hlevelled 2 0).mpr hsource⟩

end Bankflow.Dataflow.Graph
