import Bankflow.Proofs.Dataflow.Reach
import Mathlib.Algebra.Order.Ring.Nat

/-!
# Levels are longest walks

A round changes levels only, and only of nodes that had none (`level?_advance`); the
ports, and with them the flow, stay. So what one round keeps, a whole run keeps
(`settle_induction`). The invariants of a run from a graph without levels are
`Settling`, only free nodes have levels, and `Levelling`, a level is the length of the
longest walk. At the end no node is ready, and then every free node has a level
(`Settling.isSome_of_free`).
-/

namespace Bankflow.Dataflow

/-! ## The level above some levels -/

theorem levelAbove_eq {l : Nat} (h : l < maxLevel) : levelAbove l = l + 1 :=
  Nat.min_eq_left h

theorem levelAboveAll_eq_some {l : Nat} :
    ∀ {ls : List (Option Nat)}, levelAboveAll ls = some l →
      (∀ o ∈ ls, ∃ k, o = some k ∧ levelAbove k ≤ l) ∧ (l = 0 ∨ ∃ k, some k ∈ ls ∧ l = levelAbove k)
  | [], h => by
    cases h
    exact ⟨fun o ho => absurd ho List.not_mem_nil, .inl rfl⟩
  | some k :: ls, h => by
    obtain ⟨j, hj, rfl⟩ := Option.map_eq_some_iff.mp h
    obtain ⟨hall, hmax⟩ := levelAboveAll_eq_some hj
    refine ⟨fun o ho => ?_, .inr ?_⟩
    · rcases List.mem_cons.mp ho with rfl | ho
      · exact ⟨k, rfl, Nat.le_max_left _ _⟩
      · obtain ⟨i, hi, hle⟩ := hall o ho
        exact ⟨i, hi, hle.trans (Nat.le_max_right _ _)⟩
    · rcases Nat.le_total j (levelAbove k) with hle | hle
      · exact ⟨k, List.mem_cons_self, Nat.max_eq_left hle⟩
      · rcases hmax with rfl | ⟨i, hi, rfl⟩
        · exact ⟨k, List.mem_cons_self, Nat.max_eq_left (Nat.zero_le _)⟩
        · exact ⟨i, List.mem_cons_of_mem _ hi, Nat.max_eq_right hle⟩

theorem exists_levelAboveAll :
    ∀ {ls : List (Option Nat)}, (∀ o ∈ ls, o.isSome) → ∃ l, levelAboveAll ls = some l
  | [], _ => ⟨0, rfl⟩
  | none :: _, h => nomatch h none List.mem_cons_self
  | some k :: ls, h => by
    obtain ⟨l, hl⟩ := exists_levelAboveAll fun o ho => h o (List.mem_cons_of_mem _ ho)
    exact ⟨max (levelAbove k) l, by rw [levelAboveAll, hl, Option.map_some]⟩

namespace Graph

variable {g : Graph} {options : Options} {n m k l : Nat}

/-! ## One round -/

theorem readyLevel?_eq_some_iff {x : Node} :
    g.readyLevel? options x = some l ↔ x.level = none ∧
      (options.ignoreViolations = false → g.isBlocked x = false) ∧
      levelAboveAll ((g.successors x).map g.level?) = some l := by
  unfold readyLevel?
  cases x.level with
  | some j => simp
  | none =>
    cases options.ignoreViolations <;> cases g.isBlocked x <;> simp

/-- A node that is not kept back is ready once all its successors have levels. -/
theorem exists_readyLevel? {x : Node} (hnone : x.level = none)
    (hfree : options.ignoreViolations = false → g.isBlocked x = false)
    (hsuccessors : ∀ m ∈ g.successors x, (g.level? m).isSome) :
    ∃ l, g.readyLevel? options x = some l := by
  have hlevels : ∀ o ∈ (g.successors x).map g.level?, o.isSome := by
    intro o ho
    obtain ⟨m, hm, rfl⟩ := List.mem_map.mp ho
    exact hsuccessors m hm
  obtain ⟨l, hl⟩ := exists_levelAboveAll hlevels
  exact ⟨l, readyLevel?_eq_some_iff.mpr ⟨hnone, hfree, hl⟩⟩

@[simp] theorem inputs_advanceNode (x : Node) : (g.advanceNode options x).inputs = x.inputs := by
  unfold advanceNode Node.assign
  split
  · split <;> rfl
  · rfl

@[simp] theorem outputs_advanceNode (x : Node) :
    (g.advanceNode options x).outputs = x.outputs := by
  unfold advanceNode Node.assign
  split
  · split <;> rfl
  · rfl

theorem level_advanceNode (x : Node) :
    (g.advanceNode options x).level = x.level.or (g.readyLevel? options x) := by
  unfold advanceNode
  split
  · next l h => rw [h, Node.assign, level_eq_none_of_readyLevel? h, Option.none_or]
  · next h => rw [h, Option.or_none]

theorem getElem?_advance (n : Nat) :
    (g.advance options).nodes[n]? = (g.nodes[n]?).map (g.advanceNode options) :=
  List.getElem?_map

/-- A round keeps the levels that are there and adds those of the ready nodes. -/
theorem level?_advance (n : Nat) : (g.advance options).level? n =
    (g.level? n).or ((g.nodes[n]?).bind (g.readyLevel? options)) := by
  rw [level?, level?, getElem?_advance]
  cases g.nodes[n]? with
  | none => rfl
  | some x => exact level_advanceNode x

theorem hasPort_advance {ports : Node → List Nat} {b : Nat}
    (hp : ∀ x, ports (g.advanceNode options x) = ports x) :
    (g.advance options).HasPort ports n b ↔ g.HasPort ports n b := by
  simp only [HasPort, getElem?_advance, Option.map_eq_some_iff]
  constructor
  · rintro ⟨_, ⟨x, hx, rfl⟩, hb⟩
    exact ⟨x, hx, hp x ▸ hb⟩
  · rintro ⟨x, hx, hb⟩
    exact ⟨_, ⟨x, hx, rfl⟩, (hp x).symm ▸ hb⟩

theorem reads_advance {b : Nat} : (g.advance options).Reads n b ↔ g.Reads n b :=
  hasPort_advance inputs_advanceNode

theorem writes_advance {b : Nat} : (g.advance options).Writes n b ↔ g.Writes n b :=
  hasPort_advance outputs_advanceNode

theorem Mirrors.advance (h : g.Mirrors) : (g.advance options).Mirrors :=
  ⟨⟨fun b buffer hb => (h.inputs.listed b buffer hb).congr fun _ => reads_advance.symm,
      fun n b hp => h.inputs.lt n b (reads_advance.mp hp)⟩,
    ⟨fun b buffer hb => (h.outputs.listed b buffer hb).congr fun _ => writes_advance.symm,
      fun n b hp => h.outputs.lt n b (writes_advance.mp hp)⟩⟩

/-! ## Whole runs -/

theorem settle_of_none_ready (h : g.readyCount options = 0) : g.settle options = (g, []) := by
  rw [settle]
  simp only [h, if_true]

theorem settle_of_some_ready (h : g.readyCount options ≠ 0) : g.settle options =
    (((g.advance options).settle options).1,
      g.readyCount options :: ((g.advance options).settle options).2) := by
  rw [settle]
  simp only [h, if_false]

/-- What every round keeps holds at the end. -/
theorem settle_induction {P : Graph → Prop} (hstep : ∀ g, P g → P (g.advance options)) {g : Graph}
    (hg : P g) : P (g.settle options).1 := by
  induction g using settle.induct options with
  | case1 g ready h =>
    rw [settle_of_none_ready h]
    exact hg
  | case2 g ready h _ _ _ ih =>
    rw [settle_of_some_ready h]
    exact ih (hstep g hg)

/-- No node is ready at the end. -/
theorem readyCount_settle (g : Graph) (options : Options) :
    (g.settle options).1.readyCount options = 0 := by
  induction g using settle.induct options with
  | case1 g ready h =>
    rw [settle_of_none_ready h]
    exact h
  | case2 g ready h _ _ _ ih =>
    rw [settle_of_some_ready h]
    exact ih

theorem readyLevel?_eq_none (h : g.readyCount options = 0) {x : Node}
    (hx : g.nodes[n]? = some x) : g.readyLevel? options x = none := by
  have hready := List.countP_eq_zero.mp h x (List.mem_of_getElem? hx)
  simpa using hready

/-! ## The levels of a run -/

/-- What holds after any number of rounds from a graph `g₀` without levels: the flow is
that of `g₀`, and only free nodes have levels. -/
structure Settling (g₀ : Graph) (options : Options) (g : Graph) : Prop where
  mirrors : g.Mirrors
  feeds_iff : ∀ n m, g.Feeds n m ↔ g₀.Feeds n m
  blocked_iff : ∀ n, g.Blocked n ↔ g₀.Blocked n
  length_eq : g.nodes.length = g₀.nodes.length
  free : ∀ n l, g.level? n = some l → g₀.Free options n

/-- If levels are not cut off, they are the lengths of longest walks as well. -/
structure Levelling (g₀ : Graph) (options : Options) (g : Graph) : Prop
    extends Settling g₀ options g where
  longest : ∀ n l, g.level? n = some l → IsGreatest {k | g₀.Walk n k} l

theorem level?_eq_none (h : ∀ x ∈ g.nodes, x.level = none) (n : Nat) : g.level? n = none := by
  rw [level?]
  cases hx : g.nodes[n]? with
  | none => rfl
  | some x => exact h x (List.mem_of_getElem? hx)

theorem settling_start (hg : g.Mirrors) (h : ∀ x ∈ g.nodes, x.level = none) :
    Settling g options g := by
  refine ⟨hg, fun _ _ => Iff.rfl, fun _ => Iff.rfl, rfl, fun n l hl => ?_⟩
  rw [level?_eq_none h] at hl
  cases hl

theorem levelling_start (hg : g.Mirrors) (h : ∀ x ∈ g.nodes, x.level = none) :
    Levelling g options g := by
  refine ⟨settling_start hg h, fun n l hl => ?_⟩
  rw [level?_eq_none h] at hl
  cases hl

theorem lt_length_of_level? (h : g.level? n = some l) : n < g.nodes.length := by
  obtain ⟨x, hx, -⟩ := Option.bind_eq_some_iff.mp h
  exact (List.getElem?_eq_some_iff.mp hx).1

/-- Levels stay below the number of nodes. -/
theorem Levelling.lt_length {g₀ : Graph} (h : Levelling g₀ options g) (hl : g.level? n = some l) :
    l < g₀.nodes.length :=
  (h.free n l hl).walk_lt (h.length_eq ▸ lt_length_of_level? hl) (h.longest n l hl).1

/-- The level above the longest walks of all nodes that `n` feeds is the longest walk
from `n`. -/
theorem isGreatest_walk {ms : List Nat} {level : Nat → Option Nat}
    (hms : ∀ m, m ∈ ms ↔ g.Feeds n m)
    (hlevel : ∀ m k, level m = some k → k < maxLevel ∧ IsGreatest {k | g.Walk m k} k)
    (hl : levelAboveAll (ms.map level) = some l) : IsGreatest {k | g.Walk n k} l := by
  obtain ⟨hall, hmax⟩ := levelAboveAll_eq_some hl
  constructor
  · rcases hmax with rfl | ⟨k, hk, rfl⟩
    · exact Walk.stay n
    · obtain ⟨m, hm, hmk⟩ := List.mem_map.mp hk
      obtain ⟨hlt, hlongest⟩ := hlevel m k hmk
      rw [levelAbove_eq hlt]
      exact Walk.step ((hms m).mp hm) hlongest.1
  · intro k w
    cases w with
    | stay => exact Nat.zero_le l
    | @step _ m k hnm w =>
      obtain ⟨j, hj, hle⟩ := hall (level m) (List.mem_map_of_mem ((hms m).mpr hnm))
      obtain ⟨hlt, hlongest⟩ := hlevel m j hj
      have hkj : k ≤ j := hlongest.2 w
      rw [levelAbove_eq hlt] at hle
      omega

theorem Settling.mem_successors {g₀ : Graph} {x : Node} (h : Settling g₀ options g)
    (hx : g.nodes[n]? = some x) : m ∈ g.successors x ↔ g₀.Feeds n m :=
  (h.mirrors.mem_successors hx).trans (h.feeds_iff n m)

/-- A round adds levels of free nodes. It may enforce more than the options do. -/
theorem Settling.free_of_ready {g₀ : Graph} {options' : Options} {x : Node}
    (h : Settling g₀ options g)
    (hle : options'.ignoreViolations = true → options.ignoreViolations = true)
    (hx : g.nodes[n]? = some x) (hl : g.readyLevel? options' x = some l) :
    g₀.Free options n := by
  obtain ⟨-, hblocked, hall⟩ := readyLevel?_eq_some_iff.mp hl
  refine free_of_forall_feeds (fun m hm => ?_) fun hstrict hb => ?_
  · have hmem := List.mem_map_of_mem (f := g.level?) ((h.mem_successors hx).mpr hm)
    obtain ⟨k, hk, -⟩ := (levelAboveAll_eq_some hall).1 _ hmem
    exact h.free m k hk
  · have hb' := (h.mirrors.isBlocked_iff hx).mpr ((h.blocked_iff n).mpr hb)
    have hstrict' : options'.ignoreViolations = false := by
      by_contra hignored
      rw [hle (Bool.eq_true_of_not_eq_false hignored)] at hstrict
      cases hstrict
    rw [hblocked hstrict'] at hb'
    cases hb'

/-- A level that a round adds is the longest walk. -/
theorem Levelling.longest_of_ready {g₀ : Graph} {options' : Options} {x : Node}
    (h : Levelling g₀ options g) (hsize : g₀.nodes.length ≤ maxLevel) (hx : g.nodes[n]? = some x)
    (hl : g.readyLevel? options' x = some l) : IsGreatest {k | g₀.Walk n k} l := by
  obtain ⟨-, -, hall⟩ := readyLevel?_eq_some_iff.mp hl
  refine isGreatest_walk (fun m => h.mem_successors hx) (fun m k hk => ?_) hall
  exact ⟨(h.lt_length hk).trans_le hsize, h.longest m k hk⟩

/-- A level after a round was there before, or its node was ready. -/
theorem level?_advance_cases (hl : (g.advance options).level? n = some l) :
    g.level? n = some l ∨ ∃ x, g.nodes[n]? = some x ∧ g.readyLevel? options x = some l := by
  rw [level?_advance, Option.or_eq_some_iff] at hl
  exact hl.imp_right fun h => Option.bind_eq_some_iff.mp h.2

/-- One round keeps the invariants, even if it enforces more than the options do. -/
theorem Settling.advance {g₀ : Graph} {options' : Options} (h : Settling g₀ options g)
    (hle : options'.ignoreViolations = true → options.ignoreViolations = true) :
    Settling g₀ options (g.advance options') := by
  refine ⟨h.mirrors.advance, fun n m => ?_, fun n => ?_, ?_, fun n l hl => ?_⟩
  · rw [← h.feeds_iff]
    simp only [Feeds, reads_advance, writes_advance]
  · rw [← h.blocked_iff]
    simp only [Blocked, Contested, reads_advance, writes_advance]
  · rw [← h.length_eq]
    exact List.length_map _
  · rcases level?_advance_cases hl with hl | ⟨x, hx, hready⟩
    · exact h.free n l hl
    · exact h.free_of_ready hle hx hready

theorem Levelling.advance {g₀ : Graph} {options' : Options} (h : Levelling g₀ options g)
    (hle : options'.ignoreViolations = true → options.ignoreViolations = true)
    (hsize : g₀.nodes.length ≤ maxLevel) : Levelling g₀ options (g.advance options') := by
  refine ⟨h.toSettling.advance hle, fun n l hl => ?_⟩
  rcases level?_advance_cases hl with hl | ⟨x, hx, hready⟩
  · exact h.longest n l hl
  · exact h.longest_of_ready hsize hx hready

/-- When no node is ready, every free node has a level. -/
theorem Settling.isSome_of_free {g₀ : Graph} (h : Settling g₀ options g)
    (hdone : g.readyCount options = 0) (hn : n < g₀.nodes.length) (hfree : g₀.Free options n) :
    (g.level? n).isSome := by
  -- a free node feeds free nodes from which less can be reached
  induction hc : g₀.reachCount n using Nat.strong_induction_on generalizing n with
  | _ c ih =>
    subst hc
    obtain ⟨x, hx⟩ : ∃ x, g.nodes[n]? = some x :=
      ⟨_, List.getElem?_eq_getElem (h.length_eq ▸ hn)⟩
    by_contra hnone
    have hlevel : x.level = none := by
      simpa [level?, hx] using hnone
    have hsucc : ∀ m ∈ g.successors x, (g.level? m).isSome := by
      intro m hm
      have hnm := (h.mem_successors hx).mp hm
      exact ih _ (hfree.reachCount_lt hnm) hnm.lt_right (hfree.of_feeds hnm) rfl
    have hblocked : options.ignoreViolations = false → g.isBlocked x = false := by
      intro hstrict
      refine Bool.eq_false_iff.mpr fun hb => ?_
      exact (hfree n .refl).2 hstrict ((h.blocked_iff n).mp ((h.mirrors.isBlocked_iff hx).mp hb))
    obtain ⟨l, hready⟩ := exists_readyLevel? hlevel hblocked hsucc
    rw [readyLevel?_eq_none hdone hx] at hready
    cases hready

theorem settling_schedule (hg : g.Built) (options : Options) :
    Settling g options (g.schedule options).1 :=
  settle_induction (fun _ h => h.advance id) (settling_start hg.mirrors hg.level_eq_none)

/-- Whatever its size, scheduling a graph levels exactly the free nodes. -/
theorem Built.isLevelled_schedule_iff (hg : g.Built) (options : Options)
    (hn : n < g.nodes.length) :
    (g.schedule options).1.isLevelled n = true ↔ g.Free options n := by
  have h := settling_schedule hg options
  constructor
  · intro hl
    obtain ⟨l, hl⟩ := Option.isSome_iff_exists.mp hl
    exact h.free n l hl
  · exact h.isSome_of_free (readyCount_settle g options) hn

theorem levelling_schedule (hg : g.Built) (hsize : g.nodes.length ≤ maxLevel)
    (options : Options) : Levelling g options (g.schedule options).1 :=
  settle_induction (fun _ h => h.advance id hsize) (levelling_start hg.mirrors hg.level_eq_none)

/-- Scheduling levels exactly the nodes that reach no cycle and no enforced block, and
a level is the length of the longest walk. It is below the number of nodes, so the
level above it is never cut off. -/
theorem schedule_levels_longest_walks (hg : g.Built) (hsize : g.nodes.length < 2 ^ 32)
    (options : Options) (hn : n < g.nodes.length) :
    ((g.schedule options).1.isLevelled n = true ↔ g.Free options n) ∧
      ∀ l, (g.schedule options).1.level? n = some l →
        IsGreatest {k | g.Walk n k} l ∧ l < g.nodes.length ∧ levelAbove l = l + 1 := by
  have hmax : g.nodes.length ≤ maxLevel := by
    simp only [maxLevel]
    omega
  have h := levelling_schedule hg hmax options
  refine ⟨⟨fun hl => ?_, h.isSome_of_free (readyCount_settle g options) hn⟩, fun l hl => ?_⟩
  · obtain ⟨l, hl⟩ := Option.isSome_iff_exists.mp hl
    exact h.free n l hl
  · have hlt := h.lt_length hl
    exact ⟨h.longest n l hl, hlt, levelAbove_eq (hlt.trans_le hmax)⟩

/-- Data goes from the first node through the second to the third. The fourth feeds
itself. -/
def relay : Graph where
  nodes := [⟨"source", 0, [], [0], ⟨0, 0⟩, none⟩, ⟨"filter", 0, [0], [1], ⟨0, 0⟩, none⟩,
    ⟨"sink", 0, [1], [], ⟨0, 0⟩, none⟩, ⟨"echo", 0, [2], [2], ⟨0, 0⟩, none⟩]
  buffers := [⟨"a", [0], [1]⟩, ⟨"b", [1], [2]⟩, ⟨"c", [3], [3]⟩]
  regions := [⟨"r", [0, 1, 2, 3], false, ⟨0, 0⟩⟩]

theorem built_relay : relay.Built := by
  have region := Built.empty.addRegion "r" ⟨0, 0⟩
  have buffers := ((region.internBuffer "a").internBuffer "b").internBuffer "c"
  have source := @Built.addNode _ _ 0 0 "source" [] [0] ⟨0, 0⟩ buffers rfl
  have filter := @Built.addNode _ _ 0 1 "filter" [0] [1] ⟨0, 0⟩ source rfl
  have sink := @Built.addNode _ _ 0 2 "sink" [1] [] ⟨0, 0⟩ filter rfl
  exact @Built.addNode _ _ 0 3 "echo" [2] [2] ⟨0, 0⟩ sink rfl

/-- Two steps lead from the source to the end, and the node that feeds itself has no
level. -/
theorem relay_levels_longest_walks :
    relay.Built ∧ relay.nodes.length < 2 ^ 32 ∧
      IsGreatest {k | relay.Walk 0 k} 2 ∧ ¬ relay.Free {} 3 := by
  have hsize : relay.nodes.length < 2 ^ 32 := by decide
  have source := schedule_levels_longest_walks built_relay hsize {} (n := 0) (by decide)
  have echo := schedule_levels_longest_walks built_relay hsize {} (n := 3) (by decide)
  exact ⟨built_relay, hsize, (source.2 2 (by decide +kernel)).1,
    mt echo.1.mpr (by decide +kernel)⟩

end Graph

end Bankflow.Dataflow
