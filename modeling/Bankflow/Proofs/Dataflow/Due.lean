import Bankflow.Proofs.Dataflow.Sweeps

/-!
# The levels that are due

What a run ends with can be said without rounds. A level is `Due` to a node that has it. To
a node that has none, and that is not kept back, the level above those due to its successors
is due. At most one level is due to a node (`Due.unique`).

On the way from a graph `g` to the end of a run there are graphs that differ from `g` in
levels only, and in these by levels that are due (`Underway`). A node that becomes ready on
the way becomes so for the level that is due to it (`Underway.due_of_ready`), so rounds lead
from one such graph to another (`Underway.advance`). The way ends where no node is ready, and
there is one such end only (`Underway.eq_of_done`). Runs therefore find exactly the levels
that are due (`level?_schedule_iff_due`).
-/

namespace Bankflow.Dataflow

/-- The level above some levels depends on which levels there are, not on their order or on
how often each one is there. -/
theorem levelAboveAll_eq_some_iff {l : Nat} {ls : List (Option Nat)} :
    levelAboveAll ls = some l ↔ (∀ o ∈ ls, ∃ k, o = some k ∧ levelAbove k ≤ l) ∧
      (l = 0 ∨ ∃ k, some k ∈ ls ∧ l = levelAbove k) := by
  refine ⟨levelAboveAll_eq_some, fun ⟨hall, hmax⟩ => ?_⟩
  have hsome : ∀ o ∈ ls, o.isSome := by
    intro o ho
    obtain ⟨k, rfl, -⟩ := hall o ho
    rfl
  obtain ⟨l', hl'⟩ := exists_levelAboveAll hsome
  obtain ⟨hall', hmax'⟩ := levelAboveAll_eq_some hl'
  have hle : ∀ {i j : Nat}, (∀ o ∈ ls, ∃ k, o = some k ∧ levelAbove k ≤ i) →
      (j = 0 ∨ ∃ k, some k ∈ ls ∧ j = levelAbove k) → j ≤ i := by
    rintro i j hi (rfl | ⟨k, hk, rfl⟩)
    · exact Nat.zero_le i
    · obtain ⟨k', hk', hle⟩ := hi _ hk
      cases hk'
      exact hle
  rw [hl', Nat.le_antisymm (hle hall hmax') (hle hall' hmax)]

namespace Graph

variable {g g' g'' : Graph} {options options' : Options} {n m b l k : Nat} {x y : Node}

/-! ## Graphs that differ in levels only -/

theorem exists_node_of_bare_eq (h : g'.bare = g.bare) (hx : g'.nodes[n]? = some x) :
    ∃ y, g.nodes[n]? = some y ∧ y.bare = x.bare :=
  exists_getElem?_of_prefix (PartOf.of_bare_eq h.symm).nodes hx

theorem length_nodes_of_bare_eq (h : g'.bare = g.bare) : g'.nodes.length = g.nodes.length := by
  have hnodes : g'.nodes.map Node.bare = g.nodes.map Node.bare := congrArg Graph.nodes h
  simpa only [List.length_map] using congrArg List.length hnodes

theorem buffers_eq_of_bare_eq (h : g'.bare = g.bare) : g'.buffers = g.buffers := by
  show g'.bare.buffers = g.bare.buffers
  rw [h]

theorem outputs_eq_of_bare_eq (h : y.bare = x.bare) : x.outputs = y.outputs := by
  show x.bare.outputs = y.bare.outputs
  rw [h]

theorem hasPort_of_bare_eq {ports : Node → List Nat} (h : g'.bare = g.bare)
    (hp : ∀ x : Node, ports x.bare = ports x) : g'.HasPort ports n b ↔ g.HasPort ports n b := by
  rw [← hasPort_bare hp, h, hasPort_bare hp]

theorem isShared_of_bare_eq (h : g'.bare = g.bare) (b : Nat) : g'.isShared b = g.isShared b := by
  rw [isShared, isShared, buffers_eq_of_bare_eq h]

theorem isBlocked_of_bare_eq (h : g'.bare = g.bare) (hxy : y.bare = x.bare) :
    g'.isBlocked x = g.isBlocked y := by
  rw [isBlocked, isBlocked, outputs_eq_of_bare_eq hxy, funext (isShared_of_bare_eq h)]

theorem successors_of_bare_eq (h : g'.bare = g.bare) (hxy : y.bare = x.bare) :
    g'.successors x = g.successors y := by
  have hconsumers : g'.consumers = g.consumers := by
    funext b
    rw [consumers, consumers, buffers_eq_of_bare_eq h]
  rw [successors, successors, outputs_eq_of_bare_eq hxy, hconsumers]

/-- A graph is fixed by its levels, its marks and the rest. -/
theorem eq_of_bare_eq (h : g'.bare = g.bare) (hregions : g'.regions = g.regions)
    (hlevel : ∀ n, g'.level? n = g.level? n) : g' = g := by
  have hnodes : g'.nodes = g.nodes := by
    refine List.ext_getElem? fun n => ?_
    have hbare : (g'.nodes[n]?).map Node.bare = (g.nodes[n]?).map Node.bare := by
      rw [← List.getElem?_map, ← List.getElem?_map]
      exact congrArg (fun g : Graph => g.nodes[n]?) h
    have hn := hlevel n
    rw [level?, level?] at hn
    cases hx : g'.nodes[n]? with
    | none =>
      rw [hx, Option.map_none, eq_comm, Option.map_eq_none_iff] at hbare
      exact hbare.symm
    | some x =>
      cases hy : g.nodes[n]? with
      | none =>
        rw [hx, hy] at hbare
        cases hbare
      | some y =>
        rw [hx, hy, Option.map_some, Option.map_some, Option.some.injEq] at hbare
        rw [hx, hy, Option.bind_some, Option.bind_some] at hn
        simp only [Node.bare, Node.mk.injEq, and_true] at hbare
        rw [Option.some.injEq, Node.mk.injEq]
        simp only [hbare, hn, and_self]
  cases g'
  cases g
  simp only [Graph.mk.injEq]
  exact ⟨hnodes, buffers_eq_of_bare_eq h, hregions⟩

/-! ## Ready nodes -/

/-- A node that is ready where violations are enforced is ready for the same level where they
are ignored. -/
theorem readyLevel?_mono
    (hle : options.ignoreViolations = false → options'.ignoreViolations = false)
    (hl : g.readyLevel? options' x = some l) : g.readyLevel? options x = some l := by
  obtain ⟨hnone, hfree, habove⟩ := readyLevel?_eq_some_iff.mp hl
  exact readyLevel?_eq_some_iff.mpr ⟨hnone, fun hstrict => hfree (hle hstrict), habove⟩

theorem readyCount_eq_zero_iff :
    g.readyCount options = 0 ↔ ∀ x ∈ g.nodes, g.readyLevel? options x = none := by
  simp only [readyCount, List.countP_eq_zero, Option.not_isSome_iff_eq_none]

/-! ## Due levels -/

/-- Level `l` is due to node `n`. -/
inductive Due (g : Graph) (options : Options) : Nat → Nat → Prop where
  | given {n l : Nat} (h : g.level? n = some l) : Due g options n l
  /-- `level` are the levels due to the successors. -/
  | earned {n l : Nat} {x : Node} (level : Nat → Nat) (hx : g.nodes[n]? = some x)
    (hnone : x.level = none) (hfree : options.ignoreViolations = false → g.isBlocked x = false)
    (hdue : ∀ m ∈ g.successors x, Due g options m (level m))
    (hl : levelAboveAll ((g.successors x).map fun m => some (level m)) = some l) :
    Due g options n l

theorem Due.unique (h : g.Due options n l) (h' : g.Due options n k) : l = k := by
  induction h generalizing k with
  | given h =>
    cases h' with
    | given h' => exact Option.some.inj (h.symm.trans h')
    | earned level hx hnone hfree hdue hl =>
      rw [level?_eq_level hx, hnone] at h
      cases h
  | @earned n l x level hx hnone hfree hdue hl ih =>
    cases h' with
    | given h' =>
      rw [level?_eq_level hx, hnone] at h'
      cases h'
    | @earned _ _ y level' hy hnone' hfree' hdue' hl' =>
      obtain rfl : x = y := Option.some.inj (hx.symm.trans hy)
      have hsame : (g.successors x).map (fun m => some (level m)) =
          (g.successors x).map fun m => some (level' m) :=
        List.map_congr_left fun m hm => congrArg some (ih m hm (hdue' m hm))
      exact Option.some.inj (hl.symm.trans ((congrArg levelAboveAll hsame).trans hl'))

/-! ## On the way -/

/-- Graph `g'` is on the way from `g` to the end of a run: it has the levels of `g`, and
others that are due, and is `g` otherwise. -/
structure Underway (g : Graph) (options : Options) (g' : Graph) : Prop where
  bare_eq : g'.bare = g.bare
  regions_eq : g'.regions = g.regions
  kept : g.LevelsKept g'
  due : ∀ n l, g'.level? n = some l → g.Due options n l

namespace Underway

theorem start (g : Graph) (options : Options) : Underway g options g :=
  ⟨rfl, rfl, .refl g, fun _ _ h => .given h⟩

/-- A node is ready for the level that is due to it. -/
theorem due_of_ready (h : Underway g options g') (hx : g'.nodes[n]? = some x)
    (hl : g'.readyLevel? options x = some l) : g.Due options n l := by
  obtain ⟨hnone, hfree, habove⟩ := readyLevel?_eq_some_iff.mp hl
  obtain ⟨y, hy, hyx⟩ := exists_node_of_bare_eq h.bare_eq hx
  rw [successors_of_bare_eq h.bare_eq hyx] at habove
  rw [isBlocked_of_bare_eq h.bare_eq hyx] at hfree
  have hnone' : y.level = none := by
    refine Option.eq_none_iff_forall_ne_some.mpr fun k hk => ?_
    have hkept := h.kept n k ((level?_eq_level hy).trans hk)
    rw [level?_eq_level hx, hnone] at hkept
    cases hkept
  -- all successors have their levels already
  have hlevel : ∀ m ∈ g.successors y, g'.level? m = some ((g'.level? m).getD 0) := by
    intro m hm
    obtain ⟨k, hk, -⟩ := (levelAboveAll_eq_some habove).1 _ (List.mem_map_of_mem hm)
    rw [hk, Option.getD_some]
  refine .earned (fun m => (g'.level? m).getD 0) hy hnone' hfree
    (fun m hm => h.due m _ (hlevel m hm)) ?_
  rw [← habove]
  exact congrArg levelAboveAll (List.map_congr_left fun m hm => (hlevel m hm).symm)

/-- A round stays on the way, also one that enforces more. -/
theorem advance (h : Underway g options g')
    (hle : options.ignoreViolations = false → options'.ignoreViolations = false) :
    Underway g options (g'.advance options') := by
  refine ⟨(bare_advance g' options').trans h.bare_eq, h.regions_eq,
    h.kept.trans (levelsKept_advance g' options'), fun n l hl => ?_⟩
  rcases level?_advance_cases hl with hl | ⟨x, hx, hready⟩
  · exact h.due n l hl
  · exact h.due_of_ready hx (readyLevel?_mono hle hready)

theorem settle (h : Underway g options g')
    (hle : options.ignoreViolations = false → options'.ignoreViolations = false) :
    Underway g options (g'.settle options').1 :=
  settle_induction (fun _ h => h.advance hle) h

/-- Where no node is ready, all levels that are due are there. -/
theorem level?_eq_some_iff (h : Underway g options g') (hdone : g'.readyCount options = 0) :
    g'.level? n = some l ↔ g.Due options n l := by
  refine ⟨h.due n l, fun hdue => ?_⟩
  induction hdue with
  | given hl => exact h.kept _ _ hl
  | @earned n l y level hy hnone hfree hdue hl ih =>
    obtain ⟨x, hx, hxy⟩ := exists_node_of_bare_eq h.bare_eq.symm hy
    cases hlevel : x.level with
    | some k =>
      have hk : g'.level? n = some k := (level?_eq_level hx).trans hlevel
      rw [hk, (h.due n k hk).unique (.earned level hy hnone hfree hdue hl)]
    | none =>
      have habove : levelAboveAll ((g'.successors x).map g'.level?) = some l := by
        rw [successors_of_bare_eq h.bare_eq hxy.symm, ← hl]
        exact congrArg levelAboveAll (List.map_congr_left ih)
      have hready := readyLevel?_eq_some_iff.mpr
        ⟨hlevel, isBlocked_of_bare_eq h.bare_eq hxy.symm ▸ hfree, habove⟩
      rw [readyLevel?_eq_none hdone hx] at hready
      cases hready

/-- There is one end only. -/
theorem eq_of_done (h : Underway g options g') (hdone : g'.readyCount options = 0)
    (h' : Underway g options g'') (hdone' : g''.readyCount options = 0) : g' = g'' := by
  refine eq_of_bare_eq (h.bare_eq.trans h'.bare_eq.symm) (h.regions_eq.trans h'.regions_eq.symm)
    fun n => Option.ext fun l => ?_
  rw [h.level?_eq_some_iff hdone, h'.level?_eq_some_iff hdone']

end Underway

theorem readyCount_schedule (g : Graph) (options : Options) :
    (g.schedule options).1.readyCount options = 0 :=
  readyCount_settle g options

theorem underway_schedule (g : Graph) (options : Options) :
    Underway g options (g.schedule options).1 :=
  (Underway.start g options).settle id

/-- Scheduling finds exactly the levels that are due. -/
theorem level?_schedule_iff_due :
    (g.schedule options).1.level? n = some l ↔ g.Due options n l :=
  (underway_schedule g options).level?_eq_some_iff (readyCount_schedule g options)

end Graph

end Bankflow.Dataflow
