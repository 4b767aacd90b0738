import Bankflow.Proofs.Dataflow.Due

/-!
# Nodes picked one by one

Rounds look at all nodes at once. One may as well pick any node that is ready, give it its
level, and look again (`pick?`). Each pick leaves one node fewer without a level
(`pendingCount_pick?`) and stays on the way from the graph to the end of a run
(`Underway.pick?`), so picks that cannot go on end where rounds end, whatever they were.

The numbers of nodes and buffers come from the order in which they were declared. What
decides on a level can be said without them, by the names of buffers (`NodeFlow`): which
nodes feed which, and which of them are blocked (`SameFlow.exists_successor`,
`SameFlow.isBlocked_of_isBlocked`). So graphs that differ in the order of their nodes get the
same levels (`SameFlow.level?_schedule`).

Both are put together in `picks_end_alike`.
-/

namespace Bankflow.Dataflow

theorem levelAboveAll_congr {ls ls' : List (Option Nat)} (h : ∀ o, o ∈ ls ↔ o ∈ ls') :
    levelAboveAll ls = levelAboveAll ls' := by
  refine Option.ext fun l => ?_
  rw [levelAboveAll_eq_some_iff, levelAboveAll_eq_some_iff]
  simp only [h]

namespace Graph

variable {g g' g'' : Graph} {options : Options} {n m k l b : Nat} {x y : Node}
  {picks : List Nat}

/-! ## Picks -/

/-- The graph after a node that is ready got its level. -/
def pick? (g : Graph) (options : Options) (n : Nat) : Option Graph := do
  let x ← g.nodes[n]?
  let l ← g.readyLevel? options x
  return g.assignLevel n l

/-- The graph after some picks, one after the other. -/
def pickAll? (g : Graph) (options : Options) : List Nat → Option Graph
  | [] => some g
  | n :: picks => (g.pick? options n).bind fun g' => g'.pickAll? options picks

theorem pick?_eq_some_iff : g.pick? options n = some g' ↔
    ∃ x l, g.nodes[n]? = some x ∧ g.readyLevel? options x = some l ∧ g.assignLevel n l = g' := by
  simp only [pick?, Option.bind_eq_bind, Option.bind_eq_some_iff, Option.pure_def,
    Option.some.injEq]
  constructor
  · rintro ⟨x, hx, l, hl, hg⟩
    exact ⟨x, l, hx, hl, hg⟩
  · rintro ⟨x, l, hx, hl, hg⟩
    exact ⟨x, hx, l, hl, hg⟩

theorem level?_assignLevel (hx : g.nodes[n]? = some x) (hnone : x.level = none) (m : Nat) :
    (g.assignLevel n l).level? m = if m = n then some l else g.level? m := by
  rw [level?, assignLevel, List.getElem?_modify]
  split
  · next heq =>
    subst heq
    rw [hx]
    simp [Node.assign, hnone]
  · next hne =>
    simp only [Ne.symm hne, if_false, Option.map_eq_map, Option.map_id_fun', id_eq]
    rfl

/-- A pick stays on the way to the end. -/
theorem Underway.pick? (h : Underway g options g') (hpick : g'.pick? options n = some g'') :
    Underway g options g'' := by
  obtain ⟨x, l, hx, hl, rfl⟩ := pick?_eq_some_iff.mp hpick
  have hnone := level_eq_none_of_readyLevel? hl
  have hlevel := level?_assignLevel (l := l) hx hnone
  refine ⟨(bare_assignLevel g' n l).trans h.bare_eq, h.regions_eq, h.kept.trans ?_, ?_⟩
  · intro m k hk
    rw [hlevel, if_neg, hk]
    rintro rfl
    rw [level?_eq_level hx, hnone] at hk
    cases hk
  · intro m k hk
    rw [hlevel] at hk
    split at hk
    · next heq =>
      cases hk
      exact heq ▸ h.due_of_ready hx hl
    · exact h.due m k hk

theorem Underway.pickAll? (h : Underway g options g')
    (hpicks : g'.pickAll? options picks = some g'') : Underway g options g'' := by
  induction picks generalizing g' with
  | nil =>
    cases hpicks
    exact h
  | cons n picks ih =>
    obtain ⟨g₁, hpick, hrest⟩ := Option.bind_eq_some_iff.mp hpicks
    exact ih (h.pick? hpick) hrest

/-- Where nothing can be picked, no node is ready. -/
theorem readyCount_eq_zero_of_pick? (h : ∀ n, g.pick? options n = none) :
    g.readyCount options = 0 := by
  refine readyCount_eq_zero_iff.mpr fun x hx => Option.eq_none_iff_forall_ne_some.mpr fun l hl => ?_
  obtain ⟨n, hn⟩ := List.mem_iff_getElem?.mp hx
  have hpick := pick?_eq_some_iff.mpr ⟨x, l, hn, hl, rfl⟩
  rw [h n] at hpick
  cases hpick

/-! ### Picks come to an end -/

theorem pendingCount_pick? (hpick : g.pick? options n = some g') :
    g'.pendingCount + 1 = g.pendingCount := by
  obtain ⟨x, l, hx, hl, rfl⟩ := pick?_eq_some_iff.mp hpick
  have hnone := level_eq_none_of_readyLevel? hl
  obtain ⟨hn, hget⟩ := List.getElem?_eq_some_iff.mp hx
  obtain ⟨before, y, after, hnodes, hlength, hmodify⟩ := List.exists_of_modify (·.assign l) hn
  obtain rfl : y = x := by
    rw [← hget]
    simp [hnodes, ← hlength]
  rw [pendingCount, pendingCount, assignLevel, hmodify, hnodes]
  simp only [List.countP_append, List.countP_cons, Node.assign, hnone, Option.isNone_some,
    Option.isNone_none, Bool.false_eq_true, if_false, if_true]
  omega

theorem pendingCount_pickAll? (hpicks : g.pickAll? options picks = some g') :
    g'.pendingCount + picks.length = g.pendingCount := by
  induction picks generalizing g with
  | nil =>
    cases hpicks
    rfl
  | cons n picks ih =>
    obtain ⟨g₁, hpick, hrest⟩ := Option.bind_eq_some_iff.mp hpicks
    rw [List.length_cons, ← pendingCount_pick? hpick, ← ih hrest]
    omega

/-- One can always pick until nothing is left to be picked. -/
theorem exists_pickAll?_end (g : Graph) (options : Options) :
    ∃ picks g', g.pickAll? options picks = some g' ∧ ∀ n, g'.pick? options n = none := by
  induction hc : g.pendingCount using Nat.strong_induction_on generalizing g with
  | _ c ih =>
    subst hc
    by_cases hend : ∀ n, g.pick? options n = none
    · exact ⟨[], g, rfl, hend⟩
    · simp only [not_forall, ← ne_eq, Option.ne_none_iff_exists'] at hend
      obtain ⟨n, g₁, hpick⟩ := hend
      have hfewer := pendingCount_pick? hpick
      obtain ⟨picks, g', hrest, hend⟩ := ih g₁.pendingCount (by omega) g₁ rfl
      exact ⟨n :: picks, g', Option.bind_eq_some_iff.mpr ⟨g₁, hpick, hrest⟩, hend⟩

end Graph

/-! ## The order of declarations -/

/-- What a node has to do with the flow of data: the names of the buffers that it reads and
writes, and its level. -/
structure NodeFlow where
  inputs : List String
  outputs : List String
  level : Option Nat
  deriving DecidableEq, Repr

namespace Graph

variable {g g' : Graph} {options : Options} {n m k l b : Nat} {x y : Node} {name : String}
  {ports : List Nat}

/-- Buffer `b` has this name. -/
def BufferNamed (g : Graph) (b : Nat) (name : String) : Prop :=
  (g.buffers[b]?).map (·.name) = some name

def portNames (g : Graph) (ports : List Nat) : List String :=
  ports.filterMap fun b => (g.buffers[b]?).map (·.name)

def nodeFlow (g : Graph) (x : Node) : NodeFlow :=
  ⟨g.portNames x.inputs, g.portNames x.outputs, x.level⟩

def flow? (g : Graph) (n : Nat) : Option NodeFlow := (g.nodes[n]?).map g.nodeFlow

/-- The graphs have the same nodes, but perhaps declared in a different order. -/
def SameFlow (g g' : Graph) : Prop := (g.nodes.map g.nodeFlow).Perm (g'.nodes.map g'.nodeFlow)

theorem SameFlow.symm (h : g.SameFlow g') : g'.SameFlow g := List.Perm.symm h

/-- Every node is a node of the other graph. -/
theorem SameFlow.exists_flow? (h : g.SameFlow g') (hx : g.nodes[n]? = some x) :
    ∃ (m : Nat) (y : Node), g'.nodes[m]? = some y ∧ g'.nodeFlow y = g.nodeFlow x := by
  have hmem : g.nodeFlow x ∈ g.nodes.map g.nodeFlow :=
    List.mem_map_of_mem (List.mem_of_getElem? hx)
  obtain ⟨y, hy, heq⟩ := List.mem_map.mp (h.mem_iff.mp hmem)
  obtain ⟨m, hm⟩ := List.mem_iff_getElem?.mp hy
  exact ⟨m, y, hm, heq⟩

theorem level?_eq_bind_flow? (g : Graph) (n : Nat) :
    g.level? n = (g.flow? n).bind NodeFlow.level := by
  rw [level?, flow?]
  cases g.nodes[n]? with
  | none => rfl
  | some x => rfl

/-! ### Ports by name -/

theorem exists_bufferNamed (h : b < g.buffers.length) : ∃ name, g.BufferNamed b name := by
  refine ⟨g.buffers[b].name, ?_⟩
  rw [BufferNamed, List.getElem?_eq_getElem h, Option.map_some]

theorem mem_portNames : name ∈ g.portNames ports ↔ ∃ b ∈ ports, g.BufferNamed b name :=
  List.mem_filterMap

/-- Among some ports a buffer and its name are equally good. -/
theorem Consistent.mem_portNames_iff (hg : g.Consistent) (hb : g.BufferNamed b name) :
    name ∈ g.portNames ports ↔ b ∈ ports := by
  rw [mem_portNames]
  refine ⟨fun ⟨b', hmem, hb'⟩ => ?_, fun hmem => ⟨b, hmem, hb⟩⟩
  have hfound := hg.bufferNamed?_eq_some_iff.mpr hb'
  rw [hg.bufferNamed?_eq_some_iff.mpr hb] at hfound
  cases hfound
  exact hmem

/-- A buffer has as many users of a kind as there are nodes that name it. -/
theorem Consistent.length_users {users : Buffer → List Nat} {ports : Node → List Nat}
    {buffer : Buffer} (hg : g.Consistent) (names : NodeFlow → List String)
    (husers : g.PortsListed ports users)
    (hnames : ∀ x, names (g.nodeFlow x) = g.portNames (ports x))
    (hbuffer : g.buffers[b]? = some buffer) :
    (users buffer).length =
      (g.nodes.map g.nodeFlow).countP fun f => buffer.name ∈ names f := by
  have hb : g.BufferNamed b buffer.name := by rw [BufferNamed, hbuffer, Option.map_some]
  have hcount : (users buffer).length = g.nodes.countP fun x => b ∈ ports x := by
    refine Enumerates.length_eq_countP ((husers.listed b buffer hbuffer).congr fun n => ?_)
    simp only [HasPort, decide_eq_true_eq]
  rw [hcount, List.countP_map]
  refine List.countP_congr fun x _ => ?_
  simp only [Function.comp_apply, decide_eq_true_eq, hnames, hg.mem_portNames_iff hb]

/-- Buffers of the same name are shared alike. -/
theorem SameFlow.isShared_eq (h : g.SameFlow g') (hg : g.Consistent) (hg' : g'.Consistent)
    {b' : Nat} (hb : g.BufferNamed b name) (hb' : g'.BufferNamed b' name) :
    g.isShared b = g'.isShared b' := by
  obtain ⟨buffer, hbuffer, rfl⟩ := Option.map_eq_some_iff.mp hb
  obtain ⟨buffer', hbuffer', hname⟩ := Option.map_eq_some_iff.mp hb'
  rw [isShared, isShared, hbuffer, hbuffer']
  simp only [Buffer.isShared]
  rw [hg.length_users NodeFlow.inputs hg.inputs (fun _ => rfl) hbuffer,
    hg.length_users NodeFlow.outputs hg.outputs (fun _ => rfl) hbuffer,
    hg'.length_users NodeFlow.inputs hg'.inputs (fun _ => rfl) hbuffer',
    hg'.length_users NodeFlow.outputs hg'.outputs (fun _ => rfl) hbuffer',
    hname, h.countP_eq, h.countP_eq]

/-- Nodes with the same flow are blocked alike. -/
theorem SameFlow.isBlocked_of_isBlocked (h : g.SameFlow g') (hg : g.Consistent)
    (hg' : g'.Consistent) (hx : g.nodes[n]? = some x) (hflow : g.nodeFlow x = g'.nodeFlow y)
    (hblocked : g.isBlocked x = true) : g'.isBlocked y = true := by
  obtain ⟨b, hb, hshared⟩ := List.any_eq_true.mp hblocked
  obtain ⟨name, hname⟩ := exists_bufferNamed (hg.outputs.lt n b ⟨x, hx, hb⟩)
  have houtput : name ∈ g'.portNames y.outputs := by
    rw [← show (g.nodeFlow x).outputs = g'.portNames y.outputs by rw [hflow]; rfl]
    exact mem_portNames.mpr ⟨b, hb, hname⟩
  obtain ⟨b', hb', hname'⟩ := mem_portNames.mp houtput
  exact List.any_eq_true.mpr ⟨b', hb', h.isShared_eq hg hg' hname hname' ▸ hshared⟩

/-- Nodes with the same flow feed nodes with the same flow. -/
theorem SameFlow.exists_successor (h : g.SameFlow g') (hg : g.Consistent) (hg' : g'.Consistent)
    (hx : g.nodes[n]? = some x) (hy : g'.nodes[m]? = some y)
    (hflow : g.nodeFlow x = g'.nodeFlow y) (hk : k ∈ g.successors x) :
    ∃ j ∈ g'.successors y, g.flow? k = g'.flow? j := by
  obtain ⟨b, hwrites, z, hz, hread⟩ := (hg.mem_successors hx).mp hk
  obtain ⟨name, hname⟩ := exists_bufferNamed (hg.outputs.lt n b hwrites)
  obtain ⟨j, w, hw, hwz⟩ := h.exists_flow? hz
  -- the name is among the outputs of `y` and the inputs of `w`
  have houtput : name ∈ (g'.nodeFlow y).outputs := by
    obtain ⟨x', hx', hb⟩ := hwrites
    cases hx.symm.trans hx'
    rw [← hflow]
    exact (hg.mem_portNames_iff hname).mpr hb
  have hinput : name ∈ (g'.nodeFlow w).inputs := by
    rw [hwz]
    exact (hg.mem_portNames_iff hname).mpr hread
  obtain ⟨b', hb', hname'⟩ := mem_portNames.mp houtput
  refine ⟨j, (hg'.mem_successors hy).mpr ⟨b', ⟨y, hy, hb'⟩, w, hw, ?_⟩, ?_⟩
  · exact (hg'.mem_portNames_iff hname').mp hinput
  · rw [flow?, flow?, hz, hw, Option.map_some, Option.map_some, hwz]

/-! ### Levels -/

/-- The same levels are due to nodes with the same flow. -/
theorem SameFlow.due (h : g.SameFlow g') (hg : g.Consistent) (hg' : g'.Consistent)
    (hflow : g.flow? n = g'.flow? m) (hdue : g.Due options n l) : g'.Due options m l := by
  induction hdue generalizing m with
  | given hl =>
    rw [level?_eq_bind_flow?, hflow, ← level?_eq_bind_flow?] at hl
    exact .given hl
  | @earned n l x level hx hnone hfree hdue hl ih =>
    rw [flow?, hx, Option.map_some, flow?, eq_comm, Option.map_eq_some_iff] at hflow
    obtain ⟨y, hy, hyx⟩ := hflow
    have hpartner : ∀ j, ∃ lj, j ∈ g'.successors y →
        ∃ k ∈ g.successors x, g.flow? k = g'.flow? j ∧ lj = level k := by
      intro j
      by_cases hj : j ∈ g'.successors y
      · obtain ⟨k, hk, hflow⟩ := h.symm.exists_successor hg' hg hy hx hyx hj
        exact ⟨level k, fun _ => ⟨k, hk, hflow.symm, rfl⟩⟩
      · exact ⟨0, fun hj' => absurd hj' hj⟩
    choose level' hlevel' using hpartner
    refine .earned level' hy ?_ (fun hstrict => ?_) (fun j hj => ?_) ?_
    · rw [← hnone]
      exact congrArg NodeFlow.level hyx
    · refine Bool.eq_false_iff.mpr fun hblocked => ?_
      have := h.symm.isBlocked_of_isBlocked hg' hg hy hyx hblocked
      rw [hfree hstrict] at this
      cases this
    · obtain ⟨k, hk, hflow, hlk⟩ := hlevel' j hj
      rw [hlk]
      exact ih k hk hflow
    · rw [← hl]
      refine levelAboveAll_congr fun o => ?_
      rw [List.mem_map, List.mem_map]
      constructor
      · rintro ⟨j, hj, rfl⟩
        obtain ⟨k, hk, -, hlk⟩ := hlevel' j hj
        exact ⟨k, hk, by rw [hlk]⟩
      · rintro ⟨k, hk, rfl⟩
        obtain ⟨j, hj, hflow⟩ := h.exists_successor hg hg' hx hy hyx.symm hk
        obtain ⟨k', hk', hflow', hlk'⟩ := hlevel' j hj
        -- the levels of `k` and `k'` are both due to `j`
        refine ⟨j, hj, congrArg some ?_⟩
        rw [hlk']
        exact (ih k' hk' hflow').unique (ih k hk hflow)

/-- Nodes with the same flow get the same levels. -/
theorem SameFlow.level?_schedule (h : g.SameFlow g') (hg : g.Consistent) (hg' : g'.Consistent)
    (hflow : g.flow? n = g'.flow? m) :
    (g.schedule options).1.level? n = (g'.schedule options).1.level? m := by
  refine Option.ext fun l => ?_
  rw [level?_schedule_iff_due, level?_schedule_iff_due]
  exact ⟨h.due hg hg' hflow, h.symm.due hg' hg hflow.symm⟩

/-! ## Picks and declarations in any order -/

/-- Whatever levels there are at the start, one may pick any node that is ready, again and
again. Picks come to an end, at the latest when all nodes have levels; picks that have not
come to an end can go on to one; and at the end the graph is the one that rounds lead to,
with the same level, or none, for every node. The order of declarations does not matter
either: if another graph has the same nodes, by the names of their buffers and by their
levels, then nodes that are the same get the same level, or none. -/
theorem picks_end_alike (hg : g.Consistent) (options : Options) :
    (∀ picks g', g.pickAll? options picks = some g' →
      picks.length ≤ g.pendingCount ∧
      (∃ more g'', g'.pickAll? options more = some g'' ∧ ∀ n, g''.pick? options n = none) ∧
      ((∀ n, g'.pick? options n = none) → g' = (g.schedule options).1)) ∧
    ∀ g₂ : Graph, g₂.Consistent → g.SameFlow g₂ → ∀ n m, g.flow? n = g₂.flow? m →
      (g.schedule options).1.level? n = (g₂.schedule options).1.level? m := by
  refine ⟨fun picks g' hpicks => ⟨?_, exists_pickAll?_end g' options, fun hend => ?_⟩,
    fun g₂ hg₂ hsame n m hflow => hsame.level?_schedule hg hg₂ hflow⟩
  · have := pendingCount_pickAll? hpicks
    omega
  · exact ((Underway.start g options).pickAll? hpicks).eq_of_done (readyCount_eq_zero_of_pick? hend)
      (underway_schedule g options) (readyCount_schedule g options)

/-- The nodes of `relay` in the opposite order. The buffers are numbered in a different order
as well. -/
def backwardsRelay : Graph where
  nodes := [⟨"echo", 0, [0], [0], ⟨0, 0⟩, none⟩, ⟨"sink", 0, [1], [], ⟨0, 0⟩, none⟩,
    ⟨"filter", 0, [2], [1], ⟨0, 0⟩, none⟩, ⟨"source", 0, [], [2], ⟨0, 0⟩, none⟩]
  buffers := [⟨"c", [0], [0]⟩, ⟨"b", [2], [1]⟩, ⟨"a", [3], [2]⟩]
  regions := [⟨"r", [0, 1, 2, 3], false, ⟨0, 0⟩⟩]

theorem built_backwardsRelay : backwardsRelay.Built := by
  have region := Built.empty.addRegion "r" ⟨0, 0⟩
  have buffers := ((region.internBuffer "c").internBuffer "b").internBuffer "a"
  have echo := @Built.addNode _ _ 0 0 "echo" [0] [0] ⟨0, 0⟩ buffers rfl
  have sink := @Built.addNode _ _ 0 1 "sink" [1] [] ⟨0, 0⟩ echo rfl
  have filter := @Built.addNode _ _ 0 2 "filter" [2] [1] ⟨0, 0⟩ sink rfl
  exact @Built.addNode _ _ 0 3 "source" [] [2] ⟨0, 0⟩ filter rfl

/-- The sink has a level from the start. The filter and then the source are picked, after
which nothing is ready, and the source gets the same level in both graphs. -/
theorem relay_picks_end_alike :
    (relay.assignLevel 2 5).Consistent ∧ (backwardsRelay.assignLevel 1 5).Consistent ∧
      (relay.assignLevel 2 5).SameFlow (backwardsRelay.assignLevel 1 5) ∧
      (relay.assignLevel 2 5).pickAll? {} [1, 0] = some ((relay.assignLevel 2 5).schedule {}).1 ∧
      ((backwardsRelay.assignLevel 1 5).schedule {}).1.level? 3 = some 7 := by
  have hg : (relay.assignLevel 2 5).Consistent :=
    built_relay.consistent.of_bare_eq (bare_assignLevel relay 2 5)
  have hg₂ : (backwardsRelay.assignLevel 1 5).Consistent :=
    built_backwardsRelay.consistent.of_bare_eq (bare_assignLevel backwardsRelay 1 5)
  have hsame : (relay.assignLevel 2 5).SameFlow (backwardsRelay.assignLevel 1 5) := by
    rw [SameFlow]
    decide +kernel
  have hpicks : (relay.assignLevel 2 5).pickAll? {} [1, 0] =
      some (((relay.assignLevel 2 5).assignLevel 1 6).assignLevel 0 7) := by decide +kernel
  have hend : ∀ n, (((relay.assignLevel 2 5).assignLevel 1 6).assignLevel 0 7).pick? {} n =
      none := by
    intro n
    rcases Nat.lt_or_ge n 4 with hn | hn
    · have hfew : ∀ n < 4, (((relay.assignLevel 2 5).assignLevel 1 6).assignLevel 0 7).pick? {} n =
          none := by decide +kernel
      exact hfew n hn
    · rw [pick?, List.getElem?_eq_none hn]
      rfl
  obtain ⟨hscheduled, horder⟩ := picks_end_alike hg {}
  have hrounds := (hscheduled _ _ hpicks).2.2 hend
  refine ⟨hg, hg₂, hsame, hrounds ▸ hpicks, ?_⟩
  rw [← horder _ hg₂ hsame 0 3 (by decide +kernel), ← hrounds]
  decide +kernel

end Graph

end Bankflow.Dataflow
