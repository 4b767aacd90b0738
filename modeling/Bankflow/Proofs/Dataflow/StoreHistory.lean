import Bankflow.Proofs.Dataflow.StoreSweeps

/-!
# Histories of stores

A store holds the same facts in several places: parts carry their numbers, counters hold the
next ones, buffers list their users, regions list their nodes, and a table finds buffers by
name. It is `Consistent` if these agree.

An action on the store of a graph gives the store of what the action gives on the graph
(`perform_ofGraph`), as long as there are numbers left. So a history of actions from the
empty store follows one from the empty graph (`exists_graph_of_performAll`), and all stores that
it can lead to are consistent (`consistent_of_history`).
-/

namespace Bankflow.Dataflow

/-! ## Actions -/

def Action.map {ι κ : Type} (f : ι → κ) : Action ι → Action κ
  | .addRegion name span => .addRegion name span
  | .internBuffer name => .internBuffer name
  | .addNode region name inputs outputs span =>
    .addNode (f region) name (inputs.map f) (outputs.map f) span
  | .assignLevel node level => .assignLevel (f node) (f level)
  | .sweep s => .sweep s

def Part.map {ι κ : Type} (f : ι → κ) (p : Part ι) : Part κ := ⟨p.kind, f p.id⟩

/-- How far a counter has to get in an action. -/
def Graph.reached (g : Graph) : Action Nat → Nat
  | .addRegion .. => g.regions.length + 1
  | .internBuffer name => (g.internBuffer name).1.buffers.length
  | .addNode .. => g.nodes.length + 1
  | .sweep (.schedule options) => (g.schedule options).2.rounds
  | .assignLevel .. | .sweep (.checkLegality _) => 0

theorem Graph.Fits.count {g : Graph} (h : g.Fits) (kind : PartKind) : g.count kind < 2 ^ 32 := by
  cases kind with
  | node => exact h.nodes
  | buffer => exact h.buffers
  | region => exact h.regions
  | array | loop => exact Nat.zero_lt_of_ne_zero (by decide)

namespace Store

def sweep (o : Overflow) (s : Store) : Sweep → Except Fault Store
  | .schedule options => (s.schedule o options).map (·.1)
  | .checkLegality options => (s.checkLegality options).map (·.1)

/-- The store after an action, and the part that the action gives the number of. -/
def perform (o : Overflow) (s : Store) : Action UInt32 →
    Except Fault (Store × Option (Part UInt32))
  | .addRegion name span => (s.addRegion o name span).map fun r => (r.1, some ⟨.region, r.2⟩)
  | .internBuffer name => (s.internBuffer o name).map fun r => (r.1, some ⟨.buffer, r.2⟩)
  | .addNode region name inputs outputs span =>
    (s.addNode o region name inputs outputs span).map fun r => (r.1, some ⟨.node, r.2⟩)
  | .assignLevel node level => (s.assignLevel node level).map fun s' => (s', none)
  | .sweep sweep => (s.sweep o sweep).map fun s' => (s', none)

/-- The numbers that an action uses name parts of the store. -/
def InRange (s : Store) : Action UInt32 → Prop
  | .addNode region _ inputs outputs _ =>
    region.toNat < s.regions.length ∧ ∀ b ∈ inputs ++ outputs, b.toNat < s.buffers.length
  | .assignLevel node _ => node.toNat < s.nodes.length
  | .addRegion .. | .internBuffer _ | .sweep _ => True

/-- No counter comes to its end in an action. -/
def HasRoom (s : Store) : Action UInt32 → Prop
  | .addRegion .. => s.regions.length + 1 < 2 ^ 32
  | .internBuffer _ => s.buffers.length + 1 < 2 ^ 32
  | .addNode .. | .sweep _ => s.nodes.length + 1 < 2 ^ 32
  | .assignLevel .. => True

/-! ## Consistent stores -/

/-- The numbers of the nodes that satisfy a condition, each once and ascending. -/
structure Lists (s : Store) (ids : List UInt32) (P : StoredNode → Prop) : Prop where
  ascending : ids.Pairwise (· < ·)
  mem_iff : ∀ id, id ∈ ids ↔ ∃ n ∈ s.nodes, n.id = id ∧ P n

/-- All copies of what a store knows agree. -/
structure Consistent (s : Store) : Prop where
  /-- Every part is at the place that its number says. -/
  node_id : ∀ (i : Nat) n, s.nodes[i]? = some n → n.id.toNat = i
  buffer_id : ∀ (i : Nat) b, s.buffers[i]? = some b → b.id.toNat = i
  region_id : ∀ (i : Nat) r, s.regions[i]? = some r → r.id.toNat = i
  /-- The next numbers are the first free places. -/
  next_node : s.ids.node.toNat = s.nodes.length
  next_buffer : s.ids.buffer.toNat = s.buffers.length
  next_region : s.ids.region.toNat = s.regions.length
  /-- Ports and regions of nodes are there. -/
  ports : ∀ n ∈ s.nodes, ∀ b ∈ n.inputs ++ n.outputs, b.toNat < s.buffers.length
  region : ∀ n ∈ s.nodes, n.region.toNat < s.regions.length
  producers : ∀ b ∈ s.buffers, s.Lists b.producers fun n => b.id ∈ n.outputs
  consumers : ∀ b ∈ s.buffers, s.Lists b.consumers fun n => b.id ∈ n.inputs
  nodes : ∀ r ∈ s.regions, s.Lists r.nodes fun n => n.region = r.id
  /-- Names are those of one buffer, and the table has them all and nothing else. -/
  names_nodup : (s.buffers.map (·.name)).Nodup
  lookup_iff : ∀ name id,
    s.names.lookup name = some id ↔ ∃ b ∈ s.buffers, b.name = name ∧ b.id = id

variable {o : Overflow} {g g' : Graph} {i : Nat}

/-- A list of places of nodes is a list of numbers of nodes in the store. -/
theorem lists_ofGraph (hfits : g.Fits) {ids : List Nat} {P : Nat → Prop} (h : Enumerates ids P)
    {Q : StoredNode → Prop}
    (hPQ : ∀ i, P i ↔ ∃ n, g.nodes[i]? = some n ∧ Q (.of i n)) :
    (ofGraph g).Lists (ids.map UInt32.ofNat) Q := by
  have hlt : ∀ i ∈ ids, i < 2 ^ 32 := fun i hi => by
    obtain ⟨n, hn, -⟩ := (hPQ i).mp ((h.mem_iff i).mp hi)
    exact Nat.lt_trans (List.getElem?_eq_some_iff.mp hn).1 hfits.nodes
  refine ⟨?_, fun id => ?_⟩
  · rw [List.pairwise_map]
    refine h.ascending.imp_of_mem fun hi hj hij => ?_
    rwa [UInt32.lt_iff_toNat_lt, UInt32.toNat_ofNat_of_lt' (hlt _ hi),
      UInt32.toNat_ofNat_of_lt' (hlt _ hj)]
  · simp only [List.mem_map, ofGraph, List.mem_mapIdx]
    constructor
    · rintro ⟨i, hi, rfl⟩
      obtain ⟨n, hn, hq⟩ := (hPQ i).mp ((h.mem_iff i).mp hi)
      obtain ⟨hlt, rfl⟩ := List.getElem?_eq_some_iff.mp hn
      exact ⟨_, ⟨i, hlt, rfl⟩, rfl, hq⟩
    · rintro ⟨n, ⟨i, hi, rfl⟩, rfl, hq⟩
      exact ⟨i, (h.mem_iff i).mpr ((hPQ i).mpr ⟨_, List.getElem?_eq_getElem hi, hq⟩), rfl⟩

/-- The users of a buffer, as the buffer lists them. -/
theorem lists_users (hfits : g.Fits) {ports : Node → List Nat} {users : Buffer → List Nat}
    {ports' : StoredNode → List UInt32} (hports : ∀ i n, ports' (.of i n) = (ports n).map .ofNat)
    (h : g.PortsListed ports users) (hi : i < g.buffers.length) :
    (ofGraph g).Lists ((users g.buffers[i]).map UInt32.ofNat) fun n =>
      UInt32.ofNat i ∈ ports' n := by
  refine lists_ofGraph hfits (h.listed i _ (List.getElem?_eq_getElem hi)) fun k => ?_
  refine exists_congr fun n => and_congr_right fun hn => ?_
  rw [hports, ofNat_mem_map_iff (Nat.lt_trans hi hfits.buffers)]
  exact fun b hb => Nat.lt_trans (h.lt k b ⟨n, hn, hb⟩) hfits.buffers

theorem consistent_ofGraph (hfits : g.Fits) (hg : g.Consistent) : (ofGraph g).Consistent where
  node_id _ _ := toNat_number_of_getElem? StoredNode.of StoredNode.id (fun _ _ => rfl) hfits.nodes
  buffer_id _ _ :=
    toNat_number_of_getElem? StoredBuffer.of StoredBuffer.id (fun _ _ => rfl) hfits.buffers
  region_id _ _ :=
    toNat_number_of_getElem? StoredRegion.of StoredRegion.id (fun _ _ => rfl) hfits.regions
  next_node := (UInt32.toNat_ofNat_of_lt' hfits.nodes).trans (List.length_mapIdx).symm
  next_buffer := (UInt32.toNat_ofNat_of_lt' hfits.buffers).trans (List.length_mapIdx).symm
  next_region := (UInt32.toNat_ofNat_of_lt' hfits.regions).trans (List.length_mapIdx).symm
  ports := by
    intro n hn b hb
    obtain ⟨i, hi, rfl⟩ := List.mem_mapIdx.mp hn
    have hx := List.getElem?_eq_getElem hi
    rw [ofGraph, List.length_mapIdx]
    rcases List.mem_append.mp hb with hb | hb
    · obtain ⟨k, hk, rfl⟩ := List.mem_map.mp hb
      have hlt := hg.inputs.lt i k ⟨_, hx, hk⟩
      rwa [UInt32.toNat_ofNat_of_lt' (Nat.lt_trans hlt hfits.buffers)]
    · obtain ⟨k, hk, rfl⟩ := List.mem_map.mp hb
      have hlt := hg.outputs.lt i k ⟨_, hx, hk⟩
      rwa [UInt32.toNat_ofNat_of_lt' (Nat.lt_trans hlt hfits.buffers)]
  region := by
    intro n hn
    obtain ⟨i, hi, rfl⟩ := List.mem_mapIdx.mp hn
    have hlt := hg.regions.lt i _ ⟨_, List.getElem?_eq_getElem hi, rfl⟩
    rw [StoredNode.of, UInt32.toNat_ofNat_of_lt' (Nat.lt_trans hlt hfits.regions), ofGraph,
      List.length_mapIdx]
    exact hlt
  producers := by
    intro b hb
    obtain ⟨i, hi, rfl⟩ := List.mem_mapIdx.mp hb
    exact lists_users hfits (fun _ _ => rfl) hg.outputs hi
  consumers := by
    intro b hb
    obtain ⟨i, hi, rfl⟩ := List.mem_mapIdx.mp hb
    exact lists_users hfits (fun _ _ => rfl) hg.inputs hi
  nodes := by
    intro r hr
    obtain ⟨i, hi, rfl⟩ := List.mem_mapIdx.mp hr
    refine lists_ofGraph hfits (hg.regions.listed i _ (List.getElem?_eq_getElem hi)) fun k => ?_
    refine exists_congr fun n => and_congr_right fun hn => ?_
    have hlt := hg.regions.lt k _ ⟨n, hn, rfl⟩
    rw [StoredNode.of, StoredRegion.of, ← UInt32.toNat_inj,
      UInt32.toNat_ofNat_of_lt' (Nat.lt_trans hlt hfits.regions),
      UInt32.toNat_ofNat_of_lt' (Nat.lt_trans hi hfits.regions)]
  names_nodup :=
    (map_name_parts StoredBuffer.of Buffer.name StoredBuffer.name (fun _ _ => rfl)).symm ▸ hg.names
  lookup_iff :=
    lookup_parts_iff StoredBuffer.of Buffer.name StoredBuffer.name StoredBuffer.id (fun _ _ => rfl)
      (fun _ _ => rfl) hg.names

/-! ## Actions on the store of a graph -/

/-- An action on the store of a graph is that on the graph, if no counter comes to its end. -/
theorem perform_ofGraph (hfits : g.Fits) (hg : g.Consistent) (a : Action UInt32) :
    (ofGraph g).perform o a = o.counted (g.reached (a.map (·.toNat)))
      ((g.perform? (a.map (·.toNat))).map fun r =>
        (ofGraph r.1, r.2.map (·.map UInt32.ofNat))) := by
  have hzero : o.Reaches 0 := .inr (by decide)
  cases a with
  | addRegion name span =>
    rw [perform, addRegion_ofGraph hfits, Overflow.map_counted]
    rfl
  | internBuffer name =>
    rw [perform, internBuffer_ofGraph hfits hg.names, Overflow.map_counted]
    rfl
  | addNode region name inputs outputs span =>
    rw [perform, addNode_ofGraph hfits hg.toMirrors, Overflow.map_counted, Action.map,
      Graph.perform?]
    cases g.addNode? region.toNat name (inputs.map (·.toNat)) (outputs.map (·.toNat)) span <;> rfl
  | assignLevel node level =>
    rw [perform, assignLevel_ofGraph, Action.map, Graph.reached, Graph.perform?,
      Overflow.counted_of_reaches hzero]
    cases g.assignLevel? node.toNat level.toNat <;> rfl
  | sweep s =>
    cases s with
    | schedule options =>
      rw [perform, sweep, schedule_ofGraph hfits hg.toMirrors, Overflow.map_counted,
        Overflow.map_counted]
      rfl
    | checkLegality options =>
      rw [perform, sweep, checkLegality_ofGraph hfits hg.regions, Action.map, Graph.reached,
        Overflow.counted_of_reaches hzero]
      rfl

theorem fits_step {a : Action UInt32} {part : Option (Part Nat)} (hfits : g.Fits)
    (h : g.Step (a.map (·.toNat)) g' part) (hcount : ∀ kind, g'.count kind < 2 ^ 32) :
    g'.Fits := by
  refine ⟨hcount .node, hcount .buffer, hcount .region, ?_⟩
  cases a with
  | addRegion name span =>
    cases h
    exact hfits.levels
  | internBuffer name =>
    cases h with
    | findBuffer => exact hfits.levels
    | addBuffer => exact hfits.levels
  | addNode region name inputs outputs span =>
    cases h
    refine List.forall_mem_append.mpr ⟨hfits.levels, List.forall_mem_singleton.mpr ?_⟩
    exact fun l hl => absurd hl (Option.not_mem_none l)
  | assignLevel node level =>
    cases h
    intro n hn l hl
    obtain ⟨n₀, hn₀, rfl | rfl⟩ : ∃ n₀ ∈ g.nodes, n = n₀ ∨ n = n₀.assign level.toNat := by
      obtain ⟨i, hi⟩ := List.mem_iff_getElem?.mp hn
      rw [Graph.assignLevel, List.getElem?_modify, Option.map_eq_map, Option.map_eq_some_iff] at hi
      obtain ⟨n₀, hn₀, rfl⟩ := hi
      refine ⟨n₀, List.mem_of_getElem? hn₀, ?_⟩
      split
      · exact .inr rfl
      · exact .inl rfl
    · exact hfits.levels n hn₀ l hl
    · unfold Node.assign at hl
      split at hl
      · exact hfits.levels n₀ hn₀ l hl
      · cases hl
        exact level.toNat_lt
  | sweep s =>
    cases h
    cases s with
    | schedule options => exact (fits_settle hfits).levels
    | checkLegality options =>
      have hnodes : (g.sweep (.checkLegality options)).nodes = g.nodes := by
        rw [Graph.sweep, Graph.checkLegality]
        split <;> rfl
      exact hnodes ▸ hfits.levels

theorem count_step_le {a : Action Nat} {part : Option (Part Nat)} (h : g.Step a g' part)
    (kind : PartKind) : g'.count kind ≤ g.count kind + 1 := by
  rcases h.count_cases with ⟨hcount, -⟩ | ⟨p, -, -, hcount⟩
  · rw [hcount]
    exact Nat.le_succ _
  · rw [hcount kind]
    split <;> omega

/-- What an action adds is what it counts. -/
theorem count_step {a : Action Nat} {part : Option (Part Nat)} (h : g.Step a g' part)
    (kind : PartKind) : g'.count kind = g.count kind ∨ g'.count kind = g.reached a := by
  cases h with
  | addRegion name span => cases kind <;> simp [Graph.count, Graph.addRegion, Graph.reached]
  | findBuffer => exact .inl rfl
  | addBuffer hnone =>
    cases kind <;> simp [Graph.count, Graph.internBuffer, Graph.reached, hnone]
  | addNode => cases kind <;> simp [Graph.count, Graph.addNode, Graph.reached]
  | assignLevel level =>
    exact .inl (congrFun (Graph.count_eq_of_bare_eq (Graph.bare_assignLevel g _ level)) kind)
  | sweep s => exact .inl (congrFun (Graph.count_eq_of_bare_eq (Graph.bare_sweep g s)) kind)

theorem map_toNat_part {a : Action Nat} {part : Option (Part Nat)} (h : g.Step a g' part)
    (hcount : ∀ kind, g'.count kind < 2 ^ 32) :
    (part.map (·.map UInt32.ofNat)).map (·.map (·.toNat)) = part := by
  cases part with
  | none => rfl
  | some p =>
    have hid : p.id < 2 ^ 32 := by
      rcases h.count_cases with ⟨heq, hold⟩ | ⟨q, hq, hid, heq⟩
      · exact Nat.lt_trans (hold p rfl) (heq ▸ hcount p.kind)
      · cases hq
        have hlt := hcount p.kind
        rw [heq, if_pos rfl, ← hid] at hlt
        exact Nat.lt_of_succ_lt hlt
    simp only [Option.map_some, Part.map, UInt32.toNat_ofNat_of_lt' hid]

/-- The log with its numbers as places. -/
def places (log : Log UInt32) : Log Nat :=
  log.map fun e => (e.1.map (·.toNat), e.2.map (·.map (·.toNat)))

/-- An action that succeeds on the store of a graph. -/
theorem step_ofGraph {s' : Store} {a : Action UInt32} {part : Option (Part UInt32)}
    (hfits : g.Fits) (hg : g.Consistent) (hroom : o = .stops ∨ ∀ kind, g.count kind + 1 < 2 ^ 32)
    (h : (ofGraph g).perform o a = .ok (s', part)) :
    ∃ g', s' = ofGraph g' ∧ g'.Fits ∧
      g.perform? (a.map (·.toNat)) = .ok (g', part.map (·.map (·.toNat))) := by
  rw [perform_ofGraph hfits hg] at h
  obtain ⟨hreaches, h⟩ := Overflow.eq_ok_of_counted h
  cases hrun : g.perform? (a.map (·.toNat)) with
  | error f =>
    rw [hrun] at h
    cases h
  | ok r =>
    rw [hrun] at h
    cases h
    have hstep := Graph.step_of_perform? hrun
    have hcount : ∀ kind, r.1.count kind < 2 ^ 32 := by
      intro kind
      rcases hroom with rfl | hroom
      · rcases count_step hstep kind with heq | heq
        · exact heq ▸ hfits.count kind
        · exact heq ▸ hreaches.resolve_left Overflow.noConfusion
      · exact Nat.lt_of_le_of_lt (count_step_le hstep kind) (hroom kind)
    refine ⟨r.1, rfl, fits_step hfits hstep hcount, ?_⟩
    rw [map_toNat_part hstep hcount]

/-- A history of a store is one of a graph. -/
theorem exists_graph_of_performAll {actions : List (Action UInt32)} {s : Store}
    {log : Log UInt32} (hroom : o = .stops ∨ actions.length < 2 ^ 32)
    (h : performAll (perform o) empty actions = .ok (s, log)) :
    ∃ g, s = ofGraph g ∧ g.Fits ∧
      performAll Graph.perform? .empty (actions.map (·.map (·.toNat))) = .ok (g, places log) := by
  have hactions := map_fst_of_performAll h
  have hinv : (o = .stops ∨ log.length < 2 ^ 32) → ∃ g, s = ofGraph g ∧ g.Fits ∧
      (∀ kind, g.count kind ≤ log.length) ∧ performAll Graph.perform? .empty
        ((log.map (·.1)).map (·.map (·.toNat))) = .ok (g, places log) := by
    rw [← List.nil_append log]
    refine performAll_induction (P := fun s log => (o = .stops ∨ log.length < 2 ^ 32) →
      ∃ g, s = ofGraph g ∧ g.Fits ∧ (∀ kind, g.count kind ≤ log.length) ∧
        performAll Graph.perform? .empty ((log.map (·.1)).map (·.map (·.toNat))) =
          .ok (g, places log)) ?_ ?_ h
    · intro s log a s' part hearlier ha hroom
      rw [List.length_append, List.length_singleton] at hroom ⊢
      obtain ⟨g, rfl, hfits, hcount, hrun⟩ := hearlier (hroom.imp_right Nat.lt_of_succ_lt)
      obtain ⟨-, -, hg⟩ := Graph.consistent_of_performAll hrun
      have hroom : o = .stops ∨ ∀ kind, g.count kind + 1 < 2 ^ 32 :=
        hroom.imp_right fun hlt kind => Nat.lt_of_le_of_lt (Nat.succ_le_succ (hcount kind)) hlt
      obtain ⟨g', rfl, hfits', hperform⟩ := step_ofGraph hfits hg hroom ha
      refine ⟨g', rfl, hfits', ?_, ?_⟩
      · exact fun kind => Nat.le_trans (count_step_le (Graph.step_of_perform? hperform) kind)
          (Nat.succ_le_succ (hcount kind))
      · rw [List.map_append, List.map_append, places, List.map_append]
        exact performAll_snoc hrun hperform
    · refine fun _ => ⟨.empty, rfl, ⟨by decide, by decide, by decide, ?_⟩, fun kind => ?_, rfl⟩
      · exact fun n hn => absurd hn List.not_mem_nil
      · cases kind <;> exact Nat.le_refl 0
  rw [← hactions, List.length_map] at hroom
  obtain ⟨g, hs, hfits, -, hrun⟩ := hinv hroom
  exact ⟨g, hs, hfits, hactions ▸ hrun⟩

/-! ## Histories -/

/-- Every node is in one region, and only that one lists it. -/
theorem Consistent.existsUnique_region {s : Store} (h : s.Consistent) {n : StoredNode}
    (hn : n ∈ s.nodes) : ∃! r : StoredRegion, r ∈ s.regions ∧ n.id ∈ r.nodes := by
  have hlt := h.region n hn
  have hr := List.getElem?_eq_getElem hlt
  have hmem : s.regions[n.region.toNat] ∈ s.regions := List.getElem_mem hlt
  have hid : s.regions[n.region.toNat].id = n.region := UInt32.toNat_inj.mp (h.region_id _ _ hr)
  refine ⟨s.regions[n.region.toNat], ⟨hmem, ((h.nodes _ hmem).mem_iff n.id).mpr ?_⟩, ?_⟩
  · exact ⟨n, hn, rfl, hid.symm⟩
  · rintro r ⟨hregion, hlisted⟩
    obtain ⟨m, hm, hmn, hmr⟩ := ((h.nodes r hregion).mem_iff n.id).mp hlisted
    obtain ⟨i, hi⟩ := List.mem_iff_getElem?.mp hm
    obtain ⟨j, hj⟩ := List.mem_iff_getElem?.mp hn
    obtain ⟨k, hk⟩ := List.mem_iff_getElem?.mp hregion
    -- the number of a part is its place, so parts with one number are the same
    have hij : i = j := by rw [← h.node_id i m hi, ← h.node_id j n hj, hmn]
    have hsame : m = n := Option.some.inj (hi.symm.trans (hij ▸ hj))
    have hkr : k = n.region.toNat := by rw [← h.region_id k r hk, ← hmr, hsame]
    rw [hkr, hr] at hk
    exact (Option.some.inj hk).symm

theorem inRange_ofGraph (a : Action UInt32) :
    (ofGraph g).InRange a ↔ g.InRange (a.map (·.toNat)) := by
  cases a with
  | addNode region name inputs outputs span =>
    simp only [InRange, Graph.InRange, Action.map, ofGraph, List.length_mapIdx, ← List.map_append,
      List.forall_mem_map]
  | assignLevel node level =>
    simp only [InRange, Graph.InRange, Action.map, ofGraph, List.length_mapIdx]
  | addRegion | internBuffer | sweep => exact Iff.rfl

theorem reaches_of_hasRoom (a : Action UInt32) (h : (ofGraph g).HasRoom a) :
    o.Reaches (g.reached (a.map (·.toNat))) := by
  refine .inr ?_
  cases a with
  | addRegion name span =>
    simp only [HasRoom, ofGraph, List.length_mapIdx] at h
    exact h
  | internBuffer name =>
    have hle : (g.internBuffer name).1.buffers.length ≤ g.buffers.length + 1 := by
      rw [Graph.internBuffer]
      split
      · exact Nat.le_succ _
      · rw [List.length_append, List.length_singleton]
    simp only [HasRoom, ofGraph, List.length_mapIdx] at h
    exact Nat.lt_of_le_of_lt hle h
  | addNode region name inputs outputs span =>
    simp only [HasRoom, ofGraph, List.length_mapIdx] at h
    exact h
  | assignLevel node level => exact Nat.zero_lt_of_ne_zero (by decide)
  | sweep s =>
    simp only [HasRoom, ofGraph, List.length_mapIdx] at h
    cases s with
    | schedule options =>
      have hrounds : (g.schedule options).2.rounds ≤ g.nodes.length + 1 := by
        have hlength := Graph.length_blockedInRounds g options
        have hle := Graph.length_settle_le g options
        show (g.blockedInRounds options).length ≤ _
        omega
      exact Nat.lt_of_le_of_lt hrounds h
    | checkLegality options => exact Nat.zero_lt_of_ne_zero (by decide)

/-- Building, scheduling, checking and levelling in any order keep a store consistent. Parts
are where their numbers say, and stay as they were described; nothing else is there. Any
action whose numbers name something may come next while there are numbers left.

Where counters wrap, there must be less than `2 ^ 32` actions. -/
theorem consistent_of_history (o : Overflow) (actions : List (Action UInt32)) (s : Store)
    (log : Log UInt32) (hroom : o = .stops ∨ actions.length < 2 ^ 32)
    (h : performAll (perform o) empty actions = .ok (s, log)) :
    s.Consistent ∧ (∀ n ∈ s.nodes, ∃! r : StoredRegion, r ∈ s.regions ∧ n.id ∈ r.nodes) ∧
      log.map (·.1) = actions ∧ (∀ e ∈ places log, s.graph.Shows e.1 e.2) ∧
      s.graph.NumberedBy ((places log).filterMap (·.2)) ∧
      (∀ a, s.InRange a → s.HasRoom a → ∃ r, s.perform o a = .ok r) ∧
      ∀ a r, s.perform o a = .ok r → s.InRange a := by
  obtain ⟨g, rfl, hfits, hrun⟩ := exists_graph_of_performAll hroom h
  obtain ⟨hshows, hnumbered, hg⟩ := Graph.consistent_of_performAll hrun
  have hconsistent := consistent_ofGraph hfits hg
  refine ⟨hconsistent, fun n => hconsistent.existsUnique_region, map_fst_of_performAll h, ?_, ?_,
    fun a hrange hroom => ?_, fun a r hr => ?_⟩
  · rwa [graph_ofGraph hfits hg]
  · rwa [graph_ofGraph hfits hg]
  · obtain ⟨r, hr⟩ := Graph.exists_perform?_iff.mpr ((inRange_ofGraph a).mp hrange)
    rw [perform_ofGraph hfits hg, Overflow.counted_of_reaches (reaches_of_hasRoom a hroom), hr]
    exact ⟨_, rfl⟩
  · rw [perform_ofGraph hfits hg] at hr
    obtain ⟨-, hr⟩ := Overflow.eq_ok_of_counted hr
    rw [inRange_ofGraph, ← Graph.exists_perform?_iff]
    cases hperform : g.perform? (a.map (·.toNat)) with
    | error f =>
      rw [hperform] at hr
      cases hr
    | ok r => exact ⟨r, rfl⟩

/-- A history in which building, scheduling and checking take turns. The second node names
its input twice, and the buffer `x` is asked for twice. -/
def interleaved : List (Action UInt32) :=
  let here : Span := ⟨0, 0⟩
  [.internBuffer "x", .addRegion "r" here, .addNode 0 "a" [] [0] here,
    .sweep (.schedule ⟨false⟩), .internBuffer "y", .internBuffer "x",
    .addNode 0 "b" [0, 0] [1] here, .assignLevel 1 7, .addRegion "s" here,
    .sweep (.checkLegality ⟨false⟩), .addNode 1 "c" [1, 0] [] here, .sweep (.schedule ⟨true⟩)]

theorem interleaved_consistent :
    ∃ s log, performAll (perform .wraps) empty interleaved = .ok (s, log) ∧
      s.buffers = [⟨0, "x", [0], [1, 2]⟩, ⟨1, "y", [1], [2]⟩] ∧
      s.names = [("y", 1), ("x", 0)] ∧ s.ids = ⟨0, 0, 3, 2, 2⟩ ∧
      s.nodes.map (·.level) = [some 0, some 7, some 0] ∧ s.Consistent := by
  have hok : (performAll (perform .wraps) empty interleaved).toOption.map
      (fun r => (r.1.buffers, r.1.names, r.1.ids, r.1.nodes.map (·.level))) =
        some ([⟨0, "x", [0], [1, 2]⟩, ⟨1, "y", [1], [2]⟩], [("y", 1), ("x", 0)],
          ⟨0, 0, 3, 2, 2⟩, [some 0, some 7, some 0]) := by
    decide +kernel
  cases hrun : performAll (perform .wraps) empty interleaved with
  | error f =>
    rw [hrun] at hok
    cases hok
  | ok r =>
    rw [hrun] at hok
    simp only [Except.toOption, Option.map_some, Option.some.injEq, Prod.mk.injEq] at hok
    obtain ⟨hbuffers, hnames, hids, hlevels⟩ := hok
    obtain ⟨hs, -⟩ := consistent_of_history .wraps interleaved r.1 r.2 (.inr (by decide)) hrun
    exact ⟨r.1, r.2, rfl, hbuffers, hnames, hids, hlevels, hs⟩

end Store

end Bankflow.Dataflow
