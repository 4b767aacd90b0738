import Bankflow.Numbering
import Bankflow.Proofs.Dataflow.Certificate

/-!
# Histories of graphs

A graph holds the same facts in several places: nodes name their buffers and their
region, buffers list their users, regions list their nodes, and buffers are found by name.
A graph is `Consistent` if these agree.

The actions on a graph fall into two kinds. Those that build add a part at the end, or find
one that is there (`Step`). Those that schedule, check or level change levels and marks
only, so the graph stays the same once these are taken off (`bare_sweep`,
`bare_assignLevel`). Each step keeps a graph consistent (`Consistent.step`) and keeps what
earlier actions named in its place (`Step.partOf`, `Shows.mono`).

So every history of actions from the empty graph leads to a consistent graph, whose parts
are at the numbers that were given out for them (`consistent_of_performAll`).
-/

namespace Bankflow

/-- The next part of a kind gets the number of those before it. -/
theorem numbers_snoc (kinds : List PartKind) (kind : PartKind) :
    numbers (kinds ++ [kind]) = numbers kinds ++ [kinds.count kind] := by
  have hafter : ∀ earlier : List PartKind, numbersAfter earlier (kinds ++ [kind]) =
      numbersAfter earlier kinds ++ [earlier.count kind + kinds.count kind] := by
    induction kinds with
    | nil => exact fun _ => rfl
    | cons k kinds ih =>
      intro earlier
      rw [List.cons_append, numbersAfter, ih, numbersAfter, List.cons_append, List.count_cons,
        List.count_cons]
      congr 3
      omega
  rw [numbers, hafter, List.count_nil, Nat.zero_add]
  rfl

namespace Dataflow

/-! ## Actions -/

/-- A pass over a whole graph. -/
inductive Sweep where
  | schedule (options : Options)
  | checkLegality (options : Options)
  deriving DecidableEq, Repr

/-- What can be done to a graph. Parts are named by their numbers, of type `ι`. -/
inductive Action (ι : Type) where
  | addRegion (name : String) (span : Span)
  | internBuffer (name : String)
  | addNode (region : ι) (name : String) (inputs outputs : List ι) (span : Span)
  | assignLevel (node level : ι)
  | sweep (s : Sweep)
  deriving DecidableEq, Repr

/-- A part of a graph by its kind and number. -/
@[ext]
structure Part (ι : Type) where
  kind : PartKind
  id : ι
  deriving DecidableEq, Repr

/-- Actions with the parts that they give the numbers of. -/
abbrev Log (ι : Type) : Type := List (Action ι × Option (Part ι))

section Runs

variable {σ ι : Type} {perform : σ → Action ι → Except Fault (σ × Option (Part ι))}

/-- What some actions lead to, one after the other, and a log of them. -/
def performAll (perform : σ → Action ι → Except Fault (σ × Option (Part ι))) (s : σ) :
    List (Action ι) → Except Fault (σ × Log ι)
  | [] => .ok (s, [])
  | a :: rest =>
    match perform s a with
    | .error f => .error f
    | .ok (s', part) => (performAll perform s' rest).map fun r => (r.1, (a, part) :: r.2)

theorem performAll_cons_eq_ok {s s' : σ} {a : Action ι} {rest : List (Action ι)} {log : Log ι}
    (h : performAll perform s (a :: rest) = .ok (s', log)) :
    ∃ s₁ part log₁, perform s a = .ok (s₁, part) ∧ performAll perform s₁ rest = .ok (s', log₁) ∧
      log = (a, part) :: log₁ := by
  rw [performAll] at h
  split at h
  · cases h
  · next s₁ part ha =>
    cases hrest : performAll perform s₁ rest with
    | error f =>
      rw [hrest] at h
      cases h
    | ok r =>
      rw [hrest] at h
      cases h
      exact ⟨s₁, part, r.2, ha, hrest, rfl⟩

theorem map_fst_of_performAll {s' : σ} :
    ∀ {actions : List (Action ι)} {s : σ} {log : Log ι},
      performAll perform s actions = .ok (s', log) → log.map (·.1) = actions
  | [], s, log, h => by
    cases h
    rfl
  | a :: actions, s, log, h => by
    obtain ⟨s₁, part, log₁, -, hrest, rfl⟩ := performAll_cons_eq_ok h
    rw [List.map_cons, map_fst_of_performAll hrest]

theorem performAll_snoc {s s₁ s' : σ} {a : Action ι} {part : Option (Part ι)}
    {actions : List (Action ι)} {log : Log ι} (h : performAll perform s actions = .ok (s₁, log))
    (ha : perform s₁ a = .ok (s', part)) :
    performAll perform s (actions ++ [a]) = .ok (s', log ++ [(a, part)]) := by
  induction actions generalizing s log with
  | nil =>
    cases h
    simp only [List.nil_append, performAll, ha, Except.map]
  | cons b actions ih =>
    obtain ⟨s₂, part₂, log₂, hb, hrest, rfl⟩ := performAll_cons_eq_ok h
    simp only [List.cons_append, performAll, hb, ih hrest, Except.map]

/-- What holds at the start and is kept by every action holds after every history. -/
theorem performAll_induction {P : σ → Log ι → Prop}
    (hstep : ∀ {s log a s' part}, P s log → perform s a = .ok (s', part) →
      P s' (log ++ [(a, part)])) :
    ∀ {actions : List (Action ι)} {s s' : σ} {earlier log : Log ι},
      P s earlier → performAll perform s actions = .ok (s', log) → P s' (earlier ++ log)
  | [], s, s', earlier, log, hstart, h => by
    cases h
    rw [List.append_nil]
    exact hstart
  | a :: actions, s, s', earlier, log, hstart, h => by
    obtain ⟨s₁, part, log₁, ha, hrest, rfl⟩ := performAll_cons_eq_ok h
    have hlater := performAll_induction hstep (hstep hstart ha) hrest
    rwa [List.append_assoc] at hlater

end Runs

namespace Graph

/-- The numbers that an action uses name parts of the graph. -/
def InRange (g : Graph) : Action Nat → Prop
  | .addNode region _ inputs outputs _ =>
    region < g.regions.length ∧ ∀ b ∈ inputs ++ outputs, b < g.buffers.length
  | .assignLevel node _ => node < g.nodes.length
  | .addRegion .. | .internBuffer _ | .sweep _ => True

def sweep (g : Graph) : Sweep → Graph
  | .schedule options => (g.schedule options).1
  | .checkLegality options => (g.checkLegality options).1

/-- The graph after an action, and the part that the action gives the number of. Fails if
the action uses a number that names nothing. -/
def perform? (g : Graph) : Action Nat → Except Fault (Graph × Option (Part Nat))
  | .addRegion name span =>
    .ok ((g.addRegion name span).1, some ⟨.region, (g.addRegion name span).2⟩)
  | .internBuffer name =>
    .ok ((g.internBuffer name).1, some ⟨.buffer, (g.internBuffer name).2⟩)
  | .addNode region name inputs outputs span =>
    (g.addNode? region name inputs outputs span).map fun r => (r.1, some ⟨.node, r.2⟩)
  | .assignLevel node level => (g.assignLevel? node level).map fun g' => (g', none)
  | .sweep s => .ok (g.sweep s, none)

end Graph

/-! ## Levels and marks -/

/-- The node without its level. -/
def Node.bare (x : Node) : Node := { x with level := none }

/-- The region without its mark. -/
def Region.bare (r : Region) : Region := { r with legal := false }

namespace Graph

variable {g g' : Graph} {n r b : Nat}

/-- The graph without levels and marks. -/
def bare (g : Graph) : Graph :=
  { g with nodes := g.nodes.map Node.bare, regions := g.regions.map Region.bare }

theorem bare_assign (x : Node) (level : Nat) : (x.assign level).bare = x.bare := by
  unfold Node.assign
  split <;> rfl

theorem bare_assignLevel (g : Graph) (node level : Nat) :
    (g.assignLevel node level).bare = g.bare := by
  have hnodes : (g.nodes.modify node (·.assign level)).map Node.bare = g.nodes.map Node.bare := by
    refine List.ext_getElem? fun i => ?_
    rw [List.getElem?_map, List.getElem?_modify, List.getElem?_map]
    cases g.nodes[i]? with
    | none => rfl
    | some x =>
      by_cases hi : node = i
      · simp [hi, bare_assign]
      · simp [hi]
  simp only [bare, assignLevel, hnodes]

theorem bare_advance (g : Graph) (options : Options) : (g.advance options).bare = g.bare := by
  have hnode : ∀ x : Node, (g.advanceNode options x).bare = x.bare := by
    intro x
    unfold advanceNode
    split
    · exact bare_assign x _
    · rfl
  simp only [bare, advance, List.map_map, Function.comp_def, hnode]

/-- Scheduling and checking leave a graph as it is, but for levels and marks. -/
theorem bare_sweep (g : Graph) (s : Sweep) : (g.sweep s).bare = g.bare := by
  cases s with
  | schedule options =>
    exact settle_induction (P := fun g' => g'.bare = g.bare)
      (fun g' h => (bare_advance g' options).trans h) rfl
  | checkLegality options =>
    show (g.checkLegality options).1.bare = g.bare
    unfold checkLegality
    split
    · rfl
    · simp only [bare, List.map_map]
      rfl

/-! ## Consistent graphs -/

/-- Node `n` is in region `r`. -/
def BelongsTo (g : Graph) (n r : Nat) : Prop := ∃ x, g.nodes[n]? = some x ∧ x.region = r

/-- Nodes name regions, and every region lists its nodes. -/
structure RegionsListed (g : Graph) : Prop where
  listed : ∀ r region, g.regions[r]? = some region →
    Enumerates region.nodes fun n => g.BelongsTo n r
  lt : ∀ n r, g.BelongsTo n r → r < g.regions.length

/-- Buffers and regions list what the nodes say, and buffers have names of their own. -/
structure Consistent (g : Graph) : Prop extends g.Mirrors where
  regions : g.RegionsListed
  names : (g.buffers.map (·.name)).Nodup

theorem belongsTo_iff_hasPort : g.BelongsTo n r ↔ g.HasPort (fun x => [x.region]) n r := by
  simp only [BelongsTo, HasPort, List.mem_singleton, eq_comm]

theorem BelongsTo.lt (h : g.BelongsTo n r) : n < g.nodes.length :=
  (belongsTo_iff_hasPort.mp h).lt

/-- Every node is in one region, and only that one lists it. -/
theorem Consistent.existsUnique_region (h : g.Consistent) (hn : n < g.nodes.length) :
    ∃! r : Nat, ∃ region, g.regions[r]? = some region ∧ n ∈ region.nodes := by
  have hx : g.nodes[n]? = some g.nodes[n] := List.getElem?_eq_getElem hn
  have hin : g.BelongsTo n g.nodes[n].region := ⟨_, hx, rfl⟩
  have hr := h.regions.lt _ _ hin
  refine ⟨g.nodes[n].region, ⟨_, List.getElem?_eq_getElem hr, ?_⟩, ?_⟩
  · exact ((h.regions.listed _ _ (List.getElem?_eq_getElem hr)).mem_iff n).mpr hin
  · rintro r ⟨region, hregion, hmem⟩
    obtain ⟨x, hx', hxr⟩ := ((h.regions.listed r region hregion).mem_iff n).mp hmem
    rw [hx, Option.some.injEq] at hx'
    rw [hx', hxr]

/-- A name finds the buffer of that name. -/
theorem Consistent.bufferNamed?_eq_some_iff (h : g.Consistent) {name : String} :
    g.bufferNamed? name = some b ↔ (g.buffers[b]?).map (·.name) = some name :=
  findIdx?_key_eq_some_iff h.names

/-! ### Levels and marks do not matter -/

theorem hasPort_bare {ports : Node → List Nat} (hp : ∀ x : Node, ports x.bare = ports x) :
    g.bare.HasPort ports n b ↔ g.HasPort ports n b := by
  simp only [HasPort, bare, List.getElem?_map, Option.map_eq_some_iff]
  constructor
  · rintro ⟨_, ⟨x, hx, rfl⟩, hb⟩
    exact ⟨x, hx, hp x ▸ hb⟩
  · rintro ⟨x, hx, hb⟩
    exact ⟨_, ⟨x, hx, rfl⟩, (hp x).symm ▸ hb⟩

theorem portsListed_bare {ports : Node → List Nat} {users : Buffer → List Nat}
    (hp : ∀ x : Node, ports x.bare = ports x) :
    g.bare.PortsListed ports users ↔ g.PortsListed ports users := by
  constructor
  · intro h
    exact ⟨fun b buffer hb => (h.listed b buffer hb).congr fun _ => hasPort_bare hp,
      fun n b hb => h.lt n b ((hasPort_bare hp).mpr hb)⟩
  · intro h
    exact ⟨fun b buffer hb => (h.listed b buffer hb).congr fun _ => (hasPort_bare hp).symm,
      fun n b hb => h.lt n b ((hasPort_bare hp).mp hb)⟩

theorem belongsTo_bare : g.bare.BelongsTo n r ↔ g.BelongsTo n r := by
  rw [belongsTo_iff_hasPort, belongsTo_iff_hasPort, hasPort_bare fun _ => rfl]

theorem regionsListed_bare : g.bare.RegionsListed ↔ g.RegionsListed := by
  have hlength : g.bare.regions.length = g.regions.length := List.length_map _
  constructor
  · intro h
    refine ⟨fun r region hr => ?_, fun n r hn => hlength ▸ h.lt n r (belongsTo_bare.mpr hn)⟩
    have hbare : g.bare.regions[r]? = some region.bare := by
      rw [bare, List.getElem?_map, hr, Option.map_some]
    exact (h.listed r _ hbare).congr fun _ => belongsTo_bare
  · intro h
    refine ⟨fun r region hr => ?_, fun n r hn => hlength ▸ h.lt n r (belongsTo_bare.mp hn)⟩
    obtain ⟨region₀, hr₀, rfl⟩ := Option.map_eq_some_iff.mp (List.getElem?_map.symm.trans hr)
    exact (h.listed r region₀ hr₀).congr fun _ => belongsTo_bare.symm

theorem consistent_bare : g.bare.Consistent ↔ g.Consistent := by
  constructor
  · rintro ⟨⟨hin, hout⟩, hregions, hnames⟩
    exact ⟨⟨(portsListed_bare fun _ => rfl).mp hin, (portsListed_bare fun _ => rfl).mp hout⟩,
      regionsListed_bare.mp hregions, hnames⟩
  · rintro ⟨⟨hin, hout⟩, hregions, hnames⟩
    exact ⟨⟨(portsListed_bare fun _ => rfl).mpr hin, (portsListed_bare fun _ => rfl).mpr hout⟩,
      regionsListed_bare.mpr hregions, hnames⟩

theorem Consistent.of_bare_eq (h : g.Consistent) (hbare : g'.bare = g.bare) : g'.Consistent :=
  consistent_bare.mp (hbare ▸ consistent_bare.mpr h)

/-! ### Building -/

/-- No node is in a region that is not there yet. -/
theorem RegionsListed.addRegion (h : g.RegionsListed) (name : String) (span : Span) :
    (g.addRegion name span).1.RegionsListed := by
  refine ⟨fun r region hr => ?_, fun n r hn => ?_⟩
  · rcases getElem?_snoc_eq_some_iff.mp hr with hr | ⟨rfl, rfl⟩
    · exact h.listed r region hr
    · exact ⟨List.Pairwise.nil, fun n =>
        iff_of_false List.not_mem_nil fun hn => Nat.lt_irrefl _ (h.lt n _ hn)⟩
  · rw [Graph.addRegion, List.length_append]
    exact Nat.lt_add_right _ (h.lt n r hn)

/-- The region of the new node gets it as its last one. -/
theorem RegionsListed.addNode {region : Nat} {name : String} {inputs outputs : List Nat}
    {span : Span} (h : g.RegionsListed) (hregion : region < g.regions.length) :
    (g.addNode region name inputs outputs span).1.RegionsListed := by
  have hin : ∀ n r, (g.addNode region name inputs outputs span).1.BelongsTo n r ↔
      g.BelongsTo n r ∨ n = g.nodes.length ∧ r = region := by
    intro n r
    rw [belongsTo_iff_hasPort, hasPort_addNode, ← belongsTo_iff_hasPort, List.mem_singleton]
  refine ⟨fun r listing hr => ?_, fun n r hn => ?_⟩
  · rw [Graph.addNode, List.getElem?_modify, Option.map_eq_map, Option.map_eq_some_iff] at hr
    obtain ⟨old, hold, rfl⟩ := hr
    have hlisted := h.listed r old hold
    split
    · next heq =>
      refine (hlisted.snoc fun n => BelongsTo.lt).congr fun n => ?_
      rw [hin, and_iff_left heq.symm]
    · next hne =>
      refine hlisted.congr fun n => ?_
      rw [hin, or_iff_left fun hn => hne hn.2.symm]
  · show r < (g.regions.modify region _).length
    rw [List.length_modify]
    exact ((hin n r).mp hn).elim (h.lt n r) fun hn => hn.2 ▸ hregion

theorem nodup_names_addBuffer {name : String} (h : (g.buffers.map (·.name)).Nodup)
    (hnone : g.bufferNamed? name = none) :
    (List.map Buffer.name (g.buffers ++ [⟨name, [], []⟩])).Nodup := by
  rw [List.map_append, List.map_singleton, List.nodup_append]
  refine ⟨h, List.nodup_singleton _, fun x hx y hy => ?_⟩
  obtain ⟨buffer, hbuffer, rfl⟩ := List.mem_map.mp hx
  rw [List.mem_singleton.mp hy]
  exact of_decide_eq_false (List.findIdx?_eq_none_iff.mp hnone buffer hbuffer)

theorem consistent_empty : empty.Consistent := by
  refine ⟨Built.empty.mirrors, ⟨fun r region hr => ?_, fun n r hn => ?_⟩, List.nodup_nil⟩
  · cases hr
  · exact absurd hn.lt (Nat.not_lt_zero n)

/-! ## One action -/

/-- What an action does: it adds a part at the end, finds a buffer that is there, or
changes nothing but levels and marks. -/
inductive Step (g : Graph) : Action Nat → Graph → Option (Part Nat) → Prop where
  | addRegion (name : String) (span : Span) :
    Step g (.addRegion name span) (g.addRegion name span).1 (some ⟨.region, g.regions.length⟩)
  | findBuffer {name : String} {b : Nat} (h : g.bufferNamed? name = some b) :
    Step g (.internBuffer name) g (some ⟨.buffer, b⟩)
  | addBuffer {name : String} (h : g.bufferNamed? name = none) :
    Step g (.internBuffer name) { g with buffers := g.buffers ++ [⟨name, [], []⟩] }
      (some ⟨.buffer, g.buffers.length⟩)
  | addNode {region : Nat} {name : String} {inputs outputs : List Nat} {span : Span}
    (hi : ∀ b ∈ inputs, b < g.buffers.length) (ho : ∀ b ∈ outputs, b < g.buffers.length)
    (hr : region < g.regions.length) :
    Step g (.addNode region name inputs outputs span)
      (g.addNode region name inputs outputs span).1 (some ⟨.node, g.nodes.length⟩)
  | assignLevel {node : Nat} (level : Nat) (hn : node < g.nodes.length) :
    Step g (.assignLevel node level) (g.assignLevel node level) none
  | sweep (s : Sweep) : Step g (.sweep s) (g.sweep s) none

variable {a : Action Nat} {part : Option (Part Nat)}

theorem step_of_perform? (h : g.perform? a = .ok (g', part)) : Step g a g' part := by
  cases a with
  | addRegion name span =>
    cases h
    exact .addRegion name span
  | internBuffer name =>
    cases h
    unfold internBuffer
    split
    · next b hb => exact .findBuffer hb
    · next hnone => exact .addBuffer hnone
  | addNode region name inputs outputs span =>
    cases hadd : g.addNode? region name inputs outputs span with
    | error f =>
      rw [perform?, hadd] at h
      cases h
    | ok r =>
      obtain ⟨hi, ho, hr, rfl⟩ := addNode?_eq_ok_iff.mp hadd
      rw [perform?, hadd] at h
      cases h
      exact .addNode hi ho hr
  | assignLevel node level =>
    by_cases hn : node < g.nodes.length
    · rw [perform?, assignLevel?, checkNode, if_pos hn] at h
      cases h
      exact .assignLevel level hn
    · rw [perform?, assignLevel?, checkNode, if_neg hn] at h
      cases h
  | sweep s =>
    cases h
    exact .sweep s

/-- An action succeeds exactly if its numbers name something. -/
theorem exists_perform?_iff : (∃ r, g.perform? a = .ok r) ↔ g.InRange a := by
  constructor
  · rintro ⟨⟨g', part⟩, h⟩
    cases step_of_perform? h with
    | addNode hi ho hr => exact ⟨hr, List.forall_mem_append.mpr ⟨hi, ho⟩⟩
    | assignLevel level hn => exact hn
    | addRegion | findBuffer | addBuffer | sweep => trivial
  · intro h
    cases a with
    | addRegion name span => exact ⟨_, rfl⟩
    | internBuffer name => exact ⟨_, rfl⟩
    | sweep s => exact ⟨_, rfl⟩
    | assignLevel node level =>
      have hn : node < g.nodes.length := h
      rw [perform?, assignLevel?, checkNode, if_pos hn]
      exact ⟨_, rfl⟩
    | addNode region name inputs outputs span =>
      obtain ⟨hi, ho⟩ := List.forall_mem_append.mp h.2
      rw [perform?, addNode?_eq_ok_iff.mpr ⟨hi, ho, h.1, rfl⟩]
      exact ⟨_, rfl⟩

/-- Every action keeps a graph consistent. -/
theorem Consistent.step (hg : g.Consistent) (h : Step g a g' part) : g'.Consistent := by
  cases h with
  | addRegion name span =>
    exact ⟨⟨⟨hg.inputs.listed, hg.inputs.lt⟩, ⟨hg.outputs.listed, hg.outputs.lt⟩⟩,
      hg.regions.addRegion name span, hg.names⟩
  | findBuffer => exact hg
  | addBuffer hnone =>
    exact ⟨⟨hg.inputs.addBuffer rfl, hg.outputs.addBuffer rfl⟩,
      ⟨hg.regions.listed, hg.regions.lt⟩, nodup_names_addBuffer hg.names hnone⟩
  | addNode hi ho hr =>
    refine ⟨hg.toMirrors.addNode hi ho, hg.regions.addNode hr, ?_⟩
    rw [map_name_addNode]
    exact hg.names
  | assignLevel level hn => exact hg.of_bare_eq (bare_assignLevel g _ level)
  | sweep s => exact hg.of_bare_eq (bare_sweep g s)

theorem Built.consistent (h : g.Built) : g.Consistent := by
  induction h with
  | empty => exact consistent_empty
  | addRegion _ name span ih => exact ih.step (.addRegion name span)
  | internBuffer _ name ih => exact ih.step (step_of_perform? (a := .internBuffer name) rfl)
  | @addNode g g' region id name inputs outputs span _ ok ih =>
    obtain ⟨hi, ho, hr, heq⟩ := addNode?_eq_ok_iff.mp ok
    have hfst : (g.addNode region name inputs outputs span).1 = g' := congrArg Prod.fst heq
    exact hfst ▸ ih.step (.addNode hi ho hr)

/-! ### Parts stay where they are -/

/-- The part that an action gave the number of is at that number, as the action describes
it. -/
inductive Shows (g : Graph) : Action Nat → Option (Part Nat) → Prop where
  | region {id : Nat} {r : Region} (h : g.regions[id]? = some r) :
    Shows g (.addRegion r.name r.span) (some ⟨.region, id⟩)
  | buffer {id : Nat} {b : Buffer} (h : g.buffers[id]? = some b) :
    Shows g (.internBuffer b.name) (some ⟨.buffer, id⟩)
  | node {id : Nat} {x : Node} (h : g.nodes[id]? = some x) :
    Shows g (.addNode x.region x.name x.inputs x.outputs x.span) (some ⟨.node, id⟩)
  | assignLevel (node level : Nat) : Shows g (.assignLevel node level) none
  | sweep (s : Sweep) : Shows g (.sweep s) none

/-- Graph `g'` has all parts of `g` at their numbers, and perhaps more. -/
structure PartOf (g g' : Graph) : Prop where
  nodes : g.nodes.map Node.bare <+: g'.nodes.map Node.bare
  buffers : g.buffers.map (·.name) <+: g'.buffers.map (·.name)
  regions : g.regions.map (fun r => (r.name, r.span)) <+: g'.regions.map fun r => (r.name, r.span)

theorem PartOf.of_bare_eq (h : g'.bare = g.bare) : g.PartOf g' := by
  have hnodes : g'.nodes.map Node.bare = g.nodes.map Node.bare := congrArg Graph.nodes h
  have hbuffers : g'.bare.buffers = g.bare.buffers := congrArg Graph.buffers h
  have hregions := congrArg (fun g : Graph => g.regions.map fun r => (r.name, r.span)) h
  simp only [bare, List.map_map] at hregions
  refine ⟨hnodes ▸ List.prefix_rfl, ?_, hregions ▸ List.prefix_rfl⟩
  exact congrArg (List.map Buffer.name) hbuffers ▸ List.prefix_rfl

theorem Step.partOf (h : Step g a g' part) : g.PartOf g' := by
  cases h with
  | addRegion name span =>
    exact ⟨List.prefix_rfl, List.prefix_rfl, (List.prefix_append _ _).map _⟩
  | findBuffer => exact .of_bare_eq rfl
  | addBuffer => exact ⟨List.prefix_rfl, (List.prefix_append _ _).map _, List.prefix_rfl⟩
  | @addNode region name inputs outputs span hi ho hr =>
    have hregions : (g.addNode region name inputs outputs span).1.regions.map
        (fun r => (r.name, r.span)) = g.regions.map fun r => (r.name, r.span) := by
      refine List.ext_getElem? fun i => ?_
      rw [Graph.addNode, List.getElem?_map, List.getElem?_modify, List.getElem?_map]
      cases g.regions[i]? with
      | none => rfl
      | some r => by_cases hi : region = i <;> simp [hi]
    exact ⟨(List.prefix_append _ _).map _, map_name_addNode ▸ List.prefix_rfl,
      hregions ▸ List.prefix_rfl⟩
  | assignLevel level hn => exact .of_bare_eq (bare_assignLevel g _ level)
  | sweep s => exact .of_bare_eq (bare_sweep g s)

/-- An element of a list, as `f` sees it, is in all lists that extend the list as `f` sees
it. -/
theorem exists_getElem?_of_prefix {α β : Type} {f : α → β} {l l' : List α} {i : Nat} {x : α}
    (h : l.map f <+: l'.map f) (hx : l[i]? = some x) : ∃ y, l'[i]? = some y ∧ f y = f x := by
  have hi : i < (l.map f).length := by
    rw [List.length_map]
    exact (List.getElem?_eq_some_iff.mp hx).1
  have hmap := List.prefix_iff_getElem?.mp h i hi
  rw [List.getElem?_map, Option.map_eq_some_iff, List.getElem_map] at hmap
  obtain ⟨y, hy, hyx⟩ := hmap
  rw [(List.getElem?_eq_some_iff.mp hx).2] at hyx
  exact ⟨y, hy, hyx⟩

theorem Shows.mono (h : g.Shows a part) (hg : g.PartOf g') : g'.Shows a part := by
  cases h with
  | @region id r h =>
    obtain ⟨r', hr', hlabel⟩ := exists_getElem?_of_prefix hg.regions h
    obtain ⟨hname, hspan⟩ := Prod.mk.inj hlabel
    rw [← hname, ← hspan]
    exact .region hr'
  | @buffer id b h =>
    obtain ⟨b', hb', hname⟩ := exists_getElem?_of_prefix hg.buffers h
    rw [← hname]
    exact .buffer hb'
  | @node id x h =>
    obtain ⟨y, hy, hbare⟩ := exists_getElem?_of_prefix hg.nodes h
    simp only [Node.bare, Node.mk.injEq, and_true] at hbare
    obtain ⟨hname, hregion, hinputs, houtputs, hspan⟩ := hbare
    rw [← hname, ← hregion, ← hinputs, ← houtputs, ← hspan]
    exact .node hy
  | assignLevel node level => exact .assignLevel node level
  | sweep s => exact .sweep s

theorem Step.shows (h : Step g a g' part) : g'.Shows a part := by
  cases h with
  | addRegion name span =>
    exact .region (r := ⟨name, [], false, span⟩) List.getElem?_concat_length
  | findBuffer hb =>
    obtain ⟨hlt, hname, -⟩ := List.findIdx?_eq_some_iff_getElem.mp hb
    rw [← of_decide_eq_true hname]
    exact .buffer (List.getElem?_eq_getElem hlt)
  | @addBuffer name => exact .buffer (b := ⟨name, [], []⟩) List.getElem?_concat_length
  | @addNode region name inputs outputs span =>
    exact .node (x := ⟨name, region, inputs, outputs, span, none⟩) List.getElem?_concat_length
  | assignLevel level hn => exact .assignLevel _ level
  | sweep s => exact .sweep s

/-! ### Numbers -/

/-- How many parts of a kind a graph has. -/
def count (g : Graph) : PartKind → Nat
  | .node => g.nodes.length
  | .buffer => g.buffers.length
  | .region => g.regions.length
  | .array | .loop => 0

/-- These are the parts of a graph, and each got the next number of its kind when it came
into being. A part may appear again later. -/
structure NumberedBy (g : Graph) (parts : List (Part Nat)) : Prop where
  mem_iff : ∀ p, p ∈ parts ↔ p.id < g.count p.kind
  numbers_eq : parts.eraseDups.map (·.id) = numbers (parts.eraseDups.map (·.kind))
  count_eq : ∀ kind, (parts.eraseDups.map (·.kind)).count kind = g.count kind

theorem count_eq_of_bare_eq (h : g'.bare = g.bare) : g'.count = g.count := by
  have hnodes := congrArg (fun g : Graph => g.nodes.length) h
  have hbuffers := congrArg (fun g : Graph => g.buffers.length) h
  have hregions := congrArg (fun g : Graph => g.regions.length) h
  simp only [bare, List.length_map] at hnodes hbuffers hregions
  funext kind
  cases kind <;> simp only [count, hnodes, hbuffers, hregions]

/-- An action that gives a number either gives that of a part that is there, or adds a part
with the next number of its kind. -/
theorem Step.count_cases (h : Step g a g' part) :
    (g'.count = g.count ∧ ∀ p ∈ part, p.id < g.count p.kind) ∨
      ∃ p, part = some p ∧ p.id = g.count p.kind ∧
        ∀ kind, g'.count kind = g.count kind + if p.kind = kind then 1 else 0 := by
  cases h with
  | addRegion name span =>
    refine .inr ⟨_, rfl, rfl, fun kind => ?_⟩
    cases kind <;> simp [count, Graph.addRegion]
  | findBuffer hb =>
    refine .inl ⟨rfl, fun p hp => ?_⟩
    cases hp
    exact (List.findIdx?_eq_some_iff_getElem.mp hb).1
  | addBuffer =>
    refine .inr ⟨_, rfl, rfl, fun kind => ?_⟩
    cases kind <;> simp [count]
  | addNode =>
    refine .inr ⟨_, rfl, rfl, fun kind => ?_⟩
    cases kind <;> simp [count, Graph.addNode]
  | assignLevel level hn =>
    refine .inl ⟨count_eq_of_bare_eq (bare_assignLevel g _ level), fun p hp => ?_⟩
    cases hp
  | sweep s =>
    refine .inl ⟨count_eq_of_bare_eq (bare_sweep g s), fun p hp => ?_⟩
    cases hp

section EraseDups

variable {α : Type} [BEq α] [LawfulBEq α] {l : List α} {x : α}

theorem eraseDups_snoc_of_mem (h : x ∈ l) : (l ++ [x]).eraseDups = l.eraseDups := by
  simp [List.eraseDups_append, List.removeAll, h]

theorem eraseDups_snoc_of_not_mem (h : x ∉ l) : (l ++ [x]).eraseDups = l.eraseDups ++ [x] := by
  simp [List.eraseDups_append, List.removeAll, List.eraseDups_cons, h]

end EraseDups

/-- Every action keeps the numbers in order. -/
theorem NumberedBy.step {parts : List (Part Nat)} (hg : g.NumberedBy parts) (h : Step g a g' part) :
    g'.NumberedBy (parts ++ part.toList) := by
  rcases h.count_cases with ⟨hcount, hold⟩ | ⟨p, rfl, hid, hcount⟩
  · have hmem : ∀ p ∈ part, p ∈ parts := fun p hp => (hg.mem_iff p).mpr (hold p hp)
    have hdups : (parts ++ part.toList).eraseDups = parts.eraseDups := by
      cases part with
      | none => rw [Option.toList_none, List.append_nil]
      | some p => exact eraseDups_snoc_of_mem (hmem p rfl)
    refine ⟨fun p => ?_, hdups ▸ hg.numbers_eq, fun kind => ?_⟩
    · rw [hcount, ← hg.mem_iff, List.mem_append, Option.mem_toList]
      exact or_iff_left_of_imp (hmem p)
    · rw [hdups, hcount, hg.count_eq]
  · have hnew : p ∉ parts := fun hp => by
      have := (hg.mem_iff p).mp hp
      omega
    have hdups : (parts ++ (some p).toList).eraseDups = parts.eraseDups ++ [p] :=
      eraseDups_snoc_of_not_mem hnew
    refine ⟨fun q => ?_, ?_, fun kind => ?_⟩
    · rw [hcount, List.mem_append, hg.mem_iff, Option.toList_some, List.mem_singleton, Part.ext_iff]
      split
      · next hkind =>
        rw [and_iff_right hkind.symm, hid, hkind]
        omega
      · next hkind => rw [or_iff_left fun hq => hkind hq.1.symm, Nat.add_zero]
    · rw [hdups, List.map_append, List.map_append, List.map_singleton, List.map_singleton,
        numbers_snoc, hg.numbers_eq, hg.count_eq, hid]
    · rw [hdups, List.map_append, List.map_singleton, List.count_append, hg.count_eq, hcount,
        List.count_singleton]
      simp only [beq_iff_eq]

/-! ## Histories -/

/-- Actions in any order lead from the empty graph to a consistent one. Every part is at the
number that was given out for it, as it was described, and numbers are given out one after
the other for each kind. -/
theorem consistent_of_performAll {actions : List (Action Nat)} {log : Log Nat}
    (h : performAll perform? empty actions = .ok (g, log)) :
    (∀ e ∈ log, g.Shows e.1 e.2) ∧ g.NumberedBy (log.filterMap (·.2)) ∧ g.Consistent := by
  rw [← List.nil_append log]
  refine performAll_induction (P := fun g log => (∀ e ∈ log, g.Shows e.1 e.2) ∧
    g.NumberedBy (log.filterMap (·.2)) ∧ g.Consistent) ?_ ?_ h
  · rintro g log a g' part ⟨hshows, hnumbered, hg⟩ ha
    have hstep := step_of_perform? ha
    refine ⟨?_, ?_, hg.step hstep⟩
    · refine List.forall_mem_append.mpr ⟨fun e he => (hshows e he).mono hstep.partOf, ?_⟩
      exact List.forall_mem_singleton.mpr hstep.shows
    · have hparts : (log ++ [(a, part)]).filterMap (·.2) =
          log.filterMap (·.2) ++ part.toList := by
        cases part <;> simp
      exact hparts ▸ hnumbered.step hstep
  · refine ⟨List.forall_mem_nil _, ⟨fun p => ?_, rfl, fun kind => ?_⟩, consistent_empty⟩
    · cases p with
      | mk kind id => cases kind <;> simp [count, empty]
    · cases kind <;> rfl

end Graph

end Dataflow

end Bankflow
