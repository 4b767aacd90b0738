import Bankflow.Dataflow.Schedule

/-!
# Graphs and the ports of their nodes

What a graph means is fixed by the ports of its nodes: a node `Reads` and `Writes`
buffers, it `Feeds` the nodes that read what it writes, and it is `Blocked` if it writes
a buffer that several nodes write or several read.

Graphs that are `Built` from the empty one mirror the ports in their buffers
(`Built.mirrors`): each buffer lists its producers and consumers, once and ascending.
So the successors and the blocked nodes that scheduling looks up are those of the ports
(`Mirrors.mem_successors`, `Mirrors.isBlocked_iff`).
-/

namespace Bankflow

/-- If no two elements have the same key, a key finds exactly the element that has it. -/
theorem findIdx?_key_eq_some_iff {α : Type} {key : α → String} {l : List α}
    (h : (l.map key).Nodup) {name : String} {i : Nat} :
    l.findIdx? (key · = name) = some i ↔ (l[i]?).map key = some name := by
  rw [List.findIdx?_eq_some_iff_getElem, Option.map_eq_some_iff]
  constructor
  · rintro ⟨hi, hname, -⟩
    exact ⟨_, List.getElem?_eq_getElem hi, of_decide_eq_true hname⟩
  · rintro ⟨a, ha, rfl⟩
    obtain ⟨hi, rfl⟩ := List.getElem?_eq_some_iff.mp ha
    refine ⟨hi, decide_eq_true rfl, fun j hj hname => ?_⟩
    have hj' : j < (l.map key).length := by
      rw [List.length_map]
      omega
    have hsame : (l.map key)[j]? = (l.map key)[i]? := by
      rw [List.getElem?_map, List.getElem?_map, ha, List.getElem?_eq_getElem (by omega)]
      exact congrArg some (of_decide_eq_true hname)
    have := (List.getElem?_inj hj' h).mp hsame
    omega

namespace Dataflow

/-- A list of exactly the numbers with property `P`, ascending. -/
structure Enumerates (ids : List Nat) (P : Nat → Prop) : Prop where
  ascending : ids.Pairwise (· < ·)
  mem_iff : ∀ n, n ∈ ids ↔ P n

namespace Enumerates

variable {ids : List Nat} {P Q : Nat → Prop}

theorem congr (h : Enumerates ids P) (hPQ : ∀ n, P n ↔ Q n) : Enumerates ids Q :=
  ⟨h.ascending, fun n => (h.mem_iff n).trans (hPQ n)⟩

/-- A number above all others comes last. -/
theorem snoc {id : Nat} (h : Enumerates ids P) (hid : ∀ n, P n → n < id) :
    Enumerates (ids ++ [id]) fun n => P n ∨ n = id := by
  refine ⟨List.pairwise_append.mpr ⟨h.ascending, List.pairwise_singleton _ _, ?_⟩, fun n => ?_⟩
  · intro m hm n hn
    rw [List.mem_singleton.mp hn]
    exact hid m ((h.mem_iff m).mp hm)
  · rw [List.mem_append, List.mem_singleton, h.mem_iff]

theorem one_lt_length_iff (h : Enumerates ids P) :
    1 < ids.length ↔ ∃ m n, m ≠ n ∧ P m ∧ P n := by
  constructor
  · intro hlen
    match ids, h, hlen with
    | m :: n :: _, h, _ =>
      have hlt : m < n := (List.pairwise_cons.mp h.ascending).1 n List.mem_cons_self
      exact ⟨m, n, Nat.ne_of_lt hlt, (h.mem_iff m).mp (by simp), (h.mem_iff n).mp (by simp)⟩
  · rintro ⟨m, n, hne, hm, hn⟩
    have hm' := (h.mem_iff m).mpr hm
    have hn' := (h.mem_iff n).mpr hn
    match ids, hm', hn' with
    | [k], hm', hn' =>
      rw [List.mem_singleton] at hm' hn'
      exact absurd (hm'.trans hn'.symm) hne
    | _ :: _ :: _, _, _ =>
      rw [List.length_cons, List.length_cons]
      omega

section Places

variable {α β : Type} {xs : List α} {ys : List β} {p : α → Bool} {q : β → Bool}

/-- The places of the elements with a property. -/
theorem places (xs : List α) (p : α → Bool) :
    Enumerates ((List.range xs.length).filter fun i => xs[i]?.any p)
      fun i => ∃ x, xs[i]? = some x ∧ p x = true := by
  refine ⟨List.pairwise_lt_range.filter _, fun i => ?_⟩
  rw [List.mem_filter, List.mem_range, Option.any_eq_true]
  exact ⟨fun hi => hi.2, fun ⟨x, hx, hp⟩ => ⟨(List.getElem?_eq_some_iff.mp hx).1, x, hx, hp⟩⟩

/-- There are as many places of elements with a property as there are such elements. -/
theorem length_eq_countP (h : Enumerates ids fun i => ∃ x, xs[i]? = some x ∧ p x = true) :
    ids.length = xs.countP p := by
  have hxs : (List.range xs.length).map (xs[·]?) = xs.map some := by
    refine List.ext_getElem ?_ fun i hi hi' => ?_
    · rw [List.length_map, List.length_map, List.length_range]
    · rw [List.getElem_map, List.getElem_map, List.getElem_range, List.getElem?_eq_getElem]
  have hperm : ids.Perm ((List.range xs.length).filter fun i => xs[i]?.any p) := by
    refine (List.perm_ext_iff_of_nodup (h.ascending.imp Nat.ne_of_lt)
      (List.nodup_range.filter _)).mpr fun i => ?_
    rw [h.mem_iff, (places xs p).mem_iff]
  calc ids.length = ((List.range xs.length).filter fun i => xs[i]?.any p).length := hperm.length_eq
    _ = ((List.range xs.length).map (xs[·]?)).countP (Option.any p) := by
      rw [List.countP_map, List.countP_eq_length_filter]
      rfl
    _ = xs.countP p := by
      rw [hxs, List.countP_map]
      rfl

/-- Counting goes by places. -/
theorem countP_eq_of_places (h : ∀ i : Nat, (∃ x, xs[i]? = some x ∧ p x = true) ↔
    ∃ y, ys[i]? = some y ∧ q y = true) : xs.countP p = ys.countP q := by
  rw [← (places xs p).length_eq_countP, ((places xs p).congr h).length_eq_countP]

end Places

end Enumerates

namespace Graph

/-! ## Ports -/

/-- Buffer `b` is among the ports of one kind of node `n`. -/
def HasPort (g : Graph) (ports : Node → List Nat) (n b : Nat) : Prop :=
  ∃ x, g.nodes[n]? = some x ∧ b ∈ ports x

/-- Buffer `b` is an input of node `n`. -/
abbrev Reads (g : Graph) (n b : Nat) : Prop := g.HasPort Node.inputs n b

/-- Buffer `b` is an output of node `n`. -/
abbrev Writes (g : Graph) (n b : Nat) : Prop := g.HasPort Node.outputs n b

/-- Some output of node `n` is an input of node `m`. -/
def Feeds (g : Graph) (n m : Nat) : Prop := ∃ b, g.Writes n b ∧ g.Reads m b

/-- Several nodes write a buffer, or several read it. -/
def Contested (g : Graph) (b : Nat) : Prop :=
  (∃ m n, m ≠ n ∧ g.Writes m b ∧ g.Writes n b) ∨ ∃ m n, m ≠ n ∧ g.Reads m b ∧ g.Reads n b

/-- Some output of a node is contested. -/
def Blocked (g : Graph) (n : Nat) : Prop := ∃ b, g.Writes n b ∧ g.Contested b

theorem HasPort.lt {g : Graph} {ports : Node → List Nat} {n b : Nat} (h : g.HasPort ports n b) :
    n < g.nodes.length := by
  obtain ⟨x, hx, -⟩ := h
  exact (List.getElem?_eq_some_iff.mp hx).1

/-! ## Mirrored ports -/

/-- The ports of one kind name buffers, and every buffer lists the nodes that have it
among these ports. -/
structure PortsListed (g : Graph) (ports : Node → List Nat) (users : Buffer → List Nat) :
    Prop where
  listed : ∀ b buffer, g.buffers[b]? = some buffer →
    Enumerates (users buffer) fun n => g.HasPort ports n b
  lt : ∀ n b, g.HasPort ports n b → b < g.buffers.length

/-- Buffers list the nodes that read and write them. -/
structure Mirrors (g : Graph) : Prop where
  inputs : g.PortsListed Node.inputs Buffer.consumers
  outputs : g.PortsListed Node.outputs Buffer.producers

theorem Mirrors.mem_consumers {g : Graph} (h : g.Mirrors) {b m : Nat} :
    m ∈ g.consumers b ↔ g.Reads m b := by
  unfold consumers
  split
  · next buffer hb => exact (h.inputs.listed b buffer hb).mem_iff m
  · next hb =>
    have hlen := List.getElem?_eq_none_iff.mp hb
    refine iff_of_false List.not_mem_nil fun hr => ?_
    have := h.inputs.lt m b hr
    omega

/-- The successors of a node are the nodes that it feeds. -/
theorem Mirrors.mem_successors {g : Graph} (h : g.Mirrors) {n m : Nat} {x : Node}
    (hx : g.nodes[n]? = some x) : m ∈ g.successors x ↔ g.Feeds n m := by
  rw [successors, List.mem_flatMap]
  constructor
  · rintro ⟨b, hb, hm⟩
    exact ⟨b, ⟨x, hx, hb⟩, h.mem_consumers.mp hm⟩
  · rintro ⟨b, ⟨y, hy, hb⟩, hm⟩
    rw [hx] at hy
    cases hy
    exact ⟨b, hb, h.mem_consumers.mpr hm⟩

theorem Mirrors.isShared_iff {g : Graph} (h : g.Mirrors) {b : Nat} (hb : b < g.buffers.length) :
    g.isShared b = true ↔ g.Contested b := by
  have hbuf : g.buffers[b]? = some g.buffers[b] := List.getElem?_eq_getElem hb
  rw [isShared, hbuf]
  simp only [Buffer.isShared, Bool.or_eq_true, decide_eq_true_eq]
  rw [(h.inputs.listed b _ hbuf).one_lt_length_iff, (h.outputs.listed b _ hbuf).one_lt_length_iff,
    or_comm, Contested]

theorem Mirrors.isBlocked_iff {g : Graph} (h : g.Mirrors) {n : Nat} {x : Node}
    (hx : g.nodes[n]? = some x) : g.isBlocked x = true ↔ g.Blocked n := by
  rw [isBlocked, List.any_eq_true]
  constructor
  · rintro ⟨b, hb, hs⟩
    have hw : g.Writes n b := ⟨x, hx, hb⟩
    exact ⟨b, hw, (h.isShared_iff (h.outputs.lt n b hw)).mp hs⟩
  · rintro ⟨b, hw, hc⟩
    have hs := (h.isShared_iff (h.outputs.lt n b hw)).mpr hc
    obtain ⟨y, hy, hb⟩ := hw
    rw [hx] at hy
    cases hy
    exact ⟨b, hb, hs⟩

/-! ## Building -/

/-- Graphs made from the empty one by adding regions, buffers and nodes, with numbers
that name something. -/
inductive Built : Graph → Prop where
  | empty : Built .empty
  | addRegion {g : Graph} (h : Built g) (name : String) (span : Span) :
    Built (g.addRegion name span).1
  | internBuffer {g : Graph} (h : Built g) (name : String) : Built (g.internBuffer name).1
  | addNode {g g' : Graph} {region id : Nat} {name : String} {inputs outputs : List Nat}
    {span : Span} (h : Built g) (ok : g.addNode? region name inputs outputs span = .ok (g', id)) :
    Built g'

theorem checkBuffers_eq_ok_iff {g : Graph} :
    ∀ {bs : List Nat}, g.checkBuffers bs = .ok () ↔ ∀ b ∈ bs, b < g.buffers.length
  | [] => by simp [checkBuffers]
  | b :: bs => by
    rw [checkBuffers, List.forall_mem_cons]
    split
    · next hb => rw [checkBuffers_eq_ok_iff, and_iff_right hb]
    · next hb => exact iff_of_false nofun fun h => hb h.1

theorem checkRegion_eq_ok_iff {g : Graph} {region : Nat} :
    g.checkRegion region = .ok () ↔ region < g.regions.length := by
  unfold checkRegion
  split
  · next h => exact iff_of_true rfl h
  · next h => exact iff_of_false nofun h

/-- Adding a node succeeds exactly where its numbers name something. -/
theorem addNode?_eq_ok_iff {g : Graph} {region : Nat} {name : String} {inputs outputs : List Nat}
    {span : Span} {r : Graph × Nat} :
    g.addNode? region name inputs outputs span = .ok r ↔
      (∀ b ∈ inputs, b < g.buffers.length) ∧ (∀ b ∈ outputs, b < g.buffers.length) ∧
        region < g.regions.length ∧ g.addNode region name inputs outputs span = r := by
  rw [← checkBuffers_eq_ok_iff, ← checkBuffers_eq_ok_iff, ← checkRegion_eq_ok_iff]
  unfold addNode?
  cases g.checkBuffers inputs with
  | error f => exact iff_of_false nofun fun h => nomatch h.1
  | ok =>
    cases g.checkBuffers outputs with
    | error f => exact iff_of_false nofun fun h => nomatch h.2.1
    | ok =>
      cases g.checkRegion region with
      | error f => exact iff_of_false nofun fun h => nomatch h.2.2.1
      | ok => exact ⟨fun h => ⟨rfl, rfl, rfl, Except.ok.inj h⟩, fun h => congrArg _ h.2.2.2⟩

theorem getElem?_snoc_eq_some_iff {α : Type} {xs : List α} {x y : α} {n : Nat} :
    (xs ++ [x])[n]? = some y ↔ xs[n]? = some y ∨ n = xs.length ∧ y = x := by
  rcases Nat.lt_trichotomy n xs.length with h | h | h
  · rw [List.getElem?_append_left h]
    exact ⟨.inl, fun h' => h'.resolve_right fun e => absurd e.1 (Nat.ne_of_lt h)⟩
  · subst h
    simp [eq_comm]
  · rw [List.getElem?_eq_none (by rw [List.length_append, List.length_singleton]; omega),
      List.getElem?_eq_none (Nat.le_of_lt h)]
    exact iff_of_false nofun fun h' => by simp at h'; omega

section AddNode

variable {g : Graph} {region : Nat} {name : String} {inputs outputs : List Nat} {span : Span}

theorem hasPort_addNode {ports : Node → List Nat} {n b : Nat} :
    (g.addNode region name inputs outputs span).1.HasPort ports n b ↔
      g.HasPort ports n b ∨
        n = g.nodes.length ∧ b ∈ ports ⟨name, region, inputs, outputs, span, none⟩ := by
  simp only [HasPort, Graph.addNode, getElem?_snoc_eq_some_iff]
  constructor
  · rintro ⟨x, hx | ⟨hn, rfl⟩, hb⟩
    · exact .inl ⟨x, hx, hb⟩
    · exact .inr ⟨hn, hb⟩
  · rintro (⟨x, hx, hb⟩ | ⟨hn, hb⟩)
    · exact ⟨x, .inl hx, hb⟩
    · exact ⟨_, .inr ⟨hn, rfl⟩, hb⟩

/-- A buffer that the new node has among its ports gets it as its last user. -/
theorem PortsListed.addNode {ports : Node → List Nat} {users : Buffer → List Nat}
    (h : g.PortsListed ports users)
    (hlt : ∀ b ∈ ports ⟨name, region, inputs, outputs, span, none⟩, b < g.buffers.length)
    (hjoin : ∀ b buffer, users (joined g.nodes.length inputs outputs b buffer) =
      if b ∈ ports ⟨name, region, inputs, outputs, span, none⟩
      then users buffer ++ [g.nodes.length] else users buffer) :
    (g.addNode region name inputs outputs span).1.PortsListed ports users := by
  refine ⟨fun b buffer' hb => ?_, fun n b hp => ?_⟩
  · obtain ⟨buffer, hbuffer, rfl⟩ := Option.map_eq_some_iff.mp (List.getElem?_mapIdx.symm.trans hb)
    have hold := h.listed b buffer hbuffer
    rw [hjoin]
    split
    · next hmem =>
      refine (hold.snoc fun n => HasPort.lt).congr fun n => ?_
      rw [hasPort_addNode, and_iff_left hmem]
    · next hmem =>
      refine hold.congr fun n => ?_
      rw [hasPort_addNode, or_iff_left fun hn => hmem hn.2]
  · show b < (g.buffers.mapIdx (joined g.nodes.length inputs outputs)).length
    rw [List.length_mapIdx]
    exact (hasPort_addNode.mp hp).elim (h.lt n b) fun hn => hlt b hn.2

theorem Mirrors.addNode (h : g.Mirrors) (hi : ∀ b ∈ inputs, b < g.buffers.length)
    (ho : ∀ b ∈ outputs, b < g.buffers.length) :
    (g.addNode region name inputs outputs span).1.Mirrors :=
  ⟨h.inputs.addNode hi fun _ _ => rfl, h.outputs.addNode ho fun _ _ => rfl⟩

theorem map_name_addNode :
    (g.addNode region name inputs outputs span).1.buffers.map (·.name) =
      g.buffers.map (·.name) := by
  refine List.ext_getElem? fun i => ?_
  simp only [Graph.addNode, List.getElem?_map, List.getElem?_mapIdx, Option.map_map]
  rfl

end AddNode

/-- Interning either finds the buffer or adds one that nobody uses. -/
theorem internBuffer_cases (g : Graph) (name : String) :
    (g.internBuffer name).1 = g ∨
      (g.internBuffer name).1 = { g with buffers := g.buffers ++ [⟨name, [], []⟩] } := by
  unfold internBuffer
  split
  · exact .inl rfl
  · exact .inr rfl

/-- A new buffer has no users: ports name buffers that are there already. -/
theorem PortsListed.addBuffer {g : Graph} {ports : Node → List Nat} {users : Buffer → List Nat}
    {buffer : Buffer} (h : g.PortsListed ports users) (hnone : users buffer = []) :
    PortsListed { g with buffers := g.buffers ++ [buffer] } ports users := by
  refine ⟨fun b buffer' hb => ?_, fun n b hp => ?_⟩
  · rcases getElem?_snoc_eq_some_iff.mp hb with hb | ⟨rfl, rfl⟩
    · exact h.listed b buffer' hb
    · rw [hnone]
      exact ⟨List.Pairwise.nil, fun n =>
        iff_of_false List.not_mem_nil fun hp => Nat.lt_irrefl _ (h.lt n _ hp)⟩
  · rw [List.length_append]
    exact Nat.lt_add_right _ (h.lt n b hp)

theorem Mirrors.internBuffer {g : Graph} (h : g.Mirrors) (name : String) :
    (g.internBuffer name).1.Mirrors := by
  rcases internBuffer_cases g name with hg | hg
  · rw [hg]
    exact h
  · rw [hg]
    exact ⟨h.inputs.addBuffer rfl, h.outputs.addBuffer rfl⟩

theorem portsListed_empty (ports : Node → List Nat) (users : Buffer → List Nat) :
    empty.PortsListed ports users := by
  refine ⟨fun b buffer hb => ?_, fun n b hp => ?_⟩
  · cases hb
  · exact absurd hp.lt (Nat.not_lt_zero n)

theorem Built.mirrors {g : Graph} (h : g.Built) : g.Mirrors := by
  induction h with
  | empty => exact ⟨portsListed_empty _ _, portsListed_empty _ _⟩
  | addRegion _ name span ih =>
    exact ⟨⟨ih.inputs.listed, ih.inputs.lt⟩, ⟨ih.outputs.listed, ih.outputs.lt⟩⟩
  | internBuffer _ name ih => exact ih.internBuffer name
  | @addNode g g' region id name inputs outputs span _ ok ih =>
    obtain ⟨hi, ho, -, hg⟩ := addNode?_eq_ok_iff.mp ok
    have hfst : (g.addNode region name inputs outputs span).1 = g' := congrArg Prod.fst hg
    rw [← hfst]
    exact ih.addNode hi ho

/-- No node has a level before the first round. -/
theorem Built.level_eq_none {g : Graph} (h : g.Built) : ∀ x ∈ g.nodes, x.level = none := by
  induction h with
  | empty => exact fun x hx => absurd hx List.not_mem_nil
  | addRegion _ name span ih => exact ih
  | @internBuffer g _ name ih =>
    rcases internBuffer_cases g name with hg | hg
    · rwa [hg]
    · rwa [hg]
  | @addNode g g' region id name inputs outputs span _ ok ih =>
    obtain ⟨-, -, -, hg⟩ := addNode?_eq_ok_iff.mp ok
    have hfst : (g.addNode region name inputs outputs span).1 = g' := congrArg Prod.fst hg
    rw [← hfst]
    intro x hx
    rcases List.mem_append.mp hx with hx | hx
    · exact ih x hx
    · rw [List.mem_singleton.mp hx]

/-- Graph `g'` is `g` with more buffers, `bs` among them. -/
structure Interned (g g' : Graph) (bs : List Nat) : Prop where
  built : g.Built → g'.Built
  nodes_eq : g'.nodes = g.nodes
  regions_eq : g'.regions = g.regions
  length_le : g.buffers.length ≤ g'.buffers.length
  lt : ∀ b ∈ bs, b < g'.buffers.length

theorem interned_internBuffer (g : Graph) (name : String) :
    Interned g (g.internBuffer name).1 [(g.internBuffer name).2] := by
  cases hb : g.bufferNamed? name with
  | some b =>
    have heq : g.internBuffer name = (g, b) := by rw [internBuffer, hb]
    rw [heq]
    refine ⟨id, rfl, rfl, Nat.le_refl _, fun b' hb' => ?_⟩
    rw [List.mem_singleton.mp hb']
    exact (List.findIdx?_eq_some_iff_getElem.mp hb).1
  | none =>
    have heq : g.internBuffer name =
        ({ g with buffers := g.buffers ++ [⟨name, [], []⟩] }, g.buffers.length) := by
      rw [internBuffer, hb]
    have hbuilt : g.Built → (g.internBuffer name).1.Built := fun h => h.internBuffer name
    rw [heq] at hbuilt ⊢
    refine ⟨hbuilt, rfl, rfl, (List.sublist_append_left _ _).length_le, fun b' hb' => ?_⟩
    rw [List.mem_singleton.mp hb', List.length_append]
    exact Nat.lt_succ_self _

theorem Interned.trans {g g' g'' : Graph} {bs cs : List Nat} (h : Interned g g' bs)
    (h' : Interned g' g'' cs) : Interned g g'' (bs ++ cs) := by
  refine ⟨h'.built ∘ h.built, h'.nodes_eq.trans h.nodes_eq, h'.regions_eq.trans h.regions_eq,
    Nat.le_trans h.length_le h'.length_le, fun b hb => ?_⟩
  rcases List.mem_append.mp hb with hb | hb
  · exact Nat.lt_of_lt_of_le (h.lt b hb) h'.length_le
  · exact h'.lt b hb

theorem interned_internBuffers :
    ∀ (names : List String) (g : Graph),
      Interned g (g.internBuffers names).1 (g.internBuffers names).2
  | [], _ => ⟨id, rfl, rfl, Nat.le_refl _, fun _ hb => nomatch hb⟩
  | name :: names, g =>
    (interned_internBuffer g name).trans (interned_internBuffers names (g.internBuffer name).1)

end Graph

end Dataflow

end Bankflow
