import Bankflow.Dataflow.Store
import Bankflow.Proofs.Dataflow.History

/-!
# Building stores

The store of a graph (`Store.ofGraph`) has the places of the parts as their numbers, next
numbers that are the counts of the parts, and each buffer once in its table of names. What
is done to the store of a graph gives the store of what is done to the graph: regions
(`addRegion_ofGraph`), buffers (`internBuffer_ofGraph`), nodes (`addNode_ofGraph`) and levels
(`assignLevel_ofGraph`). So the copies that a store keeps stay in step.

The only thing that graphs do not know is the end of the numbers. Where they do not wrap,
there is no part after number `2 ^ 32 - 2` (`Overflow.counted`).
-/

namespace Bankflow

/-! ## Counting -/

namespace Overflow

/-- A counter can get to a number. -/
def Reaches (o : Overflow) (n : Nat) : Prop := o = wraps ∨ n < 2 ^ 32

instance (o : Overflow) (n : Nat) : Decidable (o.Reaches n) := instDecidableOr

/-- A result for which a counter has to get to a number. -/
def counted {α : Type} (o : Overflow) (n : Nat) (a : Except Fault α) : Except Fault α :=
  if o.Reaches n then a else .error .overflow

variable {α : Type} {o : Overflow} {n m : Nat} {a : Except Fault α}

theorem Reaches.mono (h : o.Reaches n) (hm : m ≤ n) : o.Reaches m :=
  h.imp_right (Nat.lt_of_le_of_lt hm)

/-- Where counters wrap, there has to be room for all that is counted. -/
theorem Reaches.lt (h : o.Reaches n) (hnm : n ≤ m) (hroom : o = stops ∨ m < 2 ^ 32) :
    n < 2 ^ 32 := by
  rcases hroom with rfl | hroom
  · exact h.resolve_left Overflow.noConfusion
  · exact Nat.lt_of_le_of_lt hnm hroom

theorem counted_of_reaches (h : o.Reaches n) : o.counted n a = a := if_pos h

theorem counted_of_not_reaches (h : ¬ o.Reaches n) : o.counted n a = .error .overflow := if_neg h

theorem eq_ok_of_counted {r : α} (h : o.counted n a = .ok r) : o.Reaches n ∧ a = .ok r := by
  by_cases hn : o.Reaches n
  · exact ⟨hn, (counted_of_reaches hn).symm.trans h⟩
  · rw [counted_of_not_reaches hn] at h
    cases h

theorem reaches_max : o.Reaches (max n m) ↔ o.Reaches n ∧ o.Reaches m := by
  rw [Reaches, Reaches, Reaches, Nat.max_lt, or_and_left]

theorem counted_congr (h : o.Reaches n ↔ o.Reaches m) : o.counted n a = o.counted m a :=
  if_congr h rfl rfl

theorem map_counted {β : Type} (o : Overflow) (n : Nat) (a : Except Fault α) (f : α → β) :
    (o.counted n a).map f = o.counted n (a.map f) := by
  unfold counted
  split <;> rfl

/-- One result after another, where counting goes on. -/
theorem bind_counted {β : Type} {x : α} {f : α → Except Fault β} {b : Except Fault β}
    (ha : a = o.counted n (.ok x)) (hnm : n ≤ m) (hf : o.Reaches n → f x = o.counted m b) :
    a >>= f = o.counted m b := by
  by_cases hn : o.Reaches n
  · rw [ha, counted_of_reaches hn, ← hf hn]
    rfl
  · rw [ha, counted_of_not_reaches hn, counted_of_not_reaches fun hm => hn (hm.mono hnm)]
    rfl

theorem next_ofNat (hn : o.Reaches n) :
    o.next (UInt32.ofNat n) = o.counted (n + 1) (.ok (UInt32.ofNat (n + 1))) := by
  have hsucc : UInt32.ofNat n + 1 = UInt32.ofNat (n + 1) := (UInt32.ofNat_add n 1).symm
  cases o with
  | wraps => rw [next, hsucc, counted_of_reaches (.inl rfl)]
  | stops =>
    have hn : n < 2 ^ 32 := hn.resolve_left Overflow.noConfusion
    have hlast : UInt32.ofNat n = 4294967295 ↔ n = 4294967295 := by
      rw [← UInt32.toNat_inj, UInt32.toNat_ofNat_of_lt' hn]
      rfl
    by_cases hmax : n = 4294967295
    · rw [next, if_pos (hlast.mpr hmax), counted_of_not_reaches]
      simp only [Reaches, reduceCtorEq, false_or]
      omega
    · rw [next, if_neg (hlast.not.mpr hmax), hsucc, counted_of_reaches]
      exact .inr (by omega)

end Overflow

theorem Counters.take_eq (o : Overflow) (c : Counters) (kind : PartKind) {n : Nat}
    (hc : c.next kind = UInt32.ofNat n) (hn : o.Reaches n) :
    c.take o kind =
      o.counted (n + 1) (.ok (UInt32.ofNat n, c.set (UInt32.ofNat (n + 1)) kind)) := by
  rw [take, hc, Overflow.next_ofNat hn, Overflow.counted, Overflow.counted]
  split <;> rfl

theorem Counters.next_set (c : Counters) (n : UInt32) (kind k : PartKind) :
    (c.set n kind).next k = if kind = k then n else c.next k := by
  cases kind <;> cases k <;> rfl

theorem Counters.takeAll_eq (o : Overflow) :
    ∀ (kinds earlier : List PartKind) (c : Counters),
      (∀ kind, c.next kind = UInt32.ofNat (earlier.count kind)) →
      earlier.length + kinds.length < 2 ^ 32 →
      c.takeAll o kinds = .ok ((numbersAfter earlier kinds).map UInt32.ofNat)
  | [], _, _, _, _ => rfl
  | kind :: kinds, earlier, c, hc, hlength => by
    rw [List.length_cons] at hlength
    have hcount : earlier.count kind ≤ earlier.length := List.count_le_length
    have hnext : ∀ k, (c.set (UInt32.ofNat (earlier.count kind + 1)) kind).next k =
        UInt32.ofNat ((kind :: earlier).count k) := by
      intro k
      rw [next_set, List.count_cons, hc k]
      by_cases hk : kind = k
      · subst hk
        simp
      · simp [hk]
    have hrest := takeAll_eq o kinds (kind :: earlier) _ hnext (by rw [List.length_cons]; omega)
    rw [takeAll, take_eq o c kind (hc kind) (.inr (by omega)),
      Overflow.counted_of_reaches (.inr (by omega))]
    simp only [bind, Except.bind, hrest]
    rfl

/-- Counters that start at zero give out the numbers of the parts. -/
theorem Counters.takeAll_zero (o : Overflow) (kinds : List PartKind)
    (h : kinds.length < 2 ^ 32) :
    zero.takeAll o kinds = .ok ((numbers kinds).map UInt32.ofNat) := by
  refine takeAll_eq o kinds [] zero (fun kind => ?_) (by rwa [List.length_nil, Nat.zero_add])
  cases kind <;> rfl

namespace Dataflow

/-! ## The store of a graph -/

def StoredNode.of (i : Nat) (n : Node) : StoredNode :=
  ⟨.ofNat i, n.name, .ofNat n.region, n.inputs.map .ofNat, n.outputs.map .ofNat, n.span,
    n.level.map .ofNat⟩

def StoredBuffer.of (i : Nat) (b : Buffer) : StoredBuffer :=
  ⟨.ofNat i, b.name, b.producers.map .ofNat, b.consumers.map .ofNat⟩

def StoredRegion.of (i : Nat) (r : Region) : StoredRegion :=
  ⟨.ofNat i, r.name, r.nodes.map .ofNat, r.legal, r.span⟩

/-- The store of a graph, in which the number of a part is its place. -/
def Store.ofGraph (g : Graph) : Store where
  nodes := g.nodes.mapIdx StoredNode.of
  buffers := g.buffers.mapIdx StoredBuffer.of
  regions := g.regions.mapIdx StoredRegion.of
  names := (g.buffers.mapIdx fun i b => (b.name, UInt32.ofNat i)).reverse
  ids := ⟨0, 0, .ofNat g.nodes.length, .ofNat g.buffers.length, .ofNat g.regions.length⟩

/-- Graphs whose numbers and levels have 32 bits. -/
structure Graph.Fits (g : Graph) : Prop where
  nodes : g.nodes.length < 2 ^ 32
  buffers : g.buffers.length < 2 ^ 32
  regions : g.regions.length < 2 ^ 32
  levels : ∀ n ∈ g.nodes, ∀ l ∈ n.level, l < 2 ^ 32

/-- The greatest count of parts of a kind. -/
def Graph.largest (g : Graph) : Nat := max g.nodes.length (max g.buffers.length g.regions.length)

theorem Graph.Built.fits {g : Graph} (h : g.Built) (hlt : g.largest < 2 ^ 32) : g.Fits := by
  obtain ⟨hnodes, hrest⟩ := Nat.max_lt.mp hlt
  obtain ⟨hbuffers, hregions⟩ := Nat.max_lt.mp hrest
  refine ⟨hnodes, hbuffers, hregions, fun n hn l hl => ?_⟩
  rw [h.level_eq_none n hn] at hl
  cases hl

theorem Graph.Interned.fits {g g' : Graph} {bs : List Nat} (h : Interned g g' bs) (hfits : g.Fits)
    (hlt : g'.buffers.length < 2 ^ 32) : g'.Fits :=
  ⟨h.nodes_eq ▸ hfits.nodes, hlt, h.regions_eq ▸ hfits.regions, h.nodes_eq ▸ hfits.levels⟩

theorem map_ofNat_map_toNat (ids : List UInt32) : (ids.map (·.toNat)).map UInt32.ofNat = ids := by
  rw [List.map_map]
  exact List.map_id'' (fun id => UInt32.ofNat_toNat) ids

theorem map_toNat_map_ofNat {ids : List Nat} (h : ∀ i ∈ ids, i < 2 ^ 32) :
    (ids.map UInt32.ofNat).map (·.toNat) = ids := by
  rw [List.map_map]
  exact (List.map_congr_left fun i hi => UInt32.toNat_ofNat_of_lt' (h i hi)).trans (List.map_id _)

theorem ofNat_mem_map_iff {ids : List Nat} {i : Nat} (hi : i < 2 ^ 32) (h : ∀ j ∈ ids, j < 2 ^ 32) :
    UInt32.ofNat i ∈ ids.map UInt32.ofNat ↔ i ∈ ids := by
  rw [List.mem_map]
  constructor
  · rintro ⟨j, hj, heq⟩
    have hnat := congrArg UInt32.toNat heq
    rw [UInt32.toNat_ofNat_of_lt' hi, UInt32.toNat_ofNat_of_lt' (h j hj)] at hnat
    exact hnat ▸ hj
  · exact fun h => ⟨i, h, rfl⟩

namespace Store

variable {o : Overflow} {g : Graph}

/-! ## Regions and buffers -/

theorem addRegion_ofGraph (h : g.Fits) (name : String) (span : Span) :
    (ofGraph g).addRegion o name span = o.counted (g.regions.length + 1)
      (.ok (ofGraph (g.addRegion name span).1, UInt32.ofNat (g.addRegion name span).2)) := by
  have htake := Counters.take_eq o (ofGraph g).ids .region rfl (.inr h.regions)
  rw [addRegion, htake, Overflow.counted, Overflow.counted]
  split
  · simp only [bind, Except.bind, pure, Except.pure, ofGraph, Graph.addRegion, List.mapIdx_concat,
      List.length_append, List.length_singleton]
    rfl
  · rfl

/-- A table of names finds the place of a name. -/
theorem lookup_names {α : Type} (key : α → String) (name : String) {xs : List α}
    (h : (xs.map key).Nodup) :
    ((xs.mapIdx fun i x => (key x, UInt32.ofNat i)).reverse).lookup name =
      (xs.findIdx? fun x => key x = name).map UInt32.ofNat := by
  induction xs using List.reverseRecOn with
  | nil => rfl
  | append_singleton xs x ih =>
    rw [List.map_append, List.map_singleton, List.nodup_append] at h
    obtain ⟨hxs, -, hnew⟩ := h
    rw [List.mapIdx_concat, List.reverse_append, List.reverse_singleton, List.singleton_append,
      List.lookup_cons, List.findIdx?_append, ih hxs, List.findIdx?_singleton]
    by_cases hname : key x = name
    · have hnone : xs.findIdx? (fun x => key x = name) = none := by
        refine List.findIdx?_eq_none_iff.mpr fun y hy => decide_eq_false fun heq => ?_
        exact hnew (key y) (List.mem_map_of_mem hy) (key x) List.mem_cons_self
          (heq.trans hname.symm)
      simp [hname, hnone]
    · have hne : (name == key x) = false := beq_eq_false_iff_ne.mpr (Ne.symm hname)
      simp [hname, hne]

section Parts

variable {α β : Type} (part : Nat → α → β) {xs : List α}

theorem map_name_parts (key : α → String) (name : β → String)
    (hname : ∀ i x, name (part i x) = key x) : (xs.mapIdx part).map name = xs.map key := by
  refine List.ext_getElem? fun i => ?_
  rw [List.getElem?_map, List.getElem?_mapIdx, Option.map_map, List.getElem?_map]
  exact congrArg (fun f => xs[i]?.map f) (funext fun x => hname i x)

/-- A table of names finds the number of the part of that name. -/
theorem lookup_parts_iff (key : α → String) (name : β → String) (number : β → UInt32)
    (hname : ∀ i x, name (part i x) = key x)
    (hnumber : ∀ i x, number (part i x) = UInt32.ofNat i) (h : (xs.map key).Nodup) (k : String)
    (id : UInt32) :
    ((xs.mapIdx fun i x => (key x, UInt32.ofNat i)).reverse).lookup k = some id ↔
      ∃ b ∈ xs.mapIdx part, name b = k ∧ number b = id := by
  rw [lookup_names key k h, Option.map_eq_some_iff]
  constructor
  · rintro ⟨i, hi, rfl⟩
    obtain ⟨x, hx, rfl⟩ := Option.map_eq_some_iff.mp ((findIdx?_key_eq_some_iff h).mp hi)
    obtain ⟨hlt, rfl⟩ := List.getElem?_eq_some_iff.mp hx
    exact ⟨_, List.mem_mapIdx.mpr ⟨i, hlt, rfl⟩, hname i _, hnumber i _⟩
  · rintro ⟨b, hb, rfl, rfl⟩
    obtain ⟨i, hlt, rfl⟩ := List.mem_mapIdx.mp hb
    refine ⟨i, (findIdx?_key_eq_some_iff h).mpr ?_, (hnumber i _).symm⟩
    rw [List.getElem?_eq_getElem hlt, Option.map_some, hname]

/-- The number of a part is its place. -/
theorem toNat_number_of_getElem? (number : β → UInt32)
    (hnumber : ∀ i x, number (part i x) = UInt32.ofNat i) (hxs : xs.length < 2 ^ 32) {i : Nat}
    {b : β} (hb : (xs.mapIdx part)[i]? = some b) : (number b).toNat = i := by
  rw [List.getElem?_mapIdx, Option.map_eq_some_iff] at hb
  obtain ⟨x, hx, rfl⟩ := hb
  rw [hnumber, UInt32.toNat_ofNat_of_lt' (Nat.lt_trans (List.getElem?_eq_some_iff.mp hx).1 hxs)]

end Parts

theorem internBuffer_ofGraph (h : g.Fits) (hnames : (g.buffers.map (·.name)).Nodup)
    (name : String) :
    (ofGraph g).internBuffer o name = o.counted (g.internBuffer name).1.buffers.length
      (.ok (ofGraph (g.internBuffer name).1, UInt32.ofNat (g.internBuffer name).2)) := by
  have hlookup : (ofGraph g).names.lookup name = (g.bufferNamed? name).map UInt32.ofNat :=
    lookup_names Buffer.name name hnames
  rw [internBuffer, hlookup, Graph.internBuffer]
  cases g.bufferNamed? name with
  | some b => exact (Overflow.counted_of_reaches (.inr h.buffers)).symm
  | none =>
    have htake := Counters.take_eq o (ofGraph g).ids .buffer rfl (.inr h.buffers)
    have hlength : (g.buffers ++ [(⟨name, [], []⟩ : Buffer)]).length = g.buffers.length + 1 :=
      List.length_append
    simp only [Option.map_none, htake, hlength]
    rw [Overflow.counted, Overflow.counted]
    split
    · simp only [bind, Except.bind, pure, Except.pure, ofGraph, List.mapIdx_concat,
        List.reverse_append, List.reverse_singleton, List.singleton_append, hlength]
      rfl
    · rfl

theorem internBuffers_cons (g : Graph) (name : String) (names : List String) :
    g.internBuffers (name :: names) =
      (((g.internBuffer name).1.internBuffers names).1,
        (g.internBuffer name).2 :: ((g.internBuffer name).1.internBuffers names).2) := rfl

/-- Buffers are added one by one as far as they are new. -/
theorem internBuffers_ofGraph :
    ∀ (names : List String) {g : Graph}, g.Built → g.Fits →
      (o = .stops ∨ (g.internBuffers names).1.buffers.length < 2 ^ 32) →
      (ofGraph g).internBuffers o names = o.counted (g.internBuffers names).1.buffers.length
        (.ok (ofGraph (g.internBuffers names).1, (g.internBuffers names).2.map UInt32.ofNat))
  | [], g, _, hfits, _ => (Overflow.counted_of_reaches (.inr hfits.buffers)).symm
  | name :: names, g, hg, hfits, hroom => by
    have hle := (Graph.interned_internBuffers names (g.internBuffer name).1).length_le
    rw [internBuffers_cons] at hroom ⊢
    rw [internBuffers]
    refine Overflow.bind_counted (internBuffer_ofGraph hfits hg.consistent.names name) hle
      fun hreaches => ?_
    have hfits' := (Graph.interned_internBuffer g name).fits hfits (hreaches.lt hle hroom)
    refine Overflow.bind_counted (internBuffers_ofGraph names (hg.internBuffer name) hfits' hroom)
      (Nat.le_refl _) fun hend => ?_
    rw [Overflow.counted_of_reaches hend]
    rfl

/-! ## Nodes -/

/-- A change that has no effect twice is made once at each port. -/
theorem atPorts_eq {change : StoredBuffer → StoredBuffer}
    (htwice : ∀ b, change (change b) = change b) (g : Graph) :
    ∀ (ports : List UInt32) (buffers : List StoredBuffer), buffers.length = g.buffers.length →
      atPorts change buffers ports = (g.checkBuffers (ports.map (·.toNat))).map fun _ =>
        buffers.mapIdx fun i b => if i ∈ ports.map (·.toNat) then change b else b
  | [], buffers, _ => by
    have hsame : (buffers.mapIdx fun _ b => b) = buffers := by
      refine List.ext_getElem? fun i => ?_
      rw [List.getElem?_mapIdx, Option.map_id']
    simp only [atPorts, Graph.checkBuffers, Except.map, List.map_nil, List.not_mem_nil, if_false,
      hsame]
  | port :: ports, buffers, hlength => by
    rw [atPorts, List.map_cons, Graph.checkBuffers]
    split
    · next hnone =>
      rw [if_neg (Nat.not_lt.mpr (hlength ▸ List.getElem?_eq_none_iff.mp hnone))]
      rfl
    · next b hb =>
      obtain ⟨hlt, rfl⟩ := List.getElem?_eq_some_iff.mp hb
      rw [if_pos (hlength ▸ hlt), atPorts_eq htwice g ports _ (by rw [List.length_set, hlength])]
      congr 1
      funext _
      refine List.ext_getElem? fun i => ?_
      rw [List.getElem?_mapIdx, List.getElem?_mapIdx, List.getElem?_set]
      by_cases hi : port.toNat = i
      · subst hi
        by_cases hmem : port.toNat ∈ ports.map (·.toNat) <;>
          simp only [hlt, hmem, List.mem_cons, if_true, if_false, Option.map_some, htwice,
            List.getElem?_eq_getElem, true_or, or_true]
      · simp only [hi, if_false, List.mem_cons, Ne.symm hi, false_or]

theorem withNumber_withNumber (id : UInt32) (ids : List UInt32) :
    withNumber id (withNumber id ids) = withNumber id ids := by
  by_cases h : id ∈ ids
  · simp [withNumber, h]
  · simp [withNumber, h]

/-- The number of a new node is not yet in a list of nodes. -/
theorem withNumber_map_ofNat {n : Nat} {ids : List Nat} (hn : n < 2 ^ 32) (h : ∀ i ∈ ids, i < n) :
    withNumber (.ofNat n) (ids.map .ofNat) = (ids ++ [n]).map .ofNat := by
  have hnew : UInt32.ofNat n ∉ ids.map .ofNat := by
    rw [ofNat_mem_map_iff hn fun i hi => Nat.lt_trans (h i hi) hn]
    exact fun hmem => Nat.lt_irrefl n (h n hmem)
  rw [withNumber, if_neg hnew, List.map_append, List.map_singleton]

/-- A buffer with a new node among its users is the stored form of the joined buffer. -/
theorem of_joined {n i : Nat} {b : Buffer} {inputs outputs : List Nat} (hn : n < 2 ^ 32)
    (hproducers : ∀ k ∈ b.producers, k < n) (hconsumers : ∀ k ∈ b.consumers, k < n) :
    (let b' := if i ∈ inputs then (StoredBuffer.of i b).addConsumer (.ofNat n) else .of i b
      if i ∈ outputs then b'.addProducer (.ofNat n) else b') =
      StoredBuffer.of i (Graph.joined n inputs outputs i b) := by
  have hp := withNumber_map_ofNat hn hproducers
  have hc := withNumber_map_ofNat hn hconsumers
  by_cases hin : i ∈ inputs <;> by_cases hout : i ∈ outputs <;>
    simp only [hin, hout, if_true, if_false, StoredBuffer.of, StoredBuffer.addConsumer,
      StoredBuffer.addProducer, Graph.joined, hp, hc]

/-- Noting a new node with the buffers of its ports joins it to them. -/
theorem buffers_joined (hfits : g.Fits) (hg : g.Mirrors) (inputs outputs : List Nat) :
    (((ofGraph g).buffers.mapIdx fun i b =>
        if i ∈ inputs then b.addConsumer (.ofNat g.nodes.length) else b).mapIdx fun i b =>
        if i ∈ outputs then b.addProducer (.ofNat g.nodes.length) else b) =
      (g.buffers.mapIdx (Graph.joined g.nodes.length inputs outputs)).mapIdx StoredBuffer.of := by
  refine List.ext_getElem? fun i => ?_
  simp only [ofGraph, List.getElem?_mapIdx, Option.map_map]
  cases hb : g.buffers[i]? with
  | none => rfl
  | some b =>
    refine congrArg some (of_joined hfits.nodes ?_ ?_)
    · exact fun k hk => (((hg.outputs.listed i b hb).mem_iff k).mp hk).lt
    · exact fun k hk => (((hg.inputs.listed i b hb).mem_iff k).mp hk).lt

theorem regions_set (g : Graph) {i : Nat} {r : Region} (n : Nat) (hr : g.regions[i]? = some r) :
    (ofGraph g).regions.set i
        { StoredRegion.of i r with nodes := (StoredRegion.of i r).nodes ++ [UInt32.ofNat n] } =
      (g.regions.modify i fun r => { r with nodes := r.nodes ++ [n] }).mapIdx StoredRegion.of := by
  refine List.ext_getElem? fun j => ?_
  simp only [ofGraph, List.getElem?_set, List.getElem?_mapIdx, List.getElem?_modify,
    List.length_mapIdx]
  by_cases hij : i = j
  · subst hij
    obtain ⟨hi, rfl⟩ := List.getElem?_eq_some_iff.mp hr
    simp [hi, StoredRegion.of]
  · simp [hij]

/-- The store of a graph with one more node. -/
theorem ofGraph_addNode (hfits : g.Fits) (hg : g.Mirrors) {region : UInt32} (name : String)
    (inputs outputs : List UInt32) (span : Span) {r : Region}
    (hr : g.regions[region.toNat]? = some r) :
    ofGraph (g.addNode region.toNat name (inputs.map (·.toNat)) (outputs.map (·.toNat)) span).1 =
      { nodes := (ofGraph g).nodes ++
          [⟨.ofNat g.nodes.length, name, region, inputs, outputs, span, none⟩]
        buffers := ((ofGraph g).buffers.mapIdx fun i b =>
            if i ∈ inputs.map (·.toNat) then b.addConsumer (.ofNat g.nodes.length) else b).mapIdx
          fun i b =>
            if i ∈ outputs.map (·.toNat) then b.addProducer (.ofNat g.nodes.length) else b
        regions := (ofGraph g).regions.set region.toNat
          { StoredRegion.of region.toNat r with
            nodes := (StoredRegion.of region.toNat r).nodes ++ [.ofNat g.nodes.length] }
        names := (ofGraph g).names
        ids := (ofGraph g).ids.set (.ofNat (g.nodes.length + 1)) .node } := by
  have hnode : StoredNode.of g.nodes.length ⟨name, region.toNat, inputs.map (·.toNat),
      outputs.map (·.toNat), span, none⟩ =
        ⟨.ofNat g.nodes.length, name, region, inputs, outputs, span, none⟩ := by
    simp only [StoredNode.of, map_ofNat_map_toNat, UInt32.ofNat_toNat, Option.map_none]
  have hnames : ((g.buffers.mapIdx (Graph.joined g.nodes.length (inputs.map (·.toNat))
      (outputs.map (·.toNat)))).mapIdx fun i b => (b.name, UInt32.ofNat i)) =
        g.buffers.mapIdx fun i b => (b.name, UInt32.ofNat i) := by
    refine List.ext_getElem? fun i => ?_
    simp only [List.getElem?_mapIdx, Option.map_map]
    rfl
  rw [buffers_joined hfits hg, regions_set g _ hr]
  simp only [ofGraph, Graph.addNode, List.mapIdx_concat, hnode, hnames, List.length_mapIdx,
    List.length_append, List.length_singleton, List.length_modify, Counters.set]

theorem addNode_ofGraph (hfits : g.Fits) (hg : g.Mirrors) (region : UInt32) (name : String)
    (inputs outputs : List UInt32) (span : Span) :
    (ofGraph g).addNode o region name inputs outputs span =
      o.counted (g.nodes.length + 1)
        ((g.addNode? region.toNat name (inputs.map (·.toNat)) (outputs.map (·.toNat)) span).map
          fun r => (ofGraph r.1, UInt32.ofNat r.2)) := by
  have htake := Counters.take_eq o (ofGraph g).ids .node rfl (.inr hfits.nodes)
  have hlength : (ofGraph g).buffers.length = g.buffers.length := List.length_mapIdx
  rw [addNode, htake, Overflow.counted, Overflow.counted]
  split
  · simp only [bind, Except.bind]
    rw [atPorts_eq (fun b => by simp only [StoredBuffer.addConsumer, withNumber_withNumber]) g
      inputs _ hlength, Graph.addNode?]
    cases g.checkBuffers (inputs.map (·.toNat)) with
    | error f => rfl
    | ok _ =>
      simp only [Except.map, bind, Except.bind]
      rw [atPorts_eq (fun b => by simp only [StoredBuffer.addProducer, withNumber_withNumber]) g
        outputs _ (by rw [List.length_mapIdx, hlength])]
      cases g.checkBuffers (outputs.map (·.toNat)) with
      | error f => rfl
      | ok _ =>
        have hregions : (ofGraph g).regions[region.toNat]? =
            (g.regions[region.toNat]?).map (StoredRegion.of region.toNat) := List.getElem?_mapIdx
        simp only [Except.map, Graph.checkRegion, hregions]
        cases hr : g.regions[region.toNat]? with
        | none =>
          rw [if_neg (Nat.not_lt.mpr (List.getElem?_eq_none_iff.mp hr))]
          rfl
        | some r =>
          rw [if_pos (List.getElem?_eq_some_iff.mp hr).1]
          simp only [Option.map_some, pure, Except.pure, ofGraph_addNode hfits hg name inputs
            outputs span hr]
          rfl
  · rfl

/-! ## Levels -/

theorem assign_of (i : Nat) (n : Node) (level : UInt32) :
    (StoredNode.of i n).assign level = StoredNode.of i (n.assign level.toNat) := by
  unfold StoredNode.assign Node.assign
  cases hlevel : n.level with
  | none => simp [StoredNode.of, hlevel]
  | some l => simp [StoredNode.of, hlevel]

theorem assignLevel_ofGraph (g : Graph) (id level : UInt32) :
    (ofGraph g).assignLevel id level = (g.assignLevel? id.toNat level.toNat).map ofGraph := by
  have hnodes : (ofGraph g).nodes[id.toNat]? =
      (g.nodes[id.toNat]?).map (StoredNode.of id.toNat) := List.getElem?_mapIdx
  rw [assignLevel, node, hnodes, Graph.assignLevel?, Graph.checkNode]
  cases hn : g.nodes[id.toNat]? with
  | none =>
    rw [if_neg (Nat.not_lt.mpr (List.getElem?_eq_none_iff.mp hn))]
    rfl
  | some n =>
    obtain ⟨hlt, rfl⟩ := List.getElem?_eq_some_iff.mp hn
    have hset : (ofGraph g).nodes.set id.toNat
        ((StoredNode.of id.toNat g.nodes[id.toNat]).assign level) =
          (g.nodes.modify id.toNat (·.assign level.toNat)).mapIdx StoredNode.of := by
      refine List.ext_getElem? fun i => ?_
      simp only [ofGraph, List.getElem?_set, List.getElem?_mapIdx, List.getElem?_modify,
        List.length_mapIdx, assign_of]
      by_cases hi : id.toNat = i
      · subst hi
        simp [hlt]
      · simp [hi]
    rw [if_pos hlt]
    simp only [Option.map_some, bind, Except.bind, pure, Except.pure, Except.map, hset]
    rw [Graph.assignLevel, ofGraph, ofGraph]
    simp only [List.length_modify]

/-! ## The graph of a store -/

/-- Places that fit come back from a store. -/
theorem graph_ofGraph (hfits : g.Fits) (hg : g.Consistent) : (ofGraph g).graph = g := by
  have hnodes : (ofGraph g).graph.nodes = g.nodes := by
    refine List.ext_getElem? fun i => ?_
    simp only [graph, ofGraph, List.getElem?_map, List.getElem?_mapIdx, Option.map_map]
    cases hn : g.nodes[i]? with
    | none => rfl
    | some n =>
      have hin : ∀ b ∈ n.inputs, b < 2 ^ 32 := fun b hb =>
        Nat.lt_trans (hg.inputs.lt i b ⟨n, hn, hb⟩) hfits.buffers
      have hout : ∀ b ∈ n.outputs, b < 2 ^ 32 := fun b hb =>
        Nat.lt_trans (hg.outputs.lt i b ⟨n, hn, hb⟩) hfits.buffers
      have hregion := Nat.lt_trans (hg.regions.lt i _ ⟨n, hn, rfl⟩) hfits.regions
      have hlevel : (n.level.map UInt32.ofNat).map (·.toNat) = n.level := by
        cases hl : n.level with
        | none => rfl
        | some l =>
          have hlt := hfits.levels n (List.mem_of_getElem? hn) l hl
          simp only [Option.map_some, UInt32.toNat_ofNat_of_lt' hlt]
      simp only [Option.map_some, Function.comp_apply, StoredNode.of, map_toNat_map_ofNat hin,
        map_toNat_map_ofNat hout, UInt32.toNat_ofNat_of_lt' hregion, hlevel]
  have hbuffers : (ofGraph g).graph.buffers = g.buffers := by
    refine List.ext_getElem? fun i => ?_
    simp only [graph, ofGraph, List.getElem?_map, List.getElem?_mapIdx, Option.map_map]
    cases hb : g.buffers[i]? with
    | none => rfl
    | some b =>
      have hproducers : ∀ n ∈ b.producers, n < 2 ^ 32 := fun n hn =>
        Nat.lt_trans (((hg.outputs.listed i b hb).mem_iff n).mp hn).lt hfits.nodes
      have hconsumers : ∀ n ∈ b.consumers, n < 2 ^ 32 := fun n hn =>
        Nat.lt_trans (((hg.inputs.listed i b hb).mem_iff n).mp hn).lt hfits.nodes
      simp only [Option.map_some, Function.comp_apply, StoredBuffer.of,
        map_toNat_map_ofNat hproducers, map_toNat_map_ofNat hconsumers]
  have hregions : (ofGraph g).graph.regions = g.regions := by
    refine List.ext_getElem? fun i => ?_
    simp only [graph, ofGraph, List.getElem?_map, List.getElem?_mapIdx, Option.map_map]
    cases hr : g.regions[i]? with
    | none => rfl
    | some r =>
      have hlisted : ∀ n ∈ r.nodes, n < 2 ^ 32 := fun n hn =>
        Nat.lt_trans (((hg.regions.listed i r hr).mem_iff n).mp hn).lt hfits.nodes
      simp only [Option.map_some, Function.comp_apply, StoredRegion.of, map_toNat_map_ofNat hlisted]
  generalize (ofGraph g).graph = g' at hnodes hbuffers hregions
  cases g'
  cases g
  simp_all only

end Store

end Dataflow

end Bankflow
