import Bankflow.Proofs.Dataflow.Rounds
import Bankflow.Proofs.Dataflow.Store

/-!
# Scheduling stores

The rounds of a run on the store of a graph are those of the run on the graph. A round finds
the nodes that are ready, with their levels, and those that are blocked (`scan_ofGraph`);
committing the levels of the ready nodes one after the other is the round of the graph
(`commit_ofGraph`). So scheduling (`schedule_ofGraph`) and checking (`checkLegality_ofGraph`)
give the store of the graph that was scheduled or checked, with the same results. Rounds are
counted with 32 bits.
-/

namespace Bankflow.Dataflow

theorem filterChecked_eq {α : Type} {test : α → Except Fault Bool} {p : α → Bool} :
    ∀ {l : List α}, (∀ a ∈ l, test a = .ok (p a)) → filterChecked test l = .ok (l.filter p)
  | [], _ => rfl
  | a :: l, h => by
    rw [filterChecked, h a List.mem_cons_self,
      filterChecked_eq fun b hb => h b (List.mem_cons_of_mem a hb), List.filter_cons]
    rfl

theorem allM_eq {α : Type} {test : α → Except Fault Bool} {p : α → Bool} :
    ∀ {l : List α}, (∀ a ∈ l, test a = .ok (p a)) → l.allM test = .ok (l.all p)
  | [], _ => rfl
  | a :: l, h => by
    rw [List.allM, h a List.mem_cons_self, List.all_cons,
      allM_eq fun b hb => h b (List.mem_cons_of_mem a hb)]
    cases p a <;> rfl

theorem mapM_eq {α β : Type} {f : α → Except Fault β} {f' : α → β} :
    ∀ {l : List α}, (∀ a ∈ l, f a = .ok (f' a)) → l.mapM f = .ok (l.map f')
  | [], _ => rfl
  | a :: l, h => by
    rw [List.mapM_cons, h a List.mem_cons_self,
      mapM_eq fun b hb => h b (List.mem_cons_of_mem a hb)]
    rfl

/-! ## Levels of 32 bits -/

theorem max_ofNat {a b : Nat} (ha : a < 2 ^ 32) (hb : b < 2 ^ 32) :
    max (UInt32.ofNat a) (UInt32.ofNat b) = UInt32.ofNat (max a b) := by
  have hle : UInt32.ofNat a ≤ UInt32.ofNat b ↔ a ≤ b := by
    rw [UInt32.le_iff_toNat_le, UInt32.toNat_ofNat_of_lt' ha, UInt32.toNat_ofNat_of_lt' hb]
  by_cases h : a ≤ b
  · rw [Nat.max_eq_right h]
    exact if_pos (hle.mpr h)
  · rw [Nat.max_eq_left (Nat.le_of_not_le h)]
    exact if_neg (hle.not.mpr h)

theorem levelAbove_lt (l : Nat) : levelAbove l < 2 ^ 32 :=
  Nat.lt_of_le_of_lt (Nat.min_le_right _ _) (by decide)

theorem Store.levelAfter_ofNat {l : Nat} (hl : l < 2 ^ 32) :
    levelAfter (UInt32.ofNat l) = UInt32.ofNat (levelAbove l) := by
  have hlast : UInt32.ofNat l = 4294967295 ↔ l = 4294967295 := by
    rw [← UInt32.toNat_inj, UInt32.toNat_ofNat_of_lt' hl]
    rfl
  rw [levelAfter]
  by_cases hmax : l = 4294967295
  · rw [if_pos (hlast.mpr hmax), hmax]
    rfl
  · rw [if_neg (hlast.not.mpr hmax), levelAbove, Nat.min_eq_left (by simp only [maxLevel]; omega)]
    exact (UInt32.ofNat_add l 1).symm

namespace Store

variable {o : Overflow} {g : Graph} {options : Options} {i : Nat}

/-! ## Looking up -/

theorem node_ofGraph (hfits : g.Fits) (hi : i < g.nodes.length) :
    (ofGraph g).node (UInt32.ofNat i) = .ok (.of i g.nodes[i]) := by
  have hnat : (UInt32.ofNat i).toNat = i :=
    UInt32.toNat_ofNat_of_lt' (Nat.lt_trans hi hfits.nodes)
  simp only [node, hnat, ofGraph, List.getElem?_mapIdx, List.getElem?_eq_getElem hi,
    Option.map_some]

theorem buffer_ofGraph (hfits : g.Fits) (hi : i < g.buffers.length) :
    (ofGraph g).buffer (UInt32.ofNat i) = .ok (.of i g.buffers[i]) := by
  have hnat : (UInt32.ofNat i).toNat = i :=
    UInt32.toNat_ofNat_of_lt' (Nat.lt_trans hi hfits.buffers)
  simp only [buffer, hnat, ofGraph, List.getElem?_mapIdx, List.getElem?_eq_getElem hi,
    Option.map_some]

theorem isLevelled_ofGraph (hfits : g.Fits) (hi : i < g.nodes.length) :
    (ofGraph g).isLevelled (UInt32.ofNat i) = .ok (g.isLevelled i) := by
  rw [isLevelled, node_ofGraph hfits hi, Graph.isLevelled, Graph.level?,
    List.getElem?_eq_getElem hi, Option.bind_some]
  simp only [bind, Except.bind, pure, Except.pure, StoredNode.of, Option.isSome_map]

theorem isShared_of (i : Nat) (b : Buffer) : (StoredBuffer.of i b).isShared = b.isShared := by
  simp only [StoredBuffer.isShared, StoredBuffer.of, List.length_map, Buffer.isShared]

/-! ## Readiness -/

/-- Raising a level above those of some nodes. -/
theorem raise_ofGraph (hfits : g.Fits) :
    ∀ (ids : List Nat) {l : Nat}, l < 2 ^ 32 → (∀ i ∈ ids, i < g.nodes.length) →
      (ofGraph g).raise (UInt32.ofNat l) (ids.map UInt32.ofNat) =
        .ok ((levelAboveAll (ids.map g.level?)).map fun m => UInt32.ofNat (max l m))
  | [], l, _, _ => by simp [raise, levelAboveAll]
  | i :: ids, l, hl, h => by
    have hi : i < g.nodes.length := h i List.mem_cons_self
    have hlevel : g.level? i = g.nodes[i].level := by
      rw [Graph.level?, List.getElem?_eq_getElem hi, Option.bind_some]
    rw [List.map_cons, List.map_cons, raise, node_ofGraph hfits hi, hlevel]
    cases hk : g.nodes[i].level with
    | none => simp [bind, Except.bind, pure, Except.pure, StoredNode.of, hk, levelAboveAll]
    | some k =>
      have hk' : k < 2 ^ 32 := hfits.levels _ (List.getElem_mem hi) k hk
      have hmax : max l (levelAbove k) < 2 ^ 32 := Nat.max_lt.mpr ⟨hl, levelAbove_lt k⟩
      have hrest := raise_ofGraph hfits ids hmax fun j hj => h j (List.mem_cons_of_mem i hj)
      simp only [bind, Except.bind, StoredNode.of, hk, Option.map_some, levelAfter_ofNat hk',
        max_ofNat hl (levelAbove_lt k), hrest, levelAboveAll, Option.map_map]
      congr 2
      funext m
      simp only [Function.comp_apply, Nat.max_assoc]

theorem raise_append (s : Store) (level : UInt32) (ids ids' : List UInt32) :
    s.raise level (ids ++ ids') = (s.raise level ids >>= fun raised =>
      raised.elim (.ok none) fun level => s.raise level ids') := by
  induction ids generalizing level with
  | nil => rfl
  | cons id ids ih =>
    rw [List.cons_append, raise, raise]
    cases s.node id with
    | error f => rfl
    | ok n =>
      simp only [bind, Except.bind]
      cases n.level with
      | none => rfl
      | some l => exact ih _

/-- Raising a level above those of the consumers of some buffers. -/
theorem raiseAll_ofGraph (hfits : g.Fits) :
    ∀ (bs : List Nat) (level : UInt32), (∀ b ∈ bs, b < g.buffers.length) →
      (ofGraph g).raiseAll level (bs.map UInt32.ofNat) =
        (ofGraph g).raise level ((bs.flatMap g.consumers).map UInt32.ofNat)
  | [], _, _ => rfl
  | b :: bs, level, h => by
    have hb : b < g.buffers.length := h b List.mem_cons_self
    have hconsumers : g.consumers b = g.buffers[b].consumers := by
      rw [Graph.consumers, List.getElem?_eq_getElem hb]
    rw [List.map_cons, raiseAll, buffer_ofGraph hfits hb, List.flatMap_cons, List.map_append,
      raise_append, hconsumers]
    simp only [bind, Except.bind, StoredBuffer.of]
    cases (ofGraph g).raise level (g.buffers[b].consumers.map UInt32.ofNat) with
    | error f => rfl
    | ok raised =>
      cases raised with
      | none => rfl
      | some level =>
        exact raiseAll_ofGraph hfits bs level fun c hc => h c (List.mem_cons_of_mem b hc)

/-- The ports of a node name buffers, and those name nodes as its successors. -/
structure PortsIn (g : Graph) (n : Node) : Prop where
  outputs : ∀ b ∈ n.outputs, b < g.buffers.length
  successors : ∀ m ∈ g.successors n, m < g.nodes.length

theorem portsIn_of_mirrors (hg : g.Mirrors) {n : Node} (hn : n ∈ g.nodes) : PortsIn g n := by
  obtain ⟨i, hi⟩ := List.mem_iff_getElem?.mp hn
  refine ⟨fun b hb => hg.outputs.lt i b ⟨n, hi, hb⟩, fun m hm => ?_⟩
  obtain ⟨b, -, hreads⟩ := (hg.mem_successors hi).mp hm
  exact hreads.lt

/-- What a round finds out about a node of a graph. -/
def readinessOf (g : Graph) (options : Options) (n : Node) : Readiness :=
  if (g.blockers options n).isEmpty then
    (g.readyLevel? options n).elim .waiting fun l => .ready (.ofNat l)
  else .blocked ((g.blockers options n).map .ofNat)

theorem filterChecked_isShared (hfits : g.Fits) {bs : List Nat}
    (h : ∀ b ∈ bs, b < g.buffers.length) :
    filterChecked (fun id => return (← (ofGraph g).buffer id).isShared) (bs.map UInt32.ofNat) =
      .ok ((bs.filter g.isShared).map UInt32.ofNat) := by
  have hnat : ∀ b ∈ bs, (UInt32.ofNat b).toNat = b := fun b hb =>
    UInt32.toNat_ofNat_of_lt' (Nat.lt_trans (h b hb) hfits.buffers)
  rw [filterChecked_eq (p := fun id => g.isShared id.toNat), List.filter_map]
  · refine congrArg (fun bs => Except.ok (List.map UInt32.ofNat bs)) ?_
    exact List.filter_congr fun b hb => congrArg g.isShared (hnat b hb)
  · intro id hid
    obtain ⟨b, hb, rfl⟩ := List.mem_map.mp hid
    rw [buffer_ofGraph hfits (h b hb), hnat b hb, Graph.isShared,
      List.getElem?_eq_getElem (h b hb)]
    exact congrArg Except.ok (isShared_of b _)

theorem raiseAll_outputs (hfits : g.Fits) {n : Node} (hports : PortsIn g n) :
    (ofGraph g).raiseAll 0 (n.outputs.map UInt32.ofNat) =
      .ok ((levelAboveAll ((g.successors n).map g.level?)).map UInt32.ofNat) := by
  have hraise := raise_ofGraph hfits (g.successors n) (show 0 < 2 ^ 32 by decide) hports.successors
  simp only [Nat.zero_max] at hraise
  rw [raiseAll_ofGraph hfits n.outputs 0 hports.outputs]
  exact hraise

theorem readyLevel?_of_blockers_eq_nil {n : Node} (hlevel : n.level = none)
    (h : g.blockers options n = []) :
    g.readyLevel? options n = levelAboveAll ((g.successors n).map g.level?) := by
  rw [Graph.blockers, hlevel] at h
  rw [Graph.readyLevel?, hlevel]
  cases hignore : options.ignoreViolations with
  | true => rfl
  | false =>
    have hfree : g.isBlocked n = false := by
      simp only [hignore, Option.isSome_none, Bool.or_self, Bool.false_eq_true, if_false,
        List.filter_eq_nil_iff, Bool.not_eq_true] at h
      exact List.any_eq_false.mpr fun b hb => by simp [h b hb]
    simp [hfree]

theorem readyLevel?_of_blockers_ne_nil {n : Node} (h : g.blockers options n ≠ []) :
    n.level = none ∧ g.readyLevel? options n = none := by
  obtain ⟨b, hb⟩ := List.exists_mem_of_ne_nil _ h
  obtain ⟨hstrict, hlevel, hout, hshared⟩ := Graph.mem_blockers.mp hb
  have hblocked : g.isBlocked n = true := List.any_eq_true.mpr ⟨b, hout, hshared⟩
  refine ⟨hlevel, ?_⟩
  simp [Graph.readyLevel?, hlevel, hstrict, hblocked]

theorem readiness_ofGraph (hfits : g.Fits) {n : Node} (hports : PortsIn g n) (i : Nat)
    (hlevel : n.level = none) :
    (ofGraph g).readiness options (.of i n) = .ok (readinessOf g options n) := by
  have hshared : (ofGraph g).sharedOutputs options (.of i n) =
      .ok ((g.blockers options n).map UInt32.ofNat) := by
    rw [sharedOutputs, Graph.blockers, hlevel]
    cases options.ignoreViolations with
    | true => rfl
    | false => exact filterChecked_isShared hfits hports.outputs
  rw [readiness, hshared, readinessOf]
  simp only [bind, Except.bind, List.isEmpty_map]
  by_cases hfree : g.blockers options n = []
  · rw [hfree, if_pos List.isEmpty_nil, if_pos List.isEmpty_nil,
      readyLevel?_of_blockers_eq_nil hlevel hfree, show (StoredNode.of i n).outputs =
        n.outputs.map UInt32.ofNat from rfl, raiseAll_outputs hfits hports]
    cases levelAboveAll ((g.successors n).map g.level?) <;> rfl
  · have hne : (g.blockers options n).isEmpty = false := by simpa using hfree
    simp only [hne, Bool.false_eq_true, if_false]
    rfl

/-! ## Rounds -/

/-- The nodes that a round finds ready among some nodes, the first of them at place `k`. -/
def readyFrom (g : Graph) (options : Options) (k : Nat) (ns : List Node) :
    List (UInt32 × UInt32) :=
  (ns.zipIdx k).filterMap fun x =>
    (g.readyLevel? options x.1).map fun l => (UInt32.ofNat x.2, UInt32.ofNat l)

def blockedFrom (g : Graph) (options : Options) (k : Nat) (ns : List Node) : List (Nat × Nat) :=
  (ns.zipIdx k).flatMap fun x => (g.blockers options x.1).map fun b => (x.2, b)

theorem scan_ofGraph (options : Options) (hfits : g.Fits) (hg : g.Mirrors) :
    ∀ (ns : List Node) (k : Nat), (∀ n ∈ ns, n ∈ g.nodes) → k + ns.length ≤ g.nodes.length →
      (ofGraph g).scan options (ns.mapIdx fun i => StoredNode.of (k + i)) =
        .ok ⟨readyFrom g options k ns, blockedFrom g options k ns⟩
  | [], _, _, _ => rfl
  | n :: ns, k, hmem, hlength => by
    have hports := portsIn_of_mirrors hg (hmem n List.mem_cons_self)
    have hrest := scan_ofGraph options hfits hg ns (k + 1)
      (fun m hm => hmem m (List.mem_cons_of_mem n hm)) (by rw [List.length_cons] at hlength; omega)
    have hcons : ((n :: ns).mapIdx fun i => StoredNode.of (k + i)) =
        StoredNode.of k n :: ns.mapIdx fun i => StoredNode.of (k + 1 + i) := by
      rw [List.mapIdx_cons, Nat.add_zero]
      congr 2
      funext i
      rw [Nat.add_assoc, Nat.add_comm 1 i]
    rw [hcons, scan, readyFrom, blockedFrom, List.zipIdx_cons, List.filterMap_cons,
      List.flatMap_cons]
    cases hlevel : n.level with
    | some l =>
      have hsome : (StoredNode.of k n).level.isSome = true := by simp [StoredNode.of, hlevel]
      have hready : g.readyLevel? options n = none := by simp [Graph.readyLevel?, hlevel]
      have hblockers : g.blockers options n = [] := by simp [Graph.blockers, hlevel]
      rw [if_pos hsome, hrest]
      simp only [hready, hblockers, Option.map_none, List.map_nil, List.nil_append]
      rfl
    | none =>
      have hnone : ¬ (StoredNode.of k n).level.isSome = true := by simp [StoredNode.of, hlevel]
      rw [if_neg hnone, readiness_ofGraph hfits hports k hlevel, hrest, readinessOf]
      simp only [bind, Except.bind]
      by_cases hfree : g.blockers options n = []
      · rw [if_pos (by rw [hfree]; rfl), hfree]
        cases g.readyLevel? options n <;> rfl
      · have hready := (readyLevel?_of_blockers_ne_nil hfree).2
        have hk : (StoredNode.of k n).id.toNat = k := by
          have := hfits.nodes
          rw [List.length_cons] at hlength
          exact UInt32.toNat_ofNat_of_lt' (show k < 2 ^ 32 by omega)
        have hpairs : ((g.blockers options n).map UInt32.ofNat).map
            (fun b => ((StoredNode.of k n).id.toNat, b.toNat)) =
              (g.blockers options n).map fun b => (k, b) := by
          rw [List.map_map]
          refine List.map_congr_left fun b hb => ?_
          have hout := (Graph.mem_blockers.mp hb).2.2.1
          rw [Function.comp_apply, hk, UInt32.toNat_ofNat_of_lt'
            (Nat.lt_trans (hports.outputs b hout) hfits.buffers)]
        rw [if_neg (by simpa using hfree), hready]
        simp only [hpairs]
        rfl

theorem set_ofGraph (g : Graph) (i : Nat) (n : Node) :
    { ofGraph g with nodes := (ofGraph g).nodes.set i (.of i n) } =
      ofGraph { g with nodes := g.nodes.set i n } := by
  have hset : (g.nodes.mapIdx StoredNode.of).set i (.of i n) =
      (g.nodes.set i n).mapIdx StoredNode.of := by
    refine List.ext_getElem? fun j => ?_
    simp only [List.getElem?_set, List.getElem?_mapIdx, List.length_mapIdx]
    by_cases hij : i = j
    · subst hij
      by_cases hi : i < g.nodes.length <;> simp [hi]
    · simp [hij]
  simp only [ofGraph, hset, List.length_set]

/-- Levelling nodes of a store one after the other levels them in its graph. -/
theorem commit_ofGraph {f : Node → Option Nat} (hf : ∀ n l, f n = some l → n.level = none) :
    ∀ (ns before : List Node), before.length + ns.length < 2 ^ 32 →
      (ofGraph { g with nodes := before ++ ns }).commit
        ((ns.zipIdx before.length).filterMap fun x =>
          (f x.1).map fun l => (UInt32.ofNat x.2, UInt32.ofNat l)) =
        .ok (ofGraph { g with nodes := before ++ ns.map fun n => (f n).elim n n.assign })
  | [], _, _ => rfl
  | n :: ns, before, h => by
    rw [List.length_cons] at h
    rw [List.zipIdx_cons, List.filterMap_cons, List.map_cons]
    have hlength : ∀ m : Node, (before ++ [m]).length = before.length + 1 := fun _ =>
      List.length_append
    cases hn : f n with
    | none =>
      have hrest := commit_ofGraph hf ns (before ++ [n]) (by rw [hlength]; omega)
      simp only [hlength, List.append_assoc, List.singleton_append] at hrest
      exact hrest
    | some l =>
      have hrest := commit_ofGraph hf ns (before ++ [n.assign l]) (by rw [hlength]; omega)
      simp only [hlength, List.append_assoc, List.singleton_append] at hrest
      have hid : (UInt32.ofNat before.length).toNat = before.length :=
        UInt32.toNat_ofNat_of_lt' (show before.length < 2 ^ 32 by omega)
      have hlevel := hf n l hn
      have hassign : (StoredNode.of before.length n).assign (.ofNat l) =
          .of before.length (n.assign l) := by
        simp [StoredNode.assign, StoredNode.of, Node.assign, hlevel]
      have hget : (ofGraph { g with nodes := before ++ n :: ns }).nodes[before.length]? =
          some (.of before.length n) := by
        simp [ofGraph]
      simp only [Option.map_some, commit, hid, hget, hassign]
      rw [if_neg (by simp [StoredNode.of, hlevel]), set_ofGraph]
      simp only [List.set_append_right _ _ (Nat.le_refl _), Nat.sub_self, List.set_cons_zero]
      exact hrest

/-- A round on the store of a graph. -/
theorem commit_readyFrom (hfits : g.Fits) :
    (ofGraph g).commit (readyFrom g options 0 g.nodes) = .ok (ofGraph (g.advance options)) := by
  have hcommit := commit_ofGraph (g := g) (f := g.readyLevel? options)
    (fun n l => Graph.level_eq_none_of_readyLevel?) g.nodes [] (by simpa using hfits.nodes)
  have hadvance : (g.nodes.map fun n => (g.readyLevel? options n).elim n n.assign) =
      g.nodes.map (g.advanceNode options) := by
    refine List.map_congr_left fun n _ => ?_
    rw [Graph.advanceNode]
    cases g.readyLevel? options n <;> rfl
  rw [hadvance] at hcommit
  exact hcommit

theorem length_readyFrom (g : Graph) (options : Options) (ns : List Node) (k : Nat) :
    (readyFrom g options k ns).length = ns.countP fun n => (g.readyLevel? options n).isSome := by
  induction ns generalizing k with
  | nil => rfl
  | cons n ns ih =>
    rw [readyFrom, List.zipIdx_cons, List.filterMap_cons, List.countP_cons, ← ih (k + 1)]
    cases g.readyLevel? options n <;> rfl

theorem levelAboveAll_lt : ∀ {ls : List (Option Nat)} {l : Nat},
    levelAboveAll ls = some l → l < 2 ^ 32
  | [], l, h => by
    cases h
    decide
  | none :: _, l, h => by cases h
  | some k :: ls, l, h => by
    obtain ⟨m, hm, rfl⟩ := Option.map_eq_some_iff.mp h
    exact Nat.max_lt.mpr ⟨levelAbove_lt k, levelAboveAll_lt hm⟩

theorem fits_advance (h : g.Fits) : (g.advance options).Fits := by
  refine ⟨by simpa [Graph.advance] using h.nodes, h.buffers, h.regions, fun n hn l hl => ?_⟩
  obtain ⟨n₀, hn₀, rfl⟩ := List.mem_map.mp hn
  rw [Graph.advanceNode] at hl
  cases hready : g.readyLevel? options n₀ with
  | none =>
    rw [hready] at hl
    exact h.levels n₀ hn₀ l hl
  | some k =>
    have hlevel := Graph.level_eq_none_of_readyLevel? hready
    simp only [hready, Node.assign, hlevel, Option.mem_def, Option.some.injEq] at hl
    exact hl ▸ levelAboveAll_lt (Graph.readyLevel?_eq_some_iff.mp hready).2.2

/-- The rounds of a run on the store of a graph. -/
theorem rounds_ofGraph (hfits : g.Fits) (hg : g.Mirrors) {c : Nat} (hc : o.Reaches c) :
    (ofGraph g).rounds o options (UInt32.ofNat c) =
      o.counted (c + (g.blockedInRounds options).length)
        (.ok ⟨ofGraph (g.settle options).1,
          UInt32.ofNat (c + (g.blockedInRounds options).length), (g.settle options).2,
          (g.blockedInRounds options).flatten⟩) := by
  have hscan : ∀ g : Graph, g.Fits → g.Mirrors → (ofGraph g).scan options (ofGraph g).nodes =
      .ok ⟨readyFrom g options 0 g.nodes, g.blockedNow options⟩ := by
    intro g hfits hg
    have hall := scan_ofGraph options hfits hg g.nodes 0 (fun _ h => h) (by omega)
    simp only [Nat.zero_add] at hall
    exact hall
  induction g using Graph.settle.induct options generalizing c with
  | case1 g _ h =>
    have hready : readyFrom g options 0 g.nodes = [] := by
      rw [← List.length_eq_zero_iff, length_readyFrom]
      exact h
    rw [rounds, Overflow.next_ofNat hc, Graph.blockedInRounds_of_none_ready h,
      Graph.settle_of_none_ready h, List.length_singleton, List.flatten_singleton]
    by_cases hnext : o.Reaches (c + 1)
    · simp only [Overflow.counted_of_reaches hnext, hscan g hfits hg, hready, if_true]
    · simp only [Overflow.counted_of_not_reaches hnext]
  | case2 g _ h _ _ _ ih =>
    have hready : readyFrom g options 0 g.nodes ≠ [] := by
      rw [← List.length_pos_iff, length_readyFrom]
      exact Nat.pos_of_ne_zero h
    have hlength : c + (g.blockedInRounds options).length =
        c + 1 + ((g.advance options).blockedInRounds options).length := by
      rw [Graph.blockedInRounds_of_some_ready h, List.length_cons]
      omega
    rw [rounds, Overflow.next_ofNat hc, hlength]
    by_cases hnext : o.Reaches (c + 1)
    · have hrest := ih (fits_advance hfits) hg.advance hnext
      simp only [Overflow.counted_of_reaches hnext, hscan g hfits hg, hready, if_false]
      split
      · next f hf =>
        rw [commit_readyFrom hfits] at hf
        cases hf
      · next s' hs' =>
        rw [commit_readyFrom hfits] at hs'
        cases hs'
        rw [hrest, Graph.settle_of_some_ready h, Graph.blockedInRounds_of_some_ready h,
          List.flatten_cons, length_readyFrom, Overflow.counted, Overflow.counted]
        split <;> rfl
    · rw [Overflow.counted_of_not_reaches hnext, Overflow.counted_of_not_reaches]
      exact fun h => hnext (h.mono (by omega))

/-! ## Scheduling -/

/-- The numbers of the parts that pass a test are the places of these parts. -/
theorem map_filter_mapIdx {α β : Type} {part : Nat → α → β} {id : β → Nat} (p : β → Bool)
    {q : α → Bool} (hp : ∀ i a, p (part i a) = q a) {xs : List α}
    (hid : ∀ i < xs.length, ∀ a, id (part i a) = i) :
    ((xs.mapIdx part).filter p).map id = (List.range xs.length).filter fun i => xs[i]?.any q := by
  induction xs using List.reverseRecOn with
  | nil => rfl
  | append_singleton xs x ih =>
    rw [List.length_append, List.length_singleton] at hid
    have hinit : ((List.range xs.length).filter fun i => (xs ++ [x])[i]?.any q) =
        (List.range xs.length).filter fun i => xs[i]?.any q :=
      List.filter_congr fun i hi => by rw [List.getElem?_append_left (List.mem_range.mp hi)]
    rw [List.mapIdx_concat, List.filter_append, List.map_append,
      ih fun i hi => hid i (Nat.lt_succ_of_lt hi), List.length_append, List.length_singleton,
      List.range_succ, List.filter_append, hinit]
    by_cases hx : q x
    · simp [hp, hx, hid xs.length (Nat.lt_succ_self _)]
    · simp [hp, hx]

/-- The nodes without a level, by their numbers. -/
theorem unscheduled_ofGraph (hfits : g.Fits) :
    (((ofGraph g).nodes.filter fun n => n.level.isNone).map fun n => n.id.toNat) = g.pending := by
  have hid : ∀ i < g.nodes.length, ∀ n, (StoredNode.of i n).id.toNat = i := fun i hi _ =>
    UInt32.toNat_ofNat_of_lt' (Nat.lt_trans hi hfits.nodes)
  have hnone : ∀ i n, (StoredNode.of i n).level.isNone = n.level.isNone := fun _ _ =>
    Option.isNone_map
  refine (map_filter_mapIdx (fun n : StoredNode => n.level.isNone) hnone hid).trans ?_
  refine List.filter_congr fun i hi => ?_
  have hi := List.mem_range.mp hi
  rw [Graph.isLevelled, Graph.level?, List.getElem?_eq_getElem hi, Option.any_some,
    Option.bind_some, Option.not_isSome]

theorem fits_settle (h : g.Fits) : (g.settle options).1.Fits :=
  Graph.settle_induction (fun _ => fits_advance) h

/-- The schedule with its rounds as a counter of 32 bits shows them. -/
def wrapRounds (s : Schedule) : Schedule := { s with rounds := (UInt32.ofNat s.rounds).toNat }

/-- Scheduling the store of a graph. -/
theorem schedule_ofGraph (hfits : g.Fits) (hg : g.Mirrors) :
    (ofGraph g).schedule o options = o.counted (g.schedule options).2.rounds
      (.ok (ofGraph (g.schedule options).1, wrapRounds (g.schedule options).2)) := by
  have hrounds : (ofGraph g).rounds o options 0 = _ :=
    rounds_ofGraph hfits hg (.inr (by decide : 0 < 2 ^ 32))
  have hend : (g.settle options).1.Fits := fits_settle hfits
  have hlength : (g.settle options).1.nodes.length = g.nodes.length :=
    Graph.settle_induction (P := fun g' => g'.nodes.length = g.nodes.length)
      (fun g' h => (List.length_map _).trans h) rfl
  have hnodes : ∀ v ∈ distinctPairs (g.blockedInRounds options).flatten,
      v.1 < g.nodes.length := fun v hv =>
    (Graph.shared_of_mem_blockedInRounds (mem_distinctPairs.mp hv)).2.1.lt
  have hstats : (g.schedule options).2.rounds = (g.blockedInRounds options).length := rfl
  rw [schedule, hrounds, Nat.zero_add, hstats, Overflow.counted, Overflow.counted]
  by_cases hreaches : o.Reaches (g.blockedInRounds options).length
  · have hviolations : filterChecked
        (fun v => return !(← (ofGraph (g.settle options).1).isLevelled (UInt32.ofNat v.1)))
        (distinctPairs (g.blockedInRounds options).flatten) =
          .ok ((distinctPairs (g.blockedInRounds options).flatten).filter fun v =>
            !(g.settle options).1.isLevelled v.1) :=
      filterChecked_eq fun v hv => by
        rw [isLevelled_ofGraph hend (hlength ▸ hnodes v hv)]
        rfl
    rw [if_pos hreaches, if_pos hreaches]
    simp only [bind, Except.bind] at hviolations ⊢
    rw [hviolations, unscheduled_ofGraph hend]
    rfl
  · rw [if_neg hreaches, if_neg hreaches]
    rfl

/-! ## Legality -/

theorem isLegal_ofGraph (hfits : g.Fits) (hg : g.RegionsListed) {r : StoredRegion}
    (hr : r ∈ (ofGraph g).regions) :
    (ofGraph g).isLegal r = .ok (r.nodes.all fun id => g.isLevelled id.toNat) := by
  obtain ⟨i, hi, rfl⟩ := List.mem_mapIdx.mp hr
  have hnodes : ∀ n ∈ g.regions[i].nodes, n < g.nodes.length := fun n hn =>
    (((hg.listed i _ (List.getElem?_eq_getElem hi)).mem_iff n).mp hn).lt
  refine allM_eq fun id hid => ?_
  obtain ⟨n, hn, rfl⟩ := List.mem_map.mp hid
  rw [isLevelled_ofGraph hfits (hnodes n hn),
    UInt32.toNat_ofNat_of_lt' (Nat.lt_trans (hnodes n hn) hfits.nodes)]

theorem all_of (hfits : g.Fits) (hg : g.RegionsListed) {r : Region} (hr : r ∈ g.regions) (i : Nat) :
    ((StoredRegion.of i r).nodes.all fun id => g.isLevelled id.toNat) = g.isLegal r := by
  obtain ⟨i, hi⟩ := List.mem_iff_getElem?.mp hr
  rw [StoredRegion.of, List.all_map, Graph.isLegal]
  rw [Bool.eq_iff_iff, List.all_eq_true, List.all_eq_true]
  refine forall₂_congr fun n hn => ?_
  have hlt := (((hg.listed i r hi).mem_iff n).mp hn).lt
  rw [Function.comp_apply, UInt32.toNat_ofNat_of_lt' (Nat.lt_trans hlt hfits.nodes)]

theorem checkLegality_ofGraph (hfits : g.Fits) (hg : g.RegionsListed) :
    (ofGraph g).checkLegality options =
      .ok (ofGraph (g.checkLegality options).1, (g.checkLegality options).2) := by
  rw [checkLegality, Graph.checkLegality]
  split
  · rfl
  · have hmarks := mapM_eq fun r hr => isLegal_ofGraph hfits hg (r := r) hr
    have hregions : ((ofGraph g).regions.zipWith (fun r legal => { r with legal })
        ((ofGraph g).regions.map fun r => r.nodes.all fun id => g.isLevelled id.toNat)) =
          (g.regions.map fun r => { r with legal := g.isLegal r }).mapIdx StoredRegion.of := by
      refine List.ext_getElem? fun i => ?_
      simp only [ofGraph, List.getElem?_zipWith, List.getElem?_map, List.getElem?_mapIdx]
      cases hr : g.regions[i]? with
      | none => rfl
      | some r =>
        have hlegal := all_of hfits hg (List.mem_of_getElem? hr) i
        simp only [Option.map_some, hlegal]
        rfl
    have hillegal : (((g.regions.map fun r => { r with legal := g.isLegal r }).mapIdx
        StoredRegion.of).filter fun r => !r.legal).map (fun r => r.id.toNat) =
          g.illegalRegions := by
      have hid : ∀ i < (g.regions.map fun r => { r with legal := g.isLegal r }).length,
          ∀ r, (StoredRegion.of i r).id.toNat = i := fun i hi _ =>
        UInt32.toNat_ofNat_of_lt' (Nat.lt_trans (List.length_map _ ▸ hi) hfits.regions)
      refine (map_filter_mapIdx (fun r : StoredRegion => !r.legal) (q := fun r => !r.legal)
        (fun _ _ => rfl) hid).trans ?_
      rw [List.length_map]
      refine List.filter_congr fun i _ => ?_
      rw [List.getElem?_map]
      cases g.regions[i]? <;> rfl
    simp only [bind, Except.bind, hmarks, hregions, hillegal, pure, Except.pure]
    simp only [ofGraph, List.length_map]

end Store

end Bankflow.Dataflow
