import Bankflow.Proofs.Bank.Plan

/-!
# Banking nest by nest

Banking can be done in place: the nests are taken one after the other, the decisions for a
nest are made on the design as it then stands, and each of them changes the layout of its
array and is noted as the latest for it (`Banking.bankNest`). Decisions look at shapes and
never at layouts, so this ends with the design and the plan that `Design.bank` gives at once
(`Design.bank_eq_inTurn`).

The plan then matches the design (`Design.plan_matches_banked`): the layouts are those of the
last decisions, each nest has its decisions in order, and each entry tells which kind of
decision it took the place of.
-/

namespace Bankflow

/-! ## In place -/

/-- Where banking stands after some of the nests. -/
structure Banking where
  /-- The design with the layouts installed so far. -/
  design : Design
  /-- The kind of the latest decision for each array. -/
  lastKind : Nat → Option AccessKind
  plan : Plan

namespace Banking

def start (d : Design) : Banking := ⟨d, fun _ => none, .empty⟩

/-- Installs the layout of a decision, and notes the decision. -/
def install (s : Banking) (dec : Decision) : Banking where
  design := s.design.setLayout dec.array dec.layout
  lastKind i := if i = dec.array then some dec.kind else s.lastKind i
  plan := ⟨s.plan.applied ++ [⟨dec, s.lastKind dec.array⟩], s.plan.loops⟩

/-- Notes the pipelined loop of a nest. -/
def noteLoop (s : Banking) (loop : Option Nat) : Banking :=
  { s with plan := ⟨s.plan.applied, s.plan.loops ++ [loop]⟩ }

/-- Notes the pipelined loop of a nest, then installs what is decided for it. -/
def bankNest (s : Banking) (n : Nest) : Banking :=
  (s.design.nestDecisions n).foldl install (s.noteLoop (n.pipelined?.map (·.1.id)))

/-- Banks a design for some nests, one after the other. -/
def bankNests (d : Design) (ns : List Nest) : Banking := ns.foldl bankNest (start d)

end Banking

/-- The decisions made for the nest at position `k`, once those before it are banked. -/
def Design.decisionsAt (d : Design) (k : Nat) : List Decision :=
  match d.nests[k]? with
  | some n => (Banking.bankNests d (d.nests.take k)).design.nestDecisions n
  | none => []

/-! ## Decisions look at shapes -/

theorem applyAfter_append :
    ∀ (earlier ds ds' : List Decision), applyAfter earlier (ds ++ ds') =
      applyAfter earlier ds ++ applyAfter (ds.reverse ++ earlier) ds'
  | _, [], _ => rfl
  | earlier, dec :: ds, ds' => by
    rw [List.cons_append, applyAfter, applyAfter, applyAfter_append (dec :: earlier) ds ds',
      List.reverse_cons, List.append_assoc, List.singleton_append, List.cons_append]

namespace Design

variable {d d' : Design}

theorem install_append : ∀ (as bs : List Applied) (d : Design),
    d.install (as ++ bs) = (d.install as).install bs
  | [], _, _ => rfl
  | a :: as, bs, d => install_append as bs (d.setLayout a.decision.array a.decision.layout)

theorem length_memories_install : ∀ (as : List Applied) (d : Design),
    (d.install as).memories.length = d.memories.length
  | [], _ => rfl
  | a :: as, d => by rw [install, length_memories_install as, setLayout, List.length_modify]

/-- Designs whose arrays have the same shapes. -/
def SameShapes (d d' : Design) : Prop :=
  ∀ i : Nat, (d.memories[i]?).map (·.shape) = (d'.memories[i]?).map (·.shape)

theorem sameShapes_install (d : Design) (as : List Applied) : (d.install as).SameShapes d := by
  intro i
  rw [getElem?_install, Option.map_map]
  rfl

theorem SameShapes.nestDecisions_eq (h : d.SameShapes d') (n : Nest) :
    d.nestDecisions n = d'.nestDecisions n := by
  have hkind : ∀ kind, d.decisionsOf kind n.pipelinedAccesses =
      d'.decisionsOf kind n.pipelinedAccesses := by
    intro kind
    refine List.filterMap_congr fun x _ => ?_
    have hmap (e : Design) : ((e.memories[x.1]?).map fun m => Decision.of x.1 kind m.shape x.2) =
        ((e.memories[x.1]?).map (·.shape)).map fun shape => Decision.of x.1 kind shape x.2 := by
      rw [Option.map_map]
      rfl
    exact (hmap d).trans (h x.1 ▸ (hmap d').symm)
  rw [nestDecisions, nestDecisions, hkind, hkind]

end Design

/-! ## One decision, one nest, all nests -/

namespace Banking

variable {d : Design} {s : Banking} {earlier : List Decision}

/-- The latest kinds are those of the given decisions, the latest of them first. -/
def Remembers (s : Banking) (earlier : List Decision) : Prop :=
  ∀ i, s.lastKind i = (earlier.find? (·.array = i)).map (·.kind)

theorem Remembers.install (h : s.Remembers earlier) (dec : Decision) :
    (s.install dec).Remembers (dec :: earlier) := by
  intro i
  rw [Banking.install, List.find?_cons]
  by_cases hi : i = dec.array
  · simp [hi]
  · simp [hi, Ne.symm hi, h i]

theorem Remembers.foldl_install : ∀ {ds earlier : List Decision} {s : Banking},
    s.Remembers earlier → (ds.foldl Banking.install s).Remembers (ds.reverse ++ earlier)
  | [], _, _, h => h
  | dec :: ds, earlier, s, h => by
    rw [List.foldl_cons, List.reverse_cons, List.append_assoc]
    exact (h.install dec).foldl_install

theorem Remembers.design_foldl_install : ∀ {ds earlier : List Decision} {s : Banking},
    s.Remembers earlier →
      (ds.foldl Banking.install s).design = s.design.install (applyAfter earlier ds)
  | [], _, _, _ => rfl
  | dec :: ds, earlier, s, h => by
    rw [List.foldl_cons, (h.install dec).design_foldl_install, applyAfter, Design.install]
    rfl

theorem Remembers.plan_foldl_install : ∀ (ds : List Decision) {earlier : List Decision}
    {s : Banking}, s.Remembers earlier → (ds.foldl Banking.install s).plan =
      ⟨s.plan.applied ++ applyAfter earlier ds, s.plan.loops⟩
  | [], _, s, _ => by rw [applyAfter, List.append_nil]; rfl
  | dec :: ds, earlier, s, h => by
    rw [List.foldl_cons, plan_foldl_install ds (h.install dec), applyAfter, Banking.install,
      List.append_assoc, List.singleton_append, h dec.array]

/-- The state after some nests: their decisions are those for the design as it was at first,
and they are installed and noted. -/
structure After (d : Design) (ns : List Nest) (s : Banking) : Prop where
  design_eq : s.design = d.install s.plan.applied
  plan_eq : s.plan =
    ⟨applyAfter [] (ns.flatMap d.nestDecisions), ns.map fun n => n.pipelined?.map (·.1.id)⟩
  remembers : s.Remembers (ns.flatMap d.nestDecisions).reverse

theorem after_start (d : Design) : After d [] (start d) := ⟨rfl, rfl, fun _ => rfl⟩

/-- A step: banking one more nest. -/
theorem After.bankNest {ns : List Nest} (h : After d ns s) (n : Nest) :
    After d (ns ++ [n]) (s.bankNest n) := by
  have hdecisions : s.design.nestDecisions n = d.nestDecisions n := by
    rw [h.design_eq]
    exact (d.sameShapes_install _).nestDecisions_eq n
  have hflat : (ns ++ [n]).flatMap d.nestDecisions =
      ns.flatMap d.nestDecisions ++ d.nestDecisions n := by
    rw [List.flatMap_append, List.flatMap_singleton]
  have hnoted : (s.noteLoop (n.pipelined?.map (·.1.id))).Remembers
      (ns.flatMap d.nestDecisions).reverse := h.remembers
  have hplan := hnoted.plan_foldl_install (d.nestDecisions n)
  have happlied : s.plan.applied ++
      applyAfter (ns.flatMap d.nestDecisions).reverse (d.nestDecisions n) =
        applyAfter [] ((ns ++ [n]).flatMap d.nestDecisions) := by
    rw [hflat, applyAfter_append, List.append_nil, h.plan_eq]
  rw [Banking.bankNest, hdecisions]
  refine ⟨?_, ?_, ?_⟩
  · rw [hnoted.design_foldl_install, hplan, noteLoop, h.design_eq, Design.install_append]
  · rw [hplan, noteLoop, happlied, h.plan_eq, List.map_append, List.map_singleton]
  · rw [hflat, List.reverse_append]
    exact hnoted.foldl_install

/-- A run: banking any nests. -/
theorem after_bankNests (d : Design) (ns : List Nest) : After d ns (bankNests d ns) := by
  have hrun : ∀ (ns done : List Nest) (s : Banking), After d done s →
      After d (done ++ ns) (ns.foldl Banking.bankNest s) := by
    intro ns
    induction ns with
    | nil =>
      intro done s h
      rw [List.append_nil]
      exact h
    | cons n ns ih =>
      intro done s h
      rw [List.append_cons]
      exact ih (done ++ [n]) _ (h.bankNest n)
  exact hrun ns [] (start d) (after_start d)

end Banking

namespace Design

/-- In place, banking ends with the same design and the same plan. -/
theorem bank_eq_inTurn (d : Design) :
    d.bank = ((Banking.bankNests d d.nests).design, (Banking.bankNests d d.nests).plan) := by
  have h := Banking.after_bankNests d d.nests
  rw [h.design_eq, h.plan_eq]
  rfl

theorem decisionsAt_eq {d : Design} {k : Nat} {n : Nest} (h : d.nests[k]? = some n) :
    d.decisionsAt k = d.nestDecisions n := by
  simp only [decisionsAt, h]
  rw [(Banking.after_bankNests d (d.nests.take k)).design_eq]
  exact (d.sameShapes_install _).nestDecisions_eq n

/-- The plan has the decisions of one nest after those of another. -/
theorem map_decision_plan_eq_decisionsAt (d : Design) :
    d.plan.applied.map (·.decision) = (List.range d.nests.length).flatMap d.decisionsAt := by
  have hnests : (List.range d.nests.length).map d.decisionsAt = d.nests.map d.nestDecisions := by
    refine List.ext_getElem (by simp) fun k hk hk' => ?_
    rw [List.length_map] at hk'
    rw [List.getElem_map, List.getElem_map, List.getElem_range,
      decisionsAt_eq (List.getElem?_eq_getElem hk')]
  rw [map_decision_plan, List.flatMap_def, List.flatMap_def, hnests]

end Design

/-! ## The decisions for one nest -/

/-- Reads come before writes, and the arrays of either ascend. -/
def Decision.Before (x y : Decision) : Prop :=
  x.kind = .read ∧ y.kind = .write ∨ x.kind = y.kind ∧ x.array < y.array

/-- Decisions for each array and each way in which it is accessed under the pipelined loop of
a nest, in order. -/
structure Nest.Decided (n : Nest) (ds : List Decision) : Prop where
  ordered : ds.Pairwise Decision.Before
  complete : ∀ kind array, (∃ dec ∈ ds, dec.kind = kind ∧ dec.array = array) ↔
    ∃ head body, n.pipelined? = some (head, body) ∧
      ∃ place a, body.at? place = some (.access a) ∧ a.kind = kind ∧ a.array = array

theorem Nest.mem_pipelinedAccesses {n : Nest} {a : Access} : a ∈ n.pipelinedAccesses ↔
    ∃ head body, n.pipelined? = some (head, body) ∧
      ∃ place, body.at? place = some (.access a) := by
  unfold pipelinedAccesses
  cases n.pipelined? with
  | none => simp
  | some l => simp [Prod.ext_iff, Body.mem_accesses, eq_comm]

namespace Design

variable {d : Design}

theorem pairwise_decisionsOf (kind : AccessKind) (as : List Access) :
    (d.decisionsOf kind as).Pairwise fun x y => x.array < y.array := by
  have hkeys := List.pairwise_map.mp (pairwise_groupByArray kind as)
  refine List.pairwise_filterMap.mpr (hkeys.imp fun hlt x hx y hy => ?_)
  obtain ⟨_, -, rfl⟩ := Option.map_eq_some_iff.mp hx
  obtain ⟨_, -, rfl⟩ := Option.map_eq_some_iff.mp hy
  exact hlt

theorem pairwise_nestDecisions (n : Nest) : (d.nestDecisions n).Pairwise Decision.Before := by
  have hkind : ∀ kind, (d.decisionsOf kind n.pipelinedAccesses).Pairwise Decision.Before := by
    intro kind
    refine (pairwise_decisionsOf kind _).imp_of_mem fun hx hy hlt => .inr ⟨?_, hlt⟩
    rw [(mem_decisionsOf.mp hx).1, (mem_decisionsOf.mp hy).1]
  refine List.pairwise_append.mpr ⟨hkind .read, hkind .write, fun x hx y hy => .inl ⟨?_, ?_⟩⟩
  · exact (mem_decisionsOf.mp hx).1
  · exact (mem_decisionsOf.mp hy).1

theorem decided_nestDecisions {n : Nest} (h : ∀ a ∈ n.accesses, a.array < d.memories.length) :
    n.Decided (d.nestDecisions n) := by
  refine ⟨pairwise_nestDecisions n, fun kind array => ?_⟩
  have harray : (∃ dec ∈ d.nestDecisions n, dec.kind = kind ∧ dec.array = array) ↔
      array ∈ arraysOf kind n.pipelinedAccesses := by
    constructor
    · rintro ⟨dec, hdec, rfl, rfl⟩
      exact (mem_nestDecisions.mp hdec).1
    · intro harray
      obtain ⟨a, ha, -, rfl⟩ := mem_arraysOf.mp harray
      obtain ⟨m, hm⟩ : ∃ m, d.memories[a.array]? = some m :=
        ⟨_, List.getElem?_eq_getElem (h a (n.pipelinedAccesses_sublist.subset ha))⟩
      refine ⟨.of a.array kind m.shape (sitesOf kind a.array n.pipelinedAccesses), ?_, rfl, rfl⟩
      exact mem_nestDecisions.mpr ⟨harray, m, hm, rfl⟩
  rw [harray, mem_arraysOf]
  simp only [Nest.mem_pipelinedAccesses]
  constructor
  · rintro ⟨a, ⟨head, body, hbody, place, hat⟩, ha⟩
    exact ⟨head, body, hbody, place, a, hat, ha⟩
  · rintro ⟨head, body, hbody, place, a, hat, ha⟩
    exact ⟨a, ⟨head, body, hbody, place, hat⟩, ha⟩

end Design

/-! ## The latest decision for an array -/

/-- The last of the first `k` elements for which `p` holds. -/
theorem find?_reverse_take_eq_some_iff {α : Type} {p : α → Bool} {l : List α} {b : α} {k : Nat} :
    (l.take k).reverse.find? p = some b ↔
      ∃ j < k, l[j]? = some b ∧ p b = true ∧
        ∀ i c, j < i → i < k → l[i]? = some c → p c = false := by
  induction k with
  | zero => simp
  | succ k ih =>
    rw [List.take_add_one, List.reverse_append]
    cases hk : l[k]? with
    | none =>
      rw [Option.toList_none, List.reverse_nil, List.nil_append, ih]
      grind
    | some x =>
      rw [Option.toList_some, List.reverse_singleton, List.singleton_append, List.find?_cons]
      cases hx : p x with
      | true => grind
      | false => grind

namespace Plan

/-- The latest entry for an array among the first `k`. -/
def LatestBefore (p : Plan) (k array : Nat) (a : Applied) : Prop :=
  ∃ j < k, p.applied[j]? = some a ∧ a.decision.array = array ∧
    ∀ i c, j < i → i < k → p.applied[i]? = some c → c.decision.array ≠ array

/-- Each entry tells the kind of the latest entry before it for the same array. -/
def Chained (p : Plan) : Prop :=
  ∀ k a, p.applied[k]? = some a →
    (a.replaced = none ↔ ∀ b ∈ p.applied.take k, b.decision.array ≠ a.decision.array) ∧
      ∀ kind, a.replaced = some kind ↔
        ∃ b, p.LatestBefore k a.decision.array b ∧ b.decision.kind = kind

theorem latestBefore_iff {p : Plan} {k array : Nat} {a : Applied} :
    p.LatestBefore k array a ↔
      (p.applied.take k).reverse.find? (·.decision.array = array) = some a := by
  simp only [find?_reverse_take_eq_some_iff, LatestBefore, decide_eq_true_eq,
    decide_eq_false_iff_not, Ne]

/-- The final decision for an array is the latest of all. -/
theorem final?_eq_some_iff {p : Plan} {array : Nat} {dec : Decision} :
    p.final? array = some dec ↔
      ∃ a, p.LatestBefore p.applied.length array a ∧ a.decision = dec := by
  simp only [latestBefore_iff, List.take_length, final?, last?, Option.map_eq_some_iff]

theorem final?_eq_none_iff {p : Plan} {array : Nat} :
    p.final? array = none ↔ ∀ a ∈ p.applied, a.decision.array ≠ array := by
  simp only [final?, last?, Option.map_eq_none_iff, List.find?_eq_none, List.mem_reverse,
    decide_eq_true_eq, Ne]

end Plan

/-- An entry takes the place of the latest decision before it for its array. -/
theorem getElem?_applyAfter :
    ∀ (earlier ds : List Decision) (k : Nat), (applyAfter earlier ds)[k]? =
      (ds[k]?).map fun dec =>
        ⟨dec, (((ds.take k).reverse ++ earlier).find? (·.array = dec.array)).map (·.kind)⟩
  | _, [], _ => rfl
  | _, _ :: _, 0 => rfl
  | earlier, dec :: ds, k + 1 => by
    rw [applyAfter, List.getElem?_cons_succ, List.getElem?_cons_succ,
      getElem?_applyAfter (dec :: earlier) ds k, List.take_succ_cons, List.reverse_cons,
      List.append_assoc, List.singleton_append]

namespace Design

variable {d : Design}

theorem chained_plan (d : Design) : d.plan.Chained := by
  intro k a hk
  have hdecisions := map_decision_applyAfter [] (d.nests.flatMap d.nestDecisions)
  have hreplaced : a.replaced =
      ((d.plan.applied.take k).reverse.find? (·.decision.array = a.decision.array)).map
        (·.decision.kind) := by
    have hentry := hk
    rw [plan, getElem?_applyAfter, ← hdecisions, List.append_nil] at hentry
    obtain ⟨dec, -, rfl⟩ := Option.map_eq_some_iff.mp hentry
    simp only [← List.map_take, ← List.map_reverse, List.find?_map, Option.map_map]
    rfl
  rw [hreplaced]
  refine ⟨?_, fun kind => ?_⟩
  · simp only [Option.map_eq_none_iff, List.find?_eq_none, List.mem_reverse, decide_eq_true_eq, Ne]
  · simp only [Option.map_eq_some_iff, Plan.latestBefore_iff]

/-! ## The plan and the design -/

/-- A design with the layouts of a plan, else as before. -/
structure BankedBy (d : Design) (plan : Plan) (banked : Design) : Prop where
  nests_eq : banked.nests = d.nests
  graph_eq : banked.graph = d.graph
  length_eq : banked.memories.length = d.memories.length
  memories : ∀ (i : Nat) (m : Memory), d.memories[i]? = some m →
    ∃ l, banked.memories[i]? = some { m with layout := l } ∧
      (∀ dec, plan.final? i = some dec → l = some dec.layout) ∧
      (plan.final? i = none → l = m.layout)

theorem bankedBy_bank (d : Design) : d.BankedBy d.bank.2 d.bank.1 where
  nests_eq := nests_install _ d
  graph_eq := graph_install _ d
  length_eq := length_memories_install _ d
  memories i m hm := by
    refine ⟨_, by rw [getElem?_bank, hm, Option.map_some], fun dec hdec => ?_, fun hnone => ?_⟩
    · rw [show d.plan.final? i = some dec from hdec]
      rfl
    · rw [show d.plan.final? i = none from hnone]
      rfl

/-- The plan matches the design that it leaves. Banking succeeds and ends as it does in place,
nest after nest. An array has the layout of the final decision for it, the latest in the plan,
or keeps its layout if no decision names it; nothing else changes. The plan has one loop for
each nest, and its entries are the decisions made for one nest after those for another. For
a nest there is a decision for each array and each way in which it is accessed under the
pipelined loop, reads before writes and arrays ascending. Each entry tells the kind of the
latest entry before it for the same array. -/
theorem plan_matches_banked (d : Design)
    (hnamed : ∀ n ∈ d.nests, ∀ a ∈ n.accesses, a.array < d.memories.length) :
    ∃ banked plan, d.bank? = .ok (banked, plan) ∧
      (Banking.bankNests d d.nests).design = banked ∧ (Banking.bankNests d d.nests).plan = plan ∧
      d.BankedBy plan banked ∧
      (∀ i, (plan.final? i = none ↔ ∀ a ∈ plan.applied, a.decision.array ≠ i) ∧
        ∀ dec, plan.final? i = some dec ↔
          ∃ a, plan.LatestBefore plan.applied.length i a ∧ a.decision = dec) ∧
      plan.loops.length = d.nests.length ∧
      plan.applied.map (·.decision) = (List.range d.nests.length).flatMap d.decisionsAt ∧
      (∀ (k : Nat) (n : Nest), d.nests[k]? = some n →
        plan.loops[k]? = some (n.pipelined?.map (·.1.id)) ∧ n.Decided (d.decisionsAt k)) ∧
      plan.Chained := by
  have hinTurn := d.bank_eq_inTurn
  refine ⟨d.bank.1, d.bank.2, bank?_eq_ok hnamed, congrArg Prod.fst hinTurn.symm,
    congrArg Prod.snd hinTurn.symm, d.bankedBy_bank,
    fun i => ⟨Plan.final?_eq_none_iff, fun dec => Plan.final?_eq_some_iff⟩, ?_,
    d.map_decision_plan_eq_decisionsAt, fun k n hk => ⟨?_, ?_⟩, d.chained_plan⟩
  · exact List.length_map ..
  · show (d.nests.map _)[k]? = _
    rw [List.getElem?_map, hk, Option.map_some]
  · rw [decisionsAt_eq hk]
    exact decided_nestDecisions (hnamed n (List.mem_of_getElem? hk))

/-- Of three nests the second is not pipelined. The first reads `A` at `i` and `i + 1` and
writes it at `i`, the third reads it at `j`; `B` has a layout from before. -/
def thrice : Design where
  memories := [⟨"A", [8], "f32", none, 0⟩, ⟨"B", [4], "f32", some ⟨[.const 0], [.dim 0]⟩, 0⟩]
  nests := [
    ⟨⟨0, 0, 0, 7, 1, true⟩,
      .access ⟨0, [.dim 0], .read⟩ (.access ⟨0, [.dim 0], .write⟩
        (.access ⟨0, [.dim 0 + .const 1], .read⟩ .done)), ["i"]⟩,
    ⟨⟨1, 0, 0, 4, 1, false⟩, .access ⟨1, [.dim 0], .write⟩ .done, ["k"]⟩,
    ⟨⟨2, 0, 0, 8, 1, true⟩, .access ⟨0, [.dim 0], .read⟩ .done, ["j"]⟩]
  graph := .empty

/-- The writes to `A` take the place of its reads, and the later reads that of the writes. -/
theorem thrice_matches :
    (∀ n ∈ thrice.nests, ∀ a ∈ n.accesses, a.array < thrice.memories.length) ∧
      ∃ banked plan, thrice.bank? = .ok (banked, plan) ∧ thrice.BankedBy plan banked ∧
        plan.Chained ∧ plan.applied.map (·.replaced) = [none, some .read, some .write] ∧
        plan.loops = [some 0, none, some 2] := by
  have hnamed : ∀ n ∈ thrice.nests, ∀ a ∈ n.accesses, a.array < thrice.memories.length := by
    decide
  obtain ⟨banked, plan, hok, -, rfl, hbanked, -, -, -, -, hchained⟩ :=
    plan_matches_banked thrice hnamed
  exact ⟨hnamed, banked, _, hok, hbanked, hchained, by decide, by decide⟩

end Design

end Bankflow
