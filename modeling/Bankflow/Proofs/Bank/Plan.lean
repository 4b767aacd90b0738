import Bankflow.Proofs.Bank.Layout
import Bankflow.Proofs.Loop.Sites

/-!
# Decisions, and what a plan installs

Every decision of a plan is made from the sites of one kind that access one array under
the pipelined loop of a nest (`Design.eq_of_mem_nestDecisions`). Installing a plan
gives each array the layout of its last decision and changes nothing else
(`Design.getElem?_bank`).

The choices of a decision fit the shape of its array when the sizes are words and the
sites can be counted by words (`choicesFit_choicesFrom`). Under a cyclic choice, sites
whose indices have a known difference never meet in a bank
(`Design.cyclic_banks_apart`).
-/

namespace Bankflow

open Word (greatest)

/-! ## Choices -/

theorem length_choicesFrom (sites : List Access) :
    ∀ (d : Nat) (shape : List Nat), (choicesFrom sites d shape).length = shape.length
  | _, [] => rfl
  | d, _ :: shape => by
    rw [choicesFrom, List.length_cons, List.length_cons, length_choicesFrom sites (d + 1) shape]

theorem getElem?_choicesFrom (sites : List Access) :
    ∀ (d : Nat) (shape : List Nat) (k : Nat), (choicesFrom sites d shape)[k]? =
      (shape[k]?).map fun size => DimChoice.of (indicesAlong sites (d + k)) (d + k) size
  | _, [], _ => rfl
  | d, size :: shape, 0 => rfl
  | d, size :: shape, k + 1 => by
    rw [choicesFrom, List.getElem?_cons_succ, List.getElem?_cons_succ,
      getElem?_choicesFrom sites (d + 1) shape k, show d + 1 + k = d + (k + 1) by omega]

/-- A choice stands at the place of its dimension. -/
theorem getElem?_of_mem_choicesFrom {sites : List Access} {shape : List Nat} {c : DimChoice}
    (h : c ∈ choicesFrom sites 0 shape) : (choicesFrom sites 0 shape)[c.dim]? = some c := by
  obtain ⟨k, hk⟩ := List.mem_iff_getElem?.mp h
  have hdim : c.dim = k := by
    rw [getElem?_choicesFrom] at hk
    obtain ⟨size, -, rfl⟩ := Option.map_eq_some_iff.mp hk
    exact Nat.zero_add k
  rw [hdim, hk]

theorem length_indicesAlong_le (sites : List Access) (k : Nat) :
    (indicesAlong sites k).length ≤ sites.length :=
  List.length_filterMap_le _ _

/-- The choices for a shape fit it. -/
theorem choicesFit_choicesFrom {sites : List Access} {shape : List Nat}
    (hsites : (sites.length : Int) ≤ greatest) (hshape : ∀ size ∈ shape, (size : Int) ≤ greatest) :
    Layout.ChoicesFit (choicesFrom sites 0 shape) shape := by
  refine ⟨length_choicesFrom sites 0 shape, fun k c size hc hs => ?_⟩
  rw [getElem?_choicesFrom, hs] at hc
  cases hc
  have hlen := length_indicesAlong_le sites (0 + k)
  exact ⟨Nat.zero_add k, DimChoice.fits_of (by omega) (hshape size (List.mem_of_getElem? hs))⟩

/-! ## Accesses under the pipelined loop -/

theorem Body.accesses_sublist_of_last? {η α : Type} {p : η → Bool} {h : η} {inner : Body η α} :
    ∀ {b : Body η α}, b.last? p = some (h, inner) → inner.accesses.Sublist b.accesses
  | .access a rest, hb => (accesses_sublist_of_last? (b := rest) hb).cons a
  | .loop h' inner' rest, hb => by
    rw [accesses]
    rw [last?, Option.or_eq_some_iff] at hb
    rcases hb with hb | ⟨-, hb⟩
    · exact (accesses_sublist_of_last? hb).trans (List.sublist_append_right _ _)
    · rw [Option.or_eq_some_iff] at hb
      rcases hb with hb | ⟨-, hb⟩
      · exact (accesses_sublist_of_last? hb).trans (List.sublist_append_left _ _)
      · split at hb
        · cases hb
          exact List.sublist_append_left _ _
        · cases hb

theorem Nest.pipelinedAccesses_sublist (n : Nest) : n.pipelinedAccesses.Sublist n.accesses := by
  unfold pipelinedAccesses pipelined?
  split
  · next h =>
    rw [Option.or_eq_some_iff] at h
    rcases h with h | ⟨-, h⟩
    · exact Body.accesses_sublist_of_last? h
    · split at h
      · cases h
        exact List.Sublist.refl _
      · cases h
  · exact List.nil_sublist _

theorem length_sitesOf_le (kind : AccessKind) (array : Nat) (n : Nest) :
    (sitesOf kind array n.pipelinedAccesses).length ≤ n.accesses.length :=
  Nat.le_trans (List.length_filter_le _ _) n.pipelinedAccesses_sublist.length_le

/-! ## Plans -/

theorem map_decision_applyAfter :
    ∀ (earlier ds : List Decision), (applyAfter earlier ds).map (·.decision) = ds
  | _, [] => rfl
  | earlier, d :: ds => by
    rw [applyAfter, List.map_cons, map_decision_applyAfter (d :: earlier) ds]

namespace Design

variable {d : Design}

/-- The decisions of one kind are made for the arrays with a site, each from its sites. -/
theorem mem_decisionsOf {kind : AccessKind} {as : List Access} {dec : Decision} :
    dec ∈ d.decisionsOf kind as ↔ dec.kind = kind ∧ dec.array ∈ arraysOf kind as ∧
      ∃ m, d.memories[dec.array]? = some m ∧
        dec = .of dec.array dec.kind m.shape (sitesOf dec.kind dec.array as) := by
  simp only [decisionsOf, groupByArray, List.mem_filterMap, List.mem_map, Option.map_eq_some_iff]
  constructor
  · rintro ⟨_, ⟨array, harray, rfl⟩, m, hm, rfl⟩
    exact ⟨rfl, harray, m, hm, rfl⟩
  · rintro ⟨rfl, harray, m, hm, heq⟩
    exact ⟨_, ⟨dec.array, harray, rfl⟩, m, hm, heq.symm⟩

theorem mem_nestDecisions {n : Nest} {dec : Decision} :
    dec ∈ d.nestDecisions n ↔ dec.array ∈ arraysOf dec.kind n.pipelinedAccesses ∧
      ∃ m, d.memories[dec.array]? = some m ∧
        dec = .of dec.array dec.kind m.shape (sitesOf dec.kind dec.array n.pipelinedAccesses) := by
  rw [nestDecisions, List.mem_append, mem_decisionsOf, mem_decisionsOf]
  constructor
  · rintro (⟨hkind, h⟩ | ⟨hkind, h⟩)
    · exact hkind ▸ h
    · exact hkind ▸ h
  · intro h
    cases hkind : dec.kind with
    | read => exact .inl ⟨rfl, hkind ▸ h⟩
    | write => exact .inr ⟨rfl, hkind ▸ h⟩

/-- A decision is made from the sites of its kind that access its array. -/
theorem eq_of_mem_nestDecisions {n : Nest} {dec : Decision} (h : dec ∈ d.nestDecisions n) :
    ∃ m, d.memories[dec.array]? = some m ∧
      dec = .of dec.array dec.kind m.shape (sitesOf dec.kind dec.array n.pipelinedAccesses) :=
  (mem_nestDecisions.mp h).2

/-- The decisions of a plan are those of the nests, in order. -/
theorem map_decision_plan (d : Design) :
    d.plan.applied.map (·.decision) = d.nests.flatMap d.nestDecisions :=
  map_decision_applyAfter [] _

theorem exists_nest_of_mem_plan {a : Applied} (h : a ∈ d.plan.applied) :
    ∃ n ∈ d.nests, a.decision ∈ d.nestDecisions n := by
  have hmem : a.decision ∈ d.plan.applied.map (·.decision) := List.mem_map_of_mem h
  rw [map_decision_plan, List.mem_flatMap] at hmem
  exact hmem

end Design

theorem Plan.mem_of_final? {p : Plan} {i : Nat} {dec : Decision} (h : p.final? i = some dec) :
    (∃ a ∈ p.applied, a.decision = dec) ∧ dec.array = i := by
  obtain ⟨a, ha, rfl⟩ := Option.map_eq_some_iff.mp h
  have hmem := List.mem_reverse.mp (List.mem_of_find?_eq_some ha)
  exact ⟨⟨a, hmem, rfl⟩, by simpa using List.find?_some ha⟩

/-! ## Installing -/

namespace Design

variable {d : Design}

@[simp] theorem nests_install : ∀ (as : List Applied) (d : Design), (d.install as).nests = d.nests
  | [], _ => rfl
  | a :: as, d => nests_install as (d.setLayout a.decision.array a.decision.layout)

@[simp] theorem graph_install : ∀ (as : List Applied) (d : Design), (d.install as).graph = d.graph
  | [], _ => rfl
  | a :: as, d => graph_install as (d.setLayout a.decision.array a.decision.layout)

/-- An array has the layout of the last decision for it, or the one it had. -/
theorem getElem?_install (i : Nat) :
    ∀ (as : List Applied) (d : Design), (d.install as).memories[i]? =
      (d.memories[i]?).map fun m => { m with
        layout := ((as.reverse.find? (·.decision.array = i)).map (·.decision.layout)).or m.layout }
  | [], d => by
    simp [install]
  | a :: as, d => by
    rw [install, getElem?_install i as, setLayout, List.getElem?_modify, List.reverse_cons,
      List.find?_append, List.find?_singleton]
    by_cases ha : a.decision.array = i
    · cases d.memories[i]? <;> cases as.reverse.find? (·.decision.array = i) <;> simp [ha]
    · cases d.memories[i]? <;> cases as.reverse.find? (·.decision.array = i) <;> simp [ha]

/-- Banking gives each array the layout that was decided last, and keeps the rest of
it. -/
theorem getElem?_bank (d : Design) (i : Nat) : d.bank.1.memories[i]? =
    (d.memories[i]?).map fun m =>
      { m with layout := ((d.plan.final? i).map (·.layout)).or m.layout } := by
  rw [bank, getElem?_install]
  simp only [Plan.final?, Plan.last?, Option.map_map]
  rfl

theorem checkAccesses_eq_ok :
    ∀ {as : List Access}, (∀ a ∈ as, a.array < d.memories.length) → d.checkAccesses as = .ok ()
  | [], _ => rfl
  | a :: as, h => by
    rw [checkAccesses, if_pos (h a List.mem_cons_self)]
    exact checkAccesses_eq_ok fun b hb => h b (List.mem_cons_of_mem a hb)

/-- A design whose accesses name arrays can be banked. -/
theorem bank?_eq_ok (h : ∀ n ∈ d.nests, ∀ a ∈ n.accesses, a.array < d.memories.length) :
    d.bank? = .ok d.bank := by
  have hok : d.checkAccesses (d.nests.flatMap Nest.pipelinedAccesses) = .ok () := by
    refine checkAccesses_eq_ok fun a ha => ?_
    obtain ⟨n, hn, ha⟩ := List.mem_flatMap.mp ha
    exact h n hn a (n.pipelinedAccesses_sublist.subset ha)
  rw [bank?, hok]
  rfl

end Design

/-! ## Conflicts under a cyclic mode -/

/-- Along dimension `k`, some site uses index `a` before any site uses index `b`, and a
later one uses `b`. -/
def SeenBefore (sites : List Access) (k : Nat) (a b : Expr) : Prop :=
  ∃ before s after t, sites = before ++ s :: after ∧ t ∈ after ∧ s.indices[k]? = some a ∧
    t.indices[k]? = some b ∧ ∀ u ∈ before, u.indices[k]? ≠ some b

theorem SeenBefore.sublist_firstSeen {sites : List Access} {k : Nat} {a b : Expr}
    (h : SeenBefore sites k a b) (hne : b ≠ a) :
    [a, b].Sublist (firstSeen (indicesAlong sites k)) := by
  obtain ⟨before, s, after, t, rfl, ht, hs, hb, hfirst⟩ := h
  have hsplit : indicesAlong (before ++ s :: after) k =
      indicesAlong before k ++ a :: indicesAlong after k := by
    simp only [indicesAlong, List.filterMap_append, List.filterMap_cons, hs]
  rw [hsplit]
  refine Bankflow.sublist_firstSeen hne (List.mem_filterMap.mpr ⟨t, ht, hb⟩) fun hmem => ?_
  obtain ⟨u, hu, hub⟩ := List.mem_filterMap.mp hmem
  exact hfirst u hu hub

/-- The known difference of two indices is below the factor of a cyclic choice. -/
theorem natAbs_difference_lt_factor {sites : List Access} {k dim size f : Nat} {a b : Expr}
    {δ : Int64} (h : SeenBefore sites k a b) (hne : b ≠ a) (hδ : b.difference? a = some δ)
    (hf : (DimChoice.of (indicesAlong sites k) dim size).mode = .cyclic f) :
    δ.toInt.natAbs < f := by
  have hgap := gap_le_spread (h.sublist_firstSeen hne)
  simp only [gap, hδ] at hgap
  have := (DimChoice.factor_of hf).1
  omega

namespace Design

/-- Cyclic banking is free of conflicts. Take any decision for any nest, a dimension
that it banks cyclically, and two indices `a` and `b` that its sites use there, `a` seen
first, with a known difference. Wherever the variables of the nest give the two indices
different positions, these are in different banks. The accesses of a nest are counted by
words, as the factor is one. -/
theorem cyclic_banks_apart (d : Design)
    (hnamed : ∀ n ∈ d.nests, ∀ a ∈ n.accesses, a.array < d.memories.length)
    (hcount : ∀ n ∈ d.nests, (n.accesses.length : Int) ≤ greatest) :
    ∃ banked plan, d.bank? = .ok (banked, plan) ∧
      plan.applied.map (·.decision) = d.nests.flatMap d.nestDecisions ∧
      ∀ n ∈ d.nests, ∀ dec ∈ d.nestDecisions n, ∀ (k f : Nat) (c : DimChoice),
        dec.dims[k]? = some c → c.mode = .cyclic f →
        ∀ (a b : Expr) (δ : Int64),
          SeenBefore (sitesOf dec.kind dec.array n.pipelinedAccesses) k a b →
          b.difference? a = some δ →
          ∀ (vars : List Int64) (x y : Int64), a.eval vars = some x → b.eval vars = some y →
            0 ≤ x.toInt → 0 ≤ y.toInt → x ≠ y →
            ∃ selector, dec.layout.banks[k]? = some selector ∧
              ∀ u v : List Int64, u[k]? = some x → v[k]? = some y →
                ∃ p q, selector.eval u = some p ∧ selector.eval v = some q ∧ p ≠ q := by
  refine ⟨_, _, bank?_eq_ok hnamed, map_decision_plan d, ?_⟩
  intro n hn dec hdec k f c hc hmode a b δ hseen hδ vars x y hx hy hx₀ hy₀ hne
  obtain ⟨m, -, hof⟩ := eq_of_mem_nestDecisions hdec
  have hdims : dec.dims = choicesFrom (sitesOf dec.kind dec.array n.pipelinedAccesses) 0 m.shape :=
    congrArg Decision.dims hof
  have hlayout : dec.layout = .ofChoices dec.dims := by
    rw [hdims]
    exact congrArg Decision.layout hof
  have hchoice := hc
  rw [hdims, getElem?_choicesFrom, Nat.zero_add] at hchoice
  obtain ⟨size, -, rfl⟩ := Option.map_eq_some_iff.mp hchoice
  -- the two positions differ by the known difference, which is less than the factor
  have hab : b ≠ a := by
    rintro rfl
    exact hne (Option.some.inj (hx.symm.trans hy))
  have hclose := natAbs_difference_lt_factor hseen hab hδ hmode
  have hdiff := Expr.toInt_sub_of_difference? hδ hy hx
  have hcounted := (DimChoice.factor_of hmode).2
  have hlen := length_indicesAlong_le (sitesOf dec.kind dec.array n.pipelinedAccesses) k
  have hsites := length_sitesOf_le dec.kind dec.array n
  have hword := hcount n hn
  refine ⟨(Mode.cyclic f).bank k, ?_, fun u v hu hv => ?_⟩
  · rw [hlayout, Layout.getElem?_banks_ofChoices, hc, Option.map_some, hmode]
    rfl
  · exact Mode.cyclic_bank_ne (by omega) (by omega) hu hv hx₀ hy₀ hne (by omega)

/-- A pipelined loop over `i` that reads an array of 8 elements at `i` and at `i + 1`. -/
def neighbours : Design where
  memories := [⟨"A", [8], "f32", none, 0⟩]
  nests := [⟨⟨0, 0, 0, 7, 1, true⟩,
    .access ⟨0, [.dim 0], .read⟩ (.access ⟨0, [.dim 0 + .const 1], .read⟩ .done), ["i"]⟩]
  graph := .empty

/-- At `i = 3` the two sites use the elements 3 and 4, which are in different banks. -/
theorem neighbours_banks_apart :
    ∃ banked plan, neighbours.bank? = .ok (banked, plan) ∧
      ∃ dec ∈ plan.applied.map (·.decision), dec.dims.map (·.mode) = [.cyclic 2] ∧
        ∃ selector, dec.layout.banks[0]? = some selector ∧
          ∃ p q, selector.eval [3] = some p ∧ selector.eval [4] = some q ∧ p ≠ q := by
  have hnamed : ∀ n ∈ neighbours.nests, ∀ a ∈ n.accesses,
      a.array < neighbours.memories.length := by decide
  have hcount : ∀ n ∈ neighbours.nests, (n.accesses.length : Int) ≤ greatest := by decide
  obtain ⟨banked, plan, hok, hplan, hall⟩ := cyclic_banks_apart neighbours hnamed hcount
  obtain ⟨selector, hselector, hapart⟩ := hall _ List.mem_cons_self _ List.mem_cons_self 0 2 _
    rfl rfl (.dim 0) (.dim 0 + .const 1) 1
    ⟨[], _, _, _, rfl, List.mem_cons_self, rfl, rfl, fun u hu => nomatch hu⟩ (by decide)
    [3] 3 4 (by decide) (by decide) (by decide) (by decide) (by decide)
  refine ⟨banked, plan, hok, _, hplan ▸ List.mem_cons_self, rfl, selector, hselector, ?_⟩
  exact hapart [3] [4] rfl rfl

end Design

end Bankflow
