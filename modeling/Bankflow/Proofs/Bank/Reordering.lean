import Bankflow.Proofs.Bank.Choice
import Bankflow.Proofs.Bank.Plan
import Bankflow.Proofs.Expr.Canonical

/-!
# Indices in another order

The gap between two indices is looked up in one direction only, from the one seen first to
the other, and a difference can be known one way and overflow the other way
(`Expr.reverse_difference?_eq_none_iff`). So the order in which the indices are seen can
matter, and it does not exactly if the largest gap, taken either way, is also one that is
known both ways (`Settled`).

That this is enough is seen from any two indices with the largest gap: whichever comes first,
the gap between them is found (`Settled.spread_le`). That it is needed is seen from two
orders. One begins with the two indices whose gap is the largest. The other is by the
constants of the indices, and every gap found in it is known both ways
(`gap_le_gap_reverse`).

Plans and layouts are made from the choices for each dimension, and the arrays of a nest are
taken in ascending order, so designs that differ in the order of their accesses alone are
banked alike (`Design.applied_congr`, `Design.memories_bank_congr`).
-/

namespace Bankflow

open Linear (of?)
open Word (least)

/-! ## Gaps both ways -/

theorem gap_self (a : Expr) : gap a a = 0 := by
  unfold gap
  split
  · next k hk =>
    obtain ⟨x, y, hx, hy, -, -, hvalue⟩ := Expr.difference?_eq_some_iff.mp hk
    obtain rfl : x = y := Option.some.inj (hx.symm.trans hy)
    omega
  · rfl

/-- The constant of the linear form of an index. -/
def constantOf (e : Expr) : Int := ((of? e).map (·.constant.toInt)).getD 0

/-- A gap from an index with a smaller constant is known the other way, too: nothing
overflows when the difference is negative. -/
theorem gap_le_gap_reverse {a b : Expr} (h : constantOf a ≤ constantOf b) :
    gap b a ≤ gap a b := by
  cases hd : b.difference? a with
  | none => simp only [gap, hd, Nat.zero_le]
  | some k =>
    obtain ⟨x, y, hx, hy, -, hneg, hk⟩ := Expr.difference?_eq_some_iff.mp hd
    simp only [constantOf, hx, hy, Option.map_some, Option.getD_some] at h
    have hreverse : a.difference? b ≠ none := by
      rw [Ne, Expr.reverse_difference?_eq_none_iff hd hx]
      have hne := hneg.constant
      have hle := Word.least_le_toInt y.constant
      have hnonpos : least < 0 := by decide
      omega
    obtain ⟨j, hj⟩ := Option.ne_none_iff_exists'.mp hreverse
    obtain ⟨y', x', hy', hx', -, -, hvalue⟩ := Expr.difference?_eq_some_iff.mp hj
    obtain rfl : y = y' := Option.some.inj (hy.symm.trans hy')
    obtain rfl : x = x' := Option.some.inj (hx.symm.trans hx')
    simp only [gap, hd, hj]
    omega

/-! ## The choice for one dimension -/

/-- No gap between two of the indices is larger than one that is known both ways. -/
def Settled (indices : List Expr) : Prop :=
  ∀ a ∈ indices, ∀ b ∈ indices, ∃ c ∈ indices, ∃ d ∈ indices, gap a b ≤ gap c d ∧ gap a b ≤ gap d c

instance (indices : List Expr) : Decidable (Settled indices) :=
  inferInstanceAs (Decidable (∀ a ∈ indices, _))

theorem Settled.of_symmetric {indices : List Expr}
    (h : ∀ a ∈ indices, ∀ b ∈ indices, gap a b = gap b a) : Settled indices :=
  fun a ha b hb => ⟨a, ha, b, hb, Nat.le_refl _, Nat.le_of_eq (h a ha b hb)⟩

section SameElements

variable {indices indices' : List Expr}

theorem Settled.congr (h : Settled indices) (hmem : ∀ e, e ∈ indices ↔ e ∈ indices') :
    Settled indices' := by
  intro a ha b hb
  obtain ⟨c, hc, d, hd, hgaps⟩ := h a ((hmem a).mpr ha) b ((hmem b).mpr hb)
  exact ⟨c, (hmem c).mp hc, d, (hmem d).mp hd, hgaps⟩

/-- Settled indices are spread as far as they are in any order. -/
theorem Settled.spread_le (h : Settled indices) (hsubset : ∀ e ∈ indices', e ∈ indices) :
    spread (firstSeen indices') ≤ spread (firstSeen indices) := by
  refine spread_le_iff.mpr (List.pairwise_of_forall_mem_list fun a ha b hb => ?_)
  obtain ⟨c, hc, d, hd, hcd, hdc⟩ :=
    h b (hsubset b (mem_firstSeen.mp hb)) a (hsubset a (mem_firstSeen.mp ha))
  by_cases hne : c = d
  · subst hne
    rw [gap_self] at hcd
    omega
  · rcases pair_sublist_or hne (mem_firstSeen.mpr hc) (mem_firstSeen.mpr hd) with hsub | hsub
    · exact hdc.trans (gap_le_spread hsub)
    · exact hcd.trans (gap_le_spread hsub)

theorem length_firstSeen_congr {α : Type} [DecidableEq α] {l l' : List α}
    (hmem : ∀ a, a ∈ l ↔ a ∈ l') : (firstSeen l).length = (firstSeen l').length := by
  refine List.Perm.length_eq ?_
  refine (List.perm_ext_iff_of_nodup (nodup_firstSeen l) (nodup_firstSeen l')).mpr fun a => ?_
  rw [mem_firstSeen, mem_firstSeen, hmem]

theorem Settled.dimChoice_congr (h : Settled indices) (hmem : ∀ e, e ∈ indices ↔ e ∈ indices')
    (dim size : Nat) : DimChoice.of indices' dim size = DimChoice.of indices dim size := by
  have hlength := length_firstSeen_congr hmem
  have hle := h.spread_le fun e => (hmem e).mpr
  have hge := (h.congr hmem).spread_le fun e => (hmem e).mp
  have hspread : spread (firstSeen indices') = spread (firstSeen indices) := by omega
  rw [DimChoice.of, DimChoice.of, hspread, hlength]

end SameElements

theorem firstSeen_sublist {α : Type} [DecidableEq α] : ∀ l : List α, (firstSeen l).Sublist l
  | [] => .slnil
  | a :: l => (List.filter_sublist.trans (firstSeen_sublist l)).cons_cons a

/-- The indices by their constants. -/
def byConstant (indices : List Expr) : List Expr :=
  indices.mergeSort fun a b => decide (constantOf a ≤ constantOf b)

theorem mem_byConstant {indices : List Expr} {e : Expr} : e ∈ byConstant indices ↔ e ∈ indices :=
  (List.mergeSort_perm indices _).mem_iff

theorem pairwise_byConstant (indices : List Expr) :
    (byConstant indices).Pairwise fun a b => constantOf a ≤ constantOf b := by
  refine (List.pairwise_mergeSort (fun a b c hab hbc => ?_) (fun a b => ?_) indices).imp
    of_decide_eq_true
  · exact decide_eq_true ((of_decide_eq_true hab).trans (of_decide_eq_true hbc))
  · simpa using Int.le_total _ _

/-- Indices that are spread equally far in two orders are settled. -/
theorem settled_of_spread_eq {indices : List Expr}
    (h : ∀ a ∈ indices, ∀ b ∈ indices,
      spread (firstSeen (b :: a :: indices)) = spread (firstSeen (byConstant indices))) :
    Settled indices := by
  intro a ha b hb
  by_contra hnone
  have hlarger : ∀ c ∈ indices, ∀ d ∈ indices, gap c d < gap a b ∨ gap d c < gap a b := by
    intro c hc d hd
    by_contra hcd
    exact hnone ⟨c, hc, d, hd, by omega, by omega⟩
  have hpos : 0 < gap a b := by
    have := hlarger a ha a ha
    omega
  have hne : a ≠ b := by
    rintro rfl
    rw [gap_self] at hpos
    omega
  -- by constants, only gaps that are known both ways count
  have hupper : spread (firstSeen (byConstant indices)) ≤ gap a b - 1 := by
    refine spread_le_iff.mpr ?_
    refine ((pairwise_byConstant indices).sublist (firstSeen_sublist _)).imp_of_mem ?_
    intro c d hc hd hcd
    have hreverse := gap_le_gap_reverse hcd
    have := hlarger c (mem_byConstant.mp (mem_firstSeen.mp hc)) d
      (mem_byConstant.mp (mem_firstSeen.mp hd))
    omega
  have hfirst : [b, a].Sublist (firstSeen ([] ++ b :: a :: indices)) :=
    sublist_firstSeen hne List.mem_cons_self List.not_mem_nil
  have hlower := gap_le_spread hfirst
  rw [List.nil_append, h a ha b hb] at hlower
  omega

/-- The choice is the same for all orders exactly if the indices are settled. -/
theorem dimChoice_eq_iff_settled (indices : List Expr) (dim size : Nat) :
    (∀ indices', (∀ e, e ∈ indices ↔ e ∈ indices') →
      DimChoice.of indices' dim size = DimChoice.of indices dim size) ↔ Settled indices := by
  constructor
  · intro h
    refine settled_of_spread_eq fun a ha b hb => ?_
    have hfirst := h (b :: a :: indices) fun e => by grind
    have hsorted := h (byConstant indices) fun e => mem_byConstant.symm
    exact congrArg DimChoice.spread (hfirst.trans hsorted.symm)
  · intro h indices' hmem
    exact h.dimChoice_congr hmem dim size

/-! ## Plans and layouts -/

theorem ascending_congr {l l' : List Nat} (hmem : ∀ n, n ∈ l ↔ n ∈ l') :
    ascending l = ascending l' := by
  refine eq_of_pairwise_of_mem_iff (fun _ _ => Nat.lt_asymm) (pairwise_ascending l)
    (pairwise_ascending l') fun n => ?_
  rw [mem_ascending, mem_ascending, hmem]

theorem mem_indicesAlong_congr {sites sites' : List Access} (hmem : ∀ s, s ∈ sites ↔ s ∈ sites')
    (k : Nat) (e : Expr) : e ∈ indicesAlong sites k ↔ e ∈ indicesAlong sites' k := by
  simp only [indicesAlong, List.mem_filterMap, hmem]

theorem Decision.of_congr {sites sites' : List Access} (hmem : ∀ s, s ∈ sites ↔ s ∈ sites')
    (hsettled : ∀ k, Settled (indicesAlong sites k)) (array : Nat) (kind : AccessKind)
    (shape : List Nat) :
    Decision.of array kind shape sites = Decision.of array kind shape sites' := by
  have hchoices : choicesFrom sites 0 shape = choicesFrom sites' 0 shape := by
    refine List.ext_getElem? fun k => ?_
    rw [getElem?_choicesFrom, getElem?_choicesFrom]
    congr 1
    funext size
    exact ((hsettled (0 + k)).dimChoice_congr (mem_indicesAlong_congr hmem (0 + k)) _ size).symm
  rw [Decision.of, Decision.of, hchoices]

/-- The indices of the accesses to any array are settled, along every dimension and for
reads and writes apart. -/
def Nest.Settled (n : Nest) : Prop :=
  ∀ kind array k, Bankflow.Settled (indicesAlong (sitesOf kind array n.pipelinedAccesses) k)

/-- It is enough that all differences of indices are known both ways, or not at all. -/
theorem Nest.settled_of_symmetric {n : Nest}
    (h : ∀ a ∈ n.pipelinedAccesses.flatMap (·.indices),
      ∀ b ∈ n.pipelinedAccesses.flatMap (·.indices), gap a b = gap b a) : n.Settled := by
  intro kind array k
  have hmem : ∀ e ∈ indicesAlong (sitesOf kind array n.pipelinedAccesses) k,
      e ∈ n.pipelinedAccesses.flatMap (·.indices) := by
    intro e he
    obtain ⟨s, hs, hse⟩ := List.mem_filterMap.mp he
    exact List.mem_flatMap.mpr ⟨s, (List.mem_filter.mp hs).1, List.mem_of_getElem? hse⟩
  exact .of_symmetric fun a ha b hb => h a (hmem a ha) b (hmem b hb)

/-- Nests that make the same accesses under their pipelined loops, however often and in
whichever order. -/
def Nest.SameAccesses (n n' : Nest) : Prop :=
  ∀ a, a ∈ n.pipelinedAccesses ↔ a ∈ n'.pipelinedAccesses

namespace Design

variable {d d' : Design}

theorem nestDecisions_congr (hmemories : d.memories = d'.memories) {n n' : Nest}
    (hsame : n.SameAccesses n') (hsettled : n.Settled) :
    d.nestDecisions n = d'.nestDecisions n' := by
  have hkind : ∀ kind,
      d.decisionsOf kind n.pipelinedAccesses = d'.decisionsOf kind n'.pipelinedAccesses := by
    intro kind
    have harrays : arraysOf kind n.pipelinedAccesses = arraysOf kind n'.pipelinedAccesses :=
      ascending_congr fun i => by simp only [List.mem_map, List.mem_filter, hsame _]
    simp only [decisionsOf, groupByArray, List.filterMap_map, harrays, hmemories]
    refine List.filterMap_congr fun i _ => congrArg (Option.map · _) (funext fun m => ?_)
    refine Decision.of_congr (fun s => ?_) (hsettled kind i) i kind m.shape
    simp only [sitesOf, List.mem_filter, hsame s]
  rw [nestDecisions, nestDecisions, hkind, hkind]

/-- Designs with settled indices whose nests make the same accesses have the same plan. -/
theorem applied_congr (hmemories : d.memories = d'.memories)
    (hnests : List.Forall₂ Nest.SameAccesses d.nests d'.nests)
    (hsettled : ∀ n ∈ d.nests, n.Settled) : d.plan.applied = d'.plan.applied := by
  have hdecisions : ∀ {ns ns' : List Nest}, List.Forall₂ Nest.SameAccesses ns ns' →
      (∀ n ∈ ns, n.Settled) → ns.flatMap d.nestDecisions = ns'.flatMap d'.nestDecisions := by
    intro ns ns' h hs
    induction h with
    | nil => rfl
    | cons hsame _ ih =>
      rw [List.forall_mem_cons] at hs
      rw [List.flatMap_cons, List.flatMap_cons, nestDecisions_congr hmemories hsame hs.1, ih hs.2]
  exact congrArg (applyAfter []) (hdecisions hnests hsettled)

/-- The layouts that are installed are those of the plan. -/
theorem memories_bank_congr (hmemories : d.memories = d'.memories)
    (happlied : d.plan.applied = d'.plan.applied) : d.bank.1.memories = d'.bank.1.memories := by
  refine List.ext_getElem? fun i => ?_
  rw [bank, bank, getElem?_install, getElem?_install, hmemories, happlied]

end Design

/-- What depends on the set of indices alone. The choice for a dimension is the same for
every list of the same indices exactly if they are settled. Indices that are not have a
difference that is known one way only, which takes the least word: as the difference, or as
the constant of the index that is subtracted the other way. Designs with settled indices
whose nests make the same accesses are banked alike. -/
theorem reordering_banks_alike_iff_settled :
    (∀ (indices : List Expr) (dim size : Nat),
      (∀ indices', (∀ e, e ∈ indices ↔ e ∈ indices') →
        DimChoice.of indices' dim size = DimChoice.of indices dim size) ↔ Settled indices) ∧
    (∀ (a b : Expr) (k : Int64) (form : Linear), a.difference? b = some k → of? a = some form →
      (b.difference? a = none ↔ k.toInt = least ∨ form.constant.toInt = least)) ∧
    ∀ d d' : Design, d.memories = d'.memories →
      List.Forall₂ Nest.SameAccesses d.nests d'.nests → (∀ n ∈ d.nests, n.Settled) →
      d.plan.applied = d'.plan.applied ∧ d.bank.1.memories = d'.bank.1.memories := by
  refine ⟨dimChoice_eq_iff_settled, fun a b k form hk hform => ?_, ?_⟩
  · exact Expr.reverse_difference?_eq_none_iff hk hform
  · intro d d' hmemories hnests hsettled
    have happlied := Design.applied_congr hmemories hnests hsettled
    exact ⟨happlied, Design.memories_bank_congr hmemories happlied⟩

/-- From the least word to `0` the difference is greater than all words, and in the other
direction it is one. -/
theorem order_of_extremes_matters :
    (∀ e, e ∈ [Expr.const Int64.minValue, .const 0] ↔ e ∈ [.const 0, .const Int64.minValue]) ∧
      DimChoice.of [.const 0, .const Int64.minValue] 0 8 ≠
        DimChoice.of [.const Int64.minValue, .const 0] 0 8 :=
  ⟨fun e => by grind, by decide⟩

/-- The least word and the one 5 above it have a difference that is known one way only, but
the largest gap is that of the other two. -/
def straddling : List Expr :=
  [.const Int64.minValue, .const (Int64.minValue + 5), .dim 0, .dim 0 + .const 100]

/-- `neighbours` with its reads in the other order and one of them repeated. -/
def neighboursBackwards : Design where
  memories := Design.neighbours.memories
  nests := [⟨⟨0, 0, 0, 7, 1, true⟩,
    .access ⟨0, [.dim 0 + .const 1], .read⟩ (.access ⟨0, [.dim 0], .read⟩
      (.access ⟨0, [.dim 0 + .const 1], .read⟩ .done)), ["i"]⟩]
  graph := .empty

theorem straddling_banks_alike :
    (Expr.const (Int64.minValue + 5)).difference? (.const Int64.minValue) = none ∧
      (Expr.const Int64.minValue).difference? (.const (Int64.minValue + 5)) = some (-5) ∧
      DimChoice.of (straddling.reverse ++ straddling) 0 128 = DimChoice.of straddling 0 128 ∧
      Design.neighbours.bank.1.memories = neighboursBackwards.bank.1.memories := by
  obtain ⟨hchoice, hreverse, hdesign⟩ := reordering_banks_alike_iff_settled
  have hknown : (Expr.const Int64.minValue).difference? (.const (Int64.minValue + 5)) =
    some (-5) := by decide
  refine ⟨(hreverse _ _ _ _ hknown rfl).mpr (.inr rfl), hknown, ?_, ?_⟩
  · exact (hchoice straddling 0 128).mpr (by decide) _ fun e => by grind
  · have hsame : List.Forall₂ Nest.SameAccesses Design.neighbours.nests
        neighboursBackwards.nests := by
      refine .cons (fun a => ?_) .nil
      change a ∈ [_, _] ↔ a ∈ [_, _, _]
      grind
    have hsettled : ∀ n ∈ Design.neighbours.nests, n.Settled :=
      List.forall_mem_singleton.mpr (Nest.settled_of_symmetric (by decide))
    exact (hdesign Design.neighbours neighboursBackwards rfl hsame hsettled).2

end Bankflow
