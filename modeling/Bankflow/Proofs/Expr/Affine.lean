import Bankflow.Proofs.Expr.Canonical

/-!
# Differences of affine expressions

An affine expression is made of constants, dimensions, sums, and products one of whose
factors has no dimension. The atoms of its form are dimensions (`Linear.atoms_of_affine`),
whose values can be chosen freely. So the form of an affine expression has no terms exactly
if the expression has the same value everywhere, and a difference of affine expressions
folds whenever it is constant, as long as no word overflows
(`Expr.affine_difference?_complete`).
-/

namespace Bankflow

namespace Expr

/-- Sums, and products one of whose factors has no dimension. -/
inductive Affine : Expr → Prop where
  | const (v : Int64) : Affine (const v)
  | dim (k : Nat) : Affine (dim k)
  | add {l r : Expr} (left : Affine l) (right : Affine r) : Affine (node .add l r)
  | mul {l r : Expr} (left : Affine l) (right : Affine r)
    (scales : l.maxDim = none ∨ r.maxDim = none) : Affine (node .mul l r)

theorem maxDim_node_eq_none_iff {op : Op} {l r : Expr} :
    (node op l r).maxDim = none ↔ l.maxDim = none ∧ r.maxDim = none := by
  rw [maxDim]
  split <;> simp_all

end Expr

namespace Linear

/-! ## Atoms -/

theorem forall_atoms_addTerms {P : Expr → Prop} :
    ∀ {us ts vs : List (Expr × Int64)}, addTerms ts us = some vs → (∀ t ∈ ts, P t.1) →
      (∀ t ∈ us, P t.1) → ∀ t ∈ vs, P t.1
  | [], ts, vs, h, hts, _ => by
    cases h
    exact hts
  | (e, c) :: us, ts, vs, h, hts, hus => by
    simp only [addTerms, Option.bind_eq_bind, Option.bind_eq_some_iff] at h
    obtain ⟨ws, hws, hvs⟩ := h
    rw [List.forall_mem_cons] at hus
    refine forall_atoms_addTerms hvs (fun t ht => ?_) hus.2
    rcases mem_of_mem_addTerm hws ht with he | ht
    · exact he ▸ hus.1
    · exact hts t ht

theorem forall_atoms_add {P : Expr → Prop} {a b c : Linear} (h : a.add b = some c)
    (ha : ∀ t ∈ a.terms, P t.1) (hb : ∀ t ∈ b.terms, P t.1) : ∀ t ∈ c.terms, P t.1 := by
  simp only [add, Option.bind_eq_bind, Option.bind_eq_some_iff] at h
  obtain ⟨k, -, ts, hts, hc⟩ := h
  cases hc
  exact fun t ht => forall_atoms_addTerms hts ha hb t (List.mem_filter.mp ht).1

theorem forall_atoms_scale {P : Expr → Prop} {a c : Linear} {k : Int64} (h : a.scale k = some c)
    (ha : ∀ t ∈ a.terms, P t.1) : ∀ t ∈ c.terms, P t.1 := by
  simp only [scale, Option.bind_eq_bind, Option.bind_eq_some_iff] at h
  obtain ⟨v, -, ts, hts, hc⟩ := h
  cases hc
  intro t ht
  have hmem : t.1 ∈ a.terms.map (·.1) :=
    map_fst_scaleTerms hts ▸ List.mem_map_of_mem (List.mem_filter.mp ht).1
  obtain ⟨u, hu, hut⟩ := List.mem_map.mp hmem
  exact hut ▸ ha u hu

theorem eq_ofConst_of_terms {a : Linear} (h : a.terms = []) : a = ofConst a.constant := by
  rw [ofConst, ← h]

/-- The atoms of an affine form are dimensions, and there are none without dimensions. -/
theorem atoms_of_affine {e : Expr} (he : e.Affine) {a : Linear} (h : of? e = some a) :
    ∀ t ∈ a.terms, (∃ k, t.1 = .dim k) ∧ e.maxDim ≠ none := by
  induction he generalizing a with
  | const v =>
    cases h
    exact List.forall_mem_nil _
  | dim k =>
    cases h
    exact List.forall_mem_singleton.mpr ⟨⟨k, rfl⟩, Option.some_ne_none k⟩
  | add _ _ ihl ihr =>
    simp only [of?, Option.bind_eq_bind, Option.bind_eq_some_iff] at h
    obtain ⟨x, hx, y, hy, hadd⟩ := h
    simp only [Ne, Expr.maxDim_node_eq_none_iff]
    refine forall_atoms_add (P := fun f => (∃ k, f = .dim k) ∧ _) hadd (fun t ht => ?_)
      fun t ht => ?_
    · exact ⟨(ihl hx t ht).1, fun hnone => (ihl hx t ht).2 hnone.1⟩
    · exact ⟨(ihr hy t ht).1, fun hnone => (ihr hy t ht).2 hnone.2⟩
  | @mul l r _ _ scales ihl ihr =>
    obtain ⟨x, y, hx, hy, -⟩ := of?_node h
    simp only [Ne, Expr.maxDim_node_eq_none_iff]
    rcases scales with hl | hr
    · have hconst : x.terms = [] :=
        List.eq_nil_iff_forall_not_mem.mpr fun t ht => (ihl hx t ht).2 hl
      rw [of?_mul_const_left (hx.trans (congrArg some (eq_ofConst_of_terms hconst))), hy] at h
      refine forall_atoms_scale (P := fun f => (∃ k, f = .dim k) ∧ _) h fun t ht => ?_
      exact ⟨(ihr hy t ht).1, fun hnone => (ihr hy t ht).2 hnone.2⟩
    · have hconst : y.terms = [] :=
        List.eq_nil_iff_forall_not_mem.mpr fun t ht => (ihr hy t ht).2 hr
      rw [of?_mul_const_right (hy.trans (congrArg some (eq_ofConst_of_terms hconst))), hx] at h
      refine forall_atoms_scale (P := fun f => (∃ k, f = .dim k) ∧ _) h fun t ht => ?_
      exact ⟨(ihl hx t ht).1, fun hnone => (ihl hx t ht).2 hnone.1⟩

/-! ## Constant forms -/

/-- At the point that is `1` in one dimension and `0` in all others, a form over dimensions
has the coefficient of that dimension. -/
theorem termsValue_point {ts : List (Expr × Int64)} (h : ∀ t ∈ ts, ∃ k, t.1 = .dim k) (k : Nat) :
    termsValue (Expr.value fun j => if j = k then 1 else 0) ts = termsValue (unit (.dim k)) ts := by
  refine termsValue_congr fun t ht => ?_
  obtain ⟨j, hj⟩ := h t ht
  simp only [hj, Expr.value, unit, Expr.dim.injEq]

theorem termsValue_origin {ts : List (Expr × Int64)} (h : ∀ t ∈ ts, ∃ k, t.1 = .dim k) :
    termsValue (Expr.value fun _ => 0) ts = 0 := by
  refine (termsValue_congr fun t ht => ?_).trans (termsValue_zero ts)
  obtain ⟨j, hj⟩ := h t ht
  rw [hj, Expr.value]

theorem map_const?_eq_some_iff {a : Linear} {k : Int} :
    a.const?.map Int64.toInt = some k ↔ a.terms = [] ∧ a.constant.toInt = k := by
  unfold const?
  split <;> simp_all

/-- An affine expression has the same value everywhere exactly if its form is that
constant. -/
theorem const?_iff_of_affine {e : Expr} (he : e.Affine) {a : Linear} (h : of? e = some a)
    (k : Int) : a.const?.map Int64.toInt = some k ↔ ∀ ρ, e.value ρ = k := by
  rw [map_const?_eq_some_iff]
  have hdims : ∀ t ∈ a.terms, ∃ k, t.1 = .dim k := fun t ht => (atoms_of_affine he h t ht).1
  constructor
  · rintro ⟨hterms, rfl⟩ ρ
    rw [← value_of? h, eq_ofConst_of_terms hterms, value_ofConst]
    rfl
  · intro hk
    have hvalue : ∀ ρ, termsValue (Expr.value ρ) a.terms + a.constant.toInt = k := fun ρ =>
      (value_of? h).trans (hk ρ)
    have hconstant : a.constant.toInt = k := by
      have horigin := hvalue fun _ => 0
      rwa [termsValue_origin hdims, Int.zero_add] at horigin
    refine ⟨(canonical_of? h).terms_eq_nil fun t ht => ?_, hconstant⟩
    obtain ⟨j, hj⟩ := hdims t ht
    have hpoint := hvalue fun i => if i = j then 1 else 0
    rw [termsValue_point hdims, ← hj] at hpoint
    show termsValue (unit t.1) a.terms = 0
    omega

end Linear

namespace Expr

/-- Differences of affine expressions are found. If `a - b` can be linearised without an
overflow, it folds to `k` exactly if the integer values of `a` and `b` differ by `k`
wherever the dimensions are put. -/
theorem affine_difference?_complete {a b : Expr} (ha : a.Affine) (hb : b.Affine)
    {form : Linear} (hform : Linear.of? (a - b) = some form) (k : Int) :
    (a.difference? b).map Int64.toInt = some k ↔
      ∀ ρ : Nat → Int, a.value ρ - b.value ρ = k := by
  have hsub : (node .add a (node .mul b (const (-1)))).Affine :=
    .add ha (.mul hb (.const (-1)) (.inr rfl))
  have hraw := (Linear.of?_sub_eq a b).symm.trans hform
  have hvalue : ∀ ρ, (node .add a (node .mul b (const (-1)))).value ρ = a.value ρ - b.value ρ := by
    intro ρ
    simp only [value, Op.value, show (-1 : Int64).toInt = -1 from rfl]
    omega
  simp only [← hvalue, ← Linear.const?_iff_of_affine hsub hraw k, difference?, foldConst?, hform,
    Option.bind_eq_bind, Option.bind_some]

/-- `2 * (i + j) + 5`. -/
def doubledSum : Expr :=
  node .add (node .mul (const 2) (node .add (dim 0) (dim 1))) (const 5)

/-- `j + (i * 2 + (j + k * 0))`. -/
def spelledOutSum : Expr :=
  node .add (dim 1) (node .add (node .mul (dim 0) (const 2))
    (node .add (dim 1) (node .mul (dim 2) (const 0))))

/-- Whatever the grouping, the two sums are `5` apart everywhere. -/
theorem doubledSum_difference?_complete :
    Linear.of? (doubledSum - spelledOutSum) = some (.ofConst 5) ∧
      ∀ ρ, doubledSum.value ρ - spelledOutSum.value ρ = 5 := by
  have hdoubled : doubledSum.Affine :=
    .add (.mul (.const 2) (.add (.dim 0) (.dim 1)) (.inl rfl)) (.const 5)
  have hspelled : spelledOutSum.Affine :=
    .add (.dim 1) (.add (.mul (.dim 0) (.const 2) (.inr rfl))
      (.add (.dim 1) (.mul (.dim 2) (.const 0) (.inr rfl))))
  have hform : Linear.of? (doubledSum - spelledOutSum) = some (.ofConst 5) := by decide
  exact ⟨hform, (affine_difference?_complete hdoubled hspelled hform 5).mp (by decide)⟩

end Expr

end Bankflow
