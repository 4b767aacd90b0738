import Bankflow.Proofs.Expr.Linear
import Mathlib.Data.List.Nodup

/-!
# Linear forms are canonical

The form of an expression lists an atom once, with a coefficient that is not zero
(`Linear.canonical_of?`). So it is known by the coefficients of its atoms: a form has no
terms exactly if all of them are zero (`Linear.Canonical.terms_eq_nil`).

This gives the exact conditions under which a difference folds
(`Expr.difference?_eq_some_iff`): the coefficients of both sides agree, what is
subtracted can be negated term by term, and the difference of the constants is a word. The
two directions of a difference need not fold together. The conditions that they do not
share are about the least word alone (`Expr.reverse_difference?_eq_none_iff`).
-/

namespace Bankflow

namespace Word

/-- Every word but the least one can be negated. -/
theorem exists_mul_neg_one_iff {a : Int64} : (∃ v, mul a (-1) = some v) ↔ a.toInt ≠ least := by
  have hmul : mul a (-1) = ofInt? (-a.toInt) := by
    rw [mul, show (-1 : Int64).toInt = -1 from rfl, Int.mul_neg_one]
  have hlo := least_le_toInt a
  have hhi := toInt_le_greatest a
  rw [hmul, ← Option.ne_none_iff_exists', Ne, ofInt?_eq_none_iff]
  simp only [least, greatest] at *
  omega

theorem mul_comm (a b : Int64) : mul a b = mul b a := by
  rw [mul, mul, Int.mul_comm]

end Word

namespace Linear

open Word (least)

/-- Every atom once, with a coefficient that is not zero. -/
structure Canonical (a : Linear) : Prop where
  nodup : (a.terms.map (·.1)).Nodup
  ne_zero : ∀ t ∈ a.terms, t.2 ≠ 0

/-! ## Operations keep forms canonical -/

theorem mem_of_mem_addTerm {e : Expr} {c : Int64} {t : Expr × Int64} :
    ∀ {ts us : List (Expr × Int64)}, addTerm e c ts = some us → t ∈ us → t.1 = e ∨ t ∈ ts
  | [], us, h, ht => by
    cases h
    rw [List.mem_singleton.mp ht]
    exact .inl rfl
  | (f, d) :: ts, us, h, ht => by
    unfold addTerm at h
    split at h
    · next hf =>
      obtain ⟨s, -, rfl⟩ := Option.map_eq_some_iff.mp h
      rcases List.mem_cons.mp ht with rfl | ht
      · exact .inl hf
      · exact .inr (List.mem_cons_of_mem _ ht)
    · obtain ⟨vs, hvs, rfl⟩ := Option.map_eq_some_iff.mp h
      rcases List.mem_cons.mp ht with rfl | ht
      · exact .inr List.mem_cons_self
      · exact (mem_of_mem_addTerm hvs ht).imp_right (List.mem_cons_of_mem _)

theorem nodup_addTerm {e : Expr} {c : Int64} :
    ∀ {ts us : List (Expr × Int64)}, addTerm e c ts = some us → (ts.map (·.1)).Nodup →
      (us.map (·.1)).Nodup
  | [], us, h, _ => by
    cases h
    exact List.nodup_singleton e
  | (f, d) :: ts, us, h, hts => by
    rw [List.map_cons, List.nodup_cons] at hts
    unfold addTerm at h
    split at h
    · obtain ⟨s, -, rfl⟩ := Option.map_eq_some_iff.mp h
      exact List.nodup_cons.mpr hts
    · next hf =>
      obtain ⟨vs, hvs, rfl⟩ := Option.map_eq_some_iff.mp h
      refine List.nodup_cons.mpr ⟨fun hmem => ?_, nodup_addTerm hvs hts.2⟩
      obtain ⟨t, ht, htf⟩ := List.mem_map.mp hmem
      rcases mem_of_mem_addTerm hvs ht with hte | ht
      · exact hf (htf.symm.trans hte)
      · exact hts.1 (List.mem_map.mpr ⟨t, ht, htf⟩)

theorem nodup_addTerms :
    ∀ {us ts vs : List (Expr × Int64)}, addTerms ts us = some vs → (ts.map (·.1)).Nodup →
      (vs.map (·.1)).Nodup
  | [], ts, vs, h, hts => by
    cases h
    exact hts
  | (e, c) :: us, ts, vs, h, hts => by
    simp only [addTerms, Option.bind_eq_bind, Option.bind_eq_some_iff] at h
    obtain ⟨ws, hws, hvs⟩ := h
    exact nodup_addTerms hvs (nodup_addTerm hws hts)

theorem map_fst_scaleTerms {k : Int64} :
    ∀ {ts us : List (Expr × Int64)}, scaleTerms k ts = some us → us.map (·.1) = ts.map (·.1)
  | [], us, h => by
    cases h
    rfl
  | (e, c) :: ts, us, h => by
    simp only [scaleTerms, Option.bind_eq_bind, Option.bind_eq_some_iff] at h
    obtain ⟨d, -, ds, hds, hus⟩ := h
    cases hus
    rw [List.map_cons, List.map_cons, map_fst_scaleTerms hds]

theorem canonical_ofTerms {ts : List (Expr × Int64)} (h : (ts.map (·.1)).Nodup) (v : Int64) :
    (ofTerms ts v).Canonical where
  nodup := h.sublist (List.filter_sublist.map _)
  ne_zero t ht := by simpa using (List.mem_filter.mp ht).2

theorem canonical_ofConst (v : Int64) : (ofConst v).Canonical :=
  ⟨List.nodup_nil, List.forall_mem_nil _⟩

theorem canonical_ofAtom (e : Expr) : (ofAtom e).Canonical :=
  ⟨List.nodup_singleton e, List.forall_mem_singleton.mpr (show (1 : Int64) ≠ 0 by decide)⟩

theorem Canonical.add {a b c : Linear} (ha : a.Canonical) (h : a.add b = some c) :
    c.Canonical := by
  simp only [Linear.add, Option.bind_eq_bind, Option.bind_eq_some_iff] at h
  obtain ⟨k, -, ts, hts, hc⟩ := h
  cases hc
  exact canonical_ofTerms (nodup_addTerms hts ha.nodup) k

theorem Canonical.scale {a c : Linear} {k : Int64} (ha : a.Canonical) (h : a.scale k = some c) :
    c.Canonical := by
  simp only [Linear.scale, Option.bind_eq_bind, Option.bind_eq_some_iff] at h
  obtain ⟨v, -, ts, hts, hc⟩ := h
  cases hc
  exact canonical_ofTerms (map_fst_scaleTerms hts ▸ ha.nodup) v

/-- The form of an expression is canonical. -/
theorem canonical_of? {e : Expr} {a : Linear} (h : of? e = some a) : a.Canonical := by
  induction e generalizing a with
  | const v =>
    cases h
    exact canonical_ofConst v
  | dim k =>
    cases h
    exact canonical_ofAtom (.dim k)
  | node op l r ihl ihr =>
    obtain ⟨x, y, hx, hy, hcase⟩ := of?_node h
    rcases hcase with ⟨-, ha⟩ | ⟨u, v, w, -, -, -, rfl⟩ | ⟨k, -, -, ha⟩ | ⟨k, -, -, ha⟩ | rfl
    · exact (ihl hx).add ha
    · exact canonical_ofConst w
    · exact (ihr hy).scale ha
    · exact (ihl hx).scale ha
    · exact canonical_ofAtom (.node op l r)

/-! ## Coefficients -/

theorem termsValue_congr {ν μ : Expr → Int} :
    ∀ {ts : List (Expr × Int64)}, (∀ t ∈ ts, ν t.1 = μ t.1) → termsValue ν ts = termsValue μ ts
  | [], _ => rfl
  | (e, c) :: ts, h => by
    rw [List.forall_mem_cons] at h
    rw [termsValue, termsValue, h.1, termsValue_congr h.2]

theorem termsValue_zero : ∀ ts : List (Expr × Int64), termsValue (fun _ => 0) ts = 0
  | [] => rfl
  | (e, c) :: ts => by
    rw [termsValue, termsValue_zero ts, Int.mul_zero, Int.zero_add]

/-- The value `1` for one atom and `0` for all others. -/
def unit (e : Expr) (f : Expr) : Int := if f = e then 1 else 0

/-- The coefficient of an atom, `0` if it does not occur. -/
def coefficient (a : Linear) (e : Expr) : Int := termsValue (unit e) a.terms

theorem value_zero (a : Linear) : a.value (fun _ => 0) = a.constant.toInt := by
  rw [value, termsValue_zero, Int.zero_add]

theorem value_unit (a : Linear) (e : Expr) :
    a.value (unit e) = a.coefficient e + a.constant.toInt := rfl

theorem termsValue_unit_of_not_mem {e : Expr} {ts : List (Expr × Int64)}
    (h : e ∉ ts.map (·.1)) : termsValue (unit e) ts = 0 := by
  rw [← termsValue_zero ts]
  refine termsValue_congr fun t ht => if_neg ?_
  rintro rfl
  exact h (List.mem_map_of_mem ht)

theorem termsValue_unit_of_mem {t : Expr × Int64} :
    ∀ {ts : List (Expr × Int64)}, (ts.map (·.1)).Nodup → t ∈ ts →
      termsValue (unit t.1) ts = t.2.toInt
  | (e, c) :: ts, hts, ht => by
    rw [List.map_cons, List.nodup_cons] at hts
    rcases List.mem_cons.mp ht with rfl | ht
    · rw [termsValue, termsValue_unit_of_not_mem hts.1, unit, if_pos rfl, Int.mul_one, Int.add_zero]
    · have hne : e ≠ t.1 := fun he => hts.1 (List.mem_map.mpr ⟨t, ht, he.symm⟩)
      rw [termsValue, unit, if_neg hne, termsValue_unit_of_mem hts.2 ht, Int.mul_zero, Int.zero_add]

theorem Canonical.coefficient_of_mem {a : Linear} (ha : a.Canonical) {t : Expr × Int64}
    (ht : t ∈ a.terms) : a.coefficient t.1 = t.2.toInt :=
  termsValue_unit_of_mem ha.nodup ht

/-- Without coefficients there are no terms. -/
theorem Canonical.terms_eq_nil {a : Linear} (ha : a.Canonical)
    (h : ∀ t ∈ a.terms, a.coefficient t.1 = 0) : a.terms = [] := by
  refine List.eq_nil_iff_forall_not_mem.mpr fun t ht => ha.ne_zero t ht ?_
  rw [← Int64.toInt_inj, ← ha.coefficient_of_mem ht, h t ht, Int64.toInt_zero]

/-! ## Sums and negations that do not fail -/

theorem exists_addTerm {e : Expr} {c : Int64} :
    ∀ {ts : List (Expr × Int64)}, (∀ d, (e, d) ∈ ts → ∃ s, Word.add d c = some s) →
      ∃ us, addTerm e c ts = some us
  | [], _ => ⟨_, rfl⟩
  | (f, d) :: ts, h => by
    unfold addTerm
    split
    · next hf =>
      obtain ⟨s, hs⟩ := h d (hf ▸ List.mem_cons_self)
      rw [hs]
      exact ⟨_, rfl⟩
    · obtain ⟨us, hus⟩ := exists_addTerm fun d hd => h d (List.mem_cons_of_mem _ hd)
      rw [hus]
      exact ⟨_, rfl⟩

/-- Terms can be added if each coefficient fits together with the one that is there. The
terms have different atoms, so adding one does not change what the next one meets. -/
theorem exists_addTerms :
    ∀ {us ts : List (Expr × Int64)}, (us.map (·.1)).Nodup →
      (∀ t ∈ us, ∀ d, (t.1, d) ∈ ts → ∃ s, Word.add d t.2 = some s) →
      ∃ vs, addTerms ts us = some vs
  | [], ts, _, _ => ⟨ts, rfl⟩
  | (e, c) :: us, ts, hus, h => by
    rw [List.map_cons, List.nodup_cons] at hus
    obtain ⟨ws, hws⟩ := exists_addTerm (h (e, c) List.mem_cons_self)
    have hrest : ∀ t ∈ us, ∀ d, (t.1, d) ∈ ws → ∃ s, Word.add d t.2 = some s := by
      intro t ht d hd
      rcases mem_of_mem_addTerm hws hd with he | hd
      · exact absurd (List.mem_map.mpr ⟨t, ht, he⟩) hus.1
      · exact h t (List.mem_cons_of_mem _ ht) d hd
    obtain ⟨vs, hvs⟩ := exists_addTerms hus.2 hrest
    refine ⟨vs, ?_⟩
    simp only [addTerms, hws, Option.bind_eq_bind, Option.bind_some]
    exact hvs

theorem exists_scaleTerms_neg_one_iff :
    ∀ {ts : List (Expr × Int64)},
      (∃ us, scaleTerms (-1) ts = some us) ↔ ∀ t ∈ ts, t.2.toInt ≠ least
  | [] => by simp [scaleTerms]
  | (e, c) :: ts => by
    rw [List.forall_mem_cons, ← exists_scaleTerms_neg_one_iff, ← Word.exists_mul_neg_one_iff]
    simp only [scaleTerms, Option.bind_eq_bind, Option.bind_eq_some_iff, Option.some.injEq]
    constructor
    · rintro ⟨_, d, hd, ds, hds, -⟩
      exact ⟨⟨d, hd⟩, ds, hds⟩
    · rintro ⟨⟨d, hd⟩, ds, hds⟩
      exact ⟨_, d, hd, ds, hds, rfl⟩

/-- Neither the constant nor a coefficient is the least word, which cannot be negated. -/
structure Negatable (a : Linear) : Prop where
  constant : a.constant.toInt ≠ least
  coefficient : ∀ e, a.coefficient e ≠ least

theorem Canonical.forall_terms_iff {a : Linear} (ha : a.Canonical) :
    (∀ t ∈ a.terms, t.2.toInt ≠ least) ↔ ∀ e, a.coefficient e ≠ least := by
  constructor
  · intro h e
    by_cases he : e ∈ a.terms.map (·.1)
    · obtain ⟨t, ht, rfl⟩ := List.mem_map.mp he
      rw [ha.coefficient_of_mem ht]
      exact h t ht
    · rw [coefficient, termsValue_unit_of_not_mem he]
      decide
  · intro h t ht
    rw [← ha.coefficient_of_mem ht]
    exact h t.1

theorem Canonical.exists_scale_neg_one_iff {a : Linear} (ha : a.Canonical) :
    (∃ b, a.scale (-1) = some b) ↔ a.Negatable := by
  simp only [Linear.scale, Option.bind_eq_bind, Option.bind_eq_some_iff, Option.some.injEq]
  constructor
  · rintro ⟨_, v, hv, ts, hts, -⟩
    exact ⟨Word.exists_mul_neg_one_iff.mp ⟨v, hv⟩,
      ha.forall_terms_iff.mp (exists_scaleTerms_neg_one_iff.mp ⟨ts, hts⟩)⟩
  · intro h
    obtain ⟨v, hv⟩ := Word.exists_mul_neg_one_iff.mpr h.constant
    obtain ⟨ts, hts⟩ := exists_scaleTerms_neg_one_iff.mpr (ha.forall_terms_iff.mpr h.coefficient)
    exact ⟨_, v, hv, ts, hts, rfl⟩

/-! ## The form of a difference -/

/-- Folding two constants does not change the form. -/
theorem of?_combine (op : Op) (l r : Expr) : of? (.combine op l r) = of? (.node op l r) := by
  unfold Expr.combine
  split
  · next a b =>
    split
    · next v hv =>
      cases op with
      | add =>
        have hadd : Word.add a b = some v := hv
        simp only [of?, add, ofConst, hadd, Option.bind_eq_bind, Option.bind_some]
        rfl
      | _ =>
        simp only [of?, const?, ofConst, hv, Option.bind_eq_bind, Option.bind_some,
          List.isEmpty_nil, if_true, Option.map_some]
    · rfl
  · rfl

theorem const?_ofConst (v : Int64) : (ofConst v).const? = some v := rfl

theorem scale_ofConst (u k : Int64) : (ofConst u).scale k = (Word.mul u k).map ofConst := by
  cases h : Word.mul u k <;> simp [scale, ofConst, ofTerms, scaleTerms, h]

/-- A product with a constant on the right is a scaled form. -/
theorem of?_mul_const_right {l r : Expr} {k : Int64} (hr : of? r = some (ofConst k)) :
    of? (.node .mul l r) = (of? l).bind (·.scale k) := by
  simp only [of?, hr, Option.bind_eq_bind, Option.bind_some, const?_ofConst]
  refine Option.bind_congr fun a _ => ?_
  cases ha : a.const? with
  | none => rfl
  | some u =>
    rw [eq_ofConst_of_const? ha, scale_ofConst]
    rfl

theorem of?_mul_const_left {l r : Expr} {k : Int64} (hl : of? l = some (ofConst k)) :
    of? (.node .mul l r) = (of? r).bind (·.scale k) := by
  simp only [of?, hl, Option.bind_eq_bind, Option.bind_some, const?_ofConst]
  refine Option.bind_congr fun b _ => ?_
  cases hb : b.const? with
  | none => rfl
  | some u =>
    rw [eq_ofConst_of_const? hb, scale_ofConst, Word.mul_comm]
    rfl

/-- A difference is linearised as the sum with a product by `-1`, folded or not. -/
theorem of?_sub_eq (a b : Expr) :
    of? (a - b) = of? (.node .add a (.node .mul b (.const (-1)))) := by
  have hright : ∀ {r s : Expr}, of? r = of? s → of? (.node .add a r) = of? (.node .add a s) :=
    fun h => by rw [of?, of?, h]
  show of? (.combine .add a (.combine .mul b (.const (-1)))) = _
  rw [of?_combine, hright (of?_combine .mul b (.const (-1)))]

theorem of?_sub (a b : Expr) :
    of? (a - b) = (of? a).bind fun x => (of? b).bind fun y => (y.scale (-1)).bind x.add := by
  rw [of?_sub_eq, of?, of?_mul_const_right rfl]
  simp only [Option.bind_eq_bind, Option.bind_assoc]

/-- Two forms cancel exactly if their coefficients agree, one can be negated, and the
difference of their constants is a word. -/
theorem exists_cancel_iff {x y : Linear} (hx : x.Canonical) (hy : y.Canonical) {k : Int64} :
    (∃ z, y.scale (-1) = some z ∧ x.add z = some (ofConst k)) ↔
      (∀ e, x.coefficient e = y.coefficient e) ∧ y.Negatable ∧
        k.toInt = x.constant.toInt - y.constant.toInt := by
  have hone : (-1 : Int64).toInt = -1 := rfl
  constructor
  · rintro ⟨z, hz, hadd⟩
    have hvalue : ∀ ν, k.toInt = x.value ν - y.value ν := fun ν => by
      rw [← value_ofConst (ν := ν) k, value_add hadd, value_scale hz, hone]
      omega
    have hconstant := hvalue fun _ => 0
    rw [value_zero, value_zero] at hconstant
    refine ⟨fun e => ?_, hy.exists_scale_neg_one_iff.mp ⟨z, hz⟩, hconstant⟩
    have hunit := hvalue (unit e)
    rw [value_unit, value_unit] at hunit
    omega
  · rintro ⟨hcoefficient, hneg, hk⟩
    obtain ⟨z, hz⟩ := hy.exists_scale_neg_one_iff.mpr hneg
    have hzc := hy.scale hz
    have hzvalue : ∀ ν, z.value ν = -y.value ν := fun ν => by
      rw [value_scale hz, hone, Int.mul_neg_one]
    have hzero := hzvalue fun _ => 0
    rw [value_zero, value_zero] at hzero
    have hcancel : ∀ e, x.coefficient e + z.coefficient e = 0 := fun e => by
      have hunit := hzvalue (unit e)
      rw [value_unit, value_unit] at hunit
      have := hcoefficient e
      omega
    -- each coefficient meets its negation, so nothing overflows
    have hfits : ∀ t ∈ z.terms, ∀ d, (t.1, d) ∈ x.terms → ∃ s, Word.add d t.2 = some s := by
      intro t ht d hd
      have hxt : x.coefficient t.1 = d.toInt := hx.coefficient_of_mem hd
      have hzt := hzc.coefficient_of_mem ht
      have hsum := hcancel t.1
      refine ⟨0, Word.ofInt?_eq_some_iff.mpr ?_⟩
      rw [Int64.toInt_zero]
      omega
    obtain ⟨ts, hts⟩ := exists_addTerms hzc.nodup hfits
    have hconstant : Word.add x.constant z.constant = some k := by
      refine Word.ofInt?_eq_some_iff.mpr ?_
      omega
    have hadd : x.add z = some (ofTerms ts k) := by
      simp only [add, hconstant, hts, Option.bind_eq_bind, Option.bind_some]
    refine ⟨z, hz, hadd.trans (congrArg some ?_)⟩
    have hnil : (ofTerms ts k).terms = [] := by
      refine (hx.add hadd).terms_eq_nil fun t _ => ?_
      have hunit := value_add (ν := unit t.1) hadd
      rw [value_unit, value_unit, value_unit] at hunit
      have := hcancel t.1
      have hsum := Word.toInt_add hconstant
      have hk' : (ofTerms ts k).constant = k := rfl
      rw [hk'] at hunit
      omega
    rw [ofConst, ← hnil]
    rfl

end Linear

namespace Expr

open Linear (of?)
open Word (least)

/-- When a difference folds, and to what. -/
theorem difference?_eq_some_iff {a b : Expr} {k : Int64} :
    a.difference? b = some k ↔
      ∃ x y, of? a = some x ∧ of? b = some y ∧ (∀ e, x.coefficient e = y.coefficient e) ∧
        y.Negatable ∧ k.toInt = x.constant.toInt - y.constant.toInt := by
  have hform : a.difference? b = some k ↔ of? (a - b) = some (.ofConst k) := by
    simp only [difference?, foldConst?, Option.bind_eq_bind, Option.bind_eq_some_iff]
    constructor
    · rintro ⟨l, hl, hk⟩
      rw [hl, Linear.eq_ofConst_of_const? hk]
    · intro h
      exact ⟨_, h, rfl⟩
  rw [hform, Linear.of?_sub]
  simp only [Option.bind_eq_some_iff]
  constructor
  · rintro ⟨x, hx, y, hy, hcancel⟩
    exact ⟨x, y, hx, hy,
      (Linear.exists_cancel_iff (Linear.canonical_of? hx) (Linear.canonical_of? hy)).mp hcancel⟩
  · rintro ⟨x, y, hx, hy, hcancel⟩
    exact ⟨x, hx, y, hy,
      (Linear.exists_cancel_iff (Linear.canonical_of? hx) (Linear.canonical_of? hy)).mpr hcancel⟩

/-- Where a difference folds, the one the other way round fails to exactly if it would be
greater than all words, or if the least word is the constant of the form that it negates. -/
theorem reverse_difference?_eq_none_iff {a b : Expr} {x : Linear} {k : Int64}
    (h : a.difference? b = some k) (hx : of? a = some x) :
    b.difference? a = none ↔ k.toInt = least ∨ x.constant.toInt = least := by
  obtain ⟨x', y, hx', hy, hcoefficient, hneg, hk⟩ := difference?_eq_some_iff.mp h
  obtain rfl : x = x' := Option.some.inj (hx.symm.trans hx')
  have hreverse : ∀ j, b.difference? a = some j ↔
      x.constant.toInt ≠ least ∧ j.toInt = -k.toInt := by
    intro j
    rw [difference?_eq_some_iff]
    constructor
    · rintro ⟨y', x', hy', hx', -, hnegx, hj⟩
      obtain rfl : y = y' := Option.some.inj (hy.symm.trans hy')
      obtain rfl : x = x' := Option.some.inj (hx.symm.trans hx')
      exact ⟨hnegx.constant, by omega⟩
    · rintro ⟨hconstant, hj⟩
      -- the coefficients can be negated on either side, for they are the same
      have hnegx : x.Negatable := ⟨hconstant, fun e => hcoefficient e ▸ hneg.coefficient e⟩
      exact ⟨y, x, hy, hx, fun e => (hcoefficient e).symm, hnegx, by omega⟩
  have hword : (∃ j : Int64, j.toInt = -k.toInt) ↔ k.toInt ≠ least := by
    rw [← Word.exists_mul_neg_one_iff]
    simp only [Word.mul, Word.ofInt?_eq_some_iff, show (-1 : Int64).toInt = -1 from rfl,
      Int.mul_neg_one]
  rw [← not_iff_not, ← Ne, Option.ne_none_iff_exists', not_or]
  simp only [hreverse, exists_and_left, hword]
  exact and_comm

end Expr

end Bankflow
