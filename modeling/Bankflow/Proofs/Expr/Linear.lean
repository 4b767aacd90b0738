import Bankflow.Expr.Linear
import Bankflow.Proofs.Expr.Value
import Mathlib.Tactic.Ring

/-!
# Linear forms have the value of their expression

A linear form has a value once its atoms have values (`Linear.value`), and every
operation on forms is read through it. With the integer values of `Expr.value` for
the atoms, the form of an expression has the value of the expression, at every
point (`Linear.value_of?`). A difference that folds to a constant is therefore the
difference of the two values everywhere, whether or not words can hold them
(`Expr.value_sub_of_difference?`, `Expr.difference?_exact`).
-/

namespace Bankflow

namespace Linear

variable {ν : Expr → Int}

/-- The sum of the coefficients times the values of the atoms. -/
def termsValue (ν : Expr → Int) : List (Expr × Int64) → Int
  | [] => 0
  | (e, c) :: rest => c.toInt * ν e + termsValue ν rest

/-- The value of a form whose atoms have the values `ν`. -/
def value (ν : Expr → Int) (a : Linear) : Int := termsValue ν a.terms + a.constant.toInt

theorem termsValue_addTerm {e : Expr} {c : Int64} :
    ∀ {ts us : List (Expr × Int64)}, addTerm e c ts = some us →
      termsValue ν us = termsValue ν ts + c.toInt * ν e
  | [], us, h => by
    cases h
    simp only [termsValue]
    ring
  | (f, d) :: ts, us, h => by
    unfold addTerm at h
    split at h
    · next hf =>
      obtain ⟨s, hs, rfl⟩ := Option.map_eq_some_iff.mp h
      simp only [termsValue, Word.toInt_add hs, hf]
      ring
    · obtain ⟨vs, hvs, rfl⟩ := Option.map_eq_some_iff.mp h
      simp only [termsValue, termsValue_addTerm hvs]
      ring

theorem termsValue_addTerms :
    ∀ {us ts vs : List (Expr × Int64)}, addTerms ts us = some vs →
      termsValue ν vs = termsValue ν ts + termsValue ν us
  | [], ts, vs, h => by
    cases h
    simp only [termsValue, Int.add_zero]
  | (e, c) :: us, ts, vs, h => by
    simp only [addTerms, Option.bind_eq_bind, Option.bind_eq_some_iff] at h
    obtain ⟨ws, hws, hvs⟩ := h
    simp only [termsValue, termsValue_addTerms hvs, termsValue_addTerm hws]
    ring

theorem termsValue_scaleTerms {k : Int64} :
    ∀ {ts us : List (Expr × Int64)}, scaleTerms k ts = some us →
      termsValue ν us = termsValue ν ts * k.toInt
  | [], us, h => by
    cases h
    simp only [termsValue, Int.zero_mul]
  | (e, c) :: ts, us, h => by
    simp only [scaleTerms, Option.bind_eq_bind, Option.bind_eq_some_iff] at h
    obtain ⟨d, hd, ds, hds, hus⟩ := h
    cases hus
    simp only [termsValue, termsValue_scaleTerms hds, Word.toInt_mul hd]
    ring

/-- Terms with coefficient zero add nothing. -/
theorem termsValue_filter_ne_zero :
    ∀ ts : List (Expr × Int64), termsValue ν (ts.filter (·.2 ≠ 0)) = termsValue ν ts
  | [] => rfl
  | (e, c) :: ts => by
    have ih := termsValue_filter_ne_zero ts
    by_cases hc : c = 0
    · rw [List.filter_cons_of_neg (by simp [hc]), ih, termsValue, hc, Int64.toInt_zero,
        Int.zero_mul, Int.zero_add]
    · rw [List.filter_cons_of_pos (by simpa using hc), termsValue, ih, termsValue]

@[simp] theorem value_ofConst (v : Int64) : (ofConst v).value ν = v.toInt := by
  simp [value, ofConst, termsValue]

@[simp] theorem value_ofAtom (e : Expr) : (ofAtom e).value ν = ν e := by
  simp [value, ofAtom, termsValue]

@[simp] theorem value_ofTerms (ts : List (Expr × Int64)) (v : Int64) :
    (ofTerms ts v).value ν = termsValue ν ts + v.toInt := by
  simp only [value, ofTerms, termsValue_filter_ne_zero]

theorem value_add {a b c : Linear} (h : a.add b = some c) : c.value ν = a.value ν + b.value ν := by
  simp only [add, Option.bind_eq_bind, Option.bind_eq_some_iff] at h
  obtain ⟨k, hk, ts, hts, hc⟩ := h
  cases hc
  rw [value_ofTerms, termsValue_addTerms hts, Word.toInt_add hk, value, value]
  ring

theorem value_scale {a c : Linear} {k : Int64} (h : a.scale k = some c) :
    c.value ν = a.value ν * k.toInt := by
  simp only [scale, Option.bind_eq_bind, Option.bind_eq_some_iff] at h
  obtain ⟨v, hv, ts, hts, hc⟩ := h
  cases hc
  rw [value_ofTerms, termsValue_scaleTerms hts, Word.toInt_mul hv, value]
  ring

theorem eq_ofConst_of_const? {a : Linear} {v : Int64} (h : a.const? = some v) :
    a = ofConst v := by
  obtain ⟨terms, constant⟩ := a
  unfold const? at h
  split at h
  · next he =>
    cases h
    simp only [List.isEmpty_iff] at he
    rw [ofConst, he]
  · cases h

/-! ## The form of an expression -/

/-- How the form of an operator comes from the forms of its operands. -/
theorem of?_node {op : Op} {l r : Expr} {a : Linear} (h : of? (.node op l r) = some a) :
    ∃ x y, of? l = some x ∧ of? r = some y ∧
      ((op = .add ∧ x.add y = some a) ∨
        (∃ u v w, x = ofConst u ∧ y = ofConst v ∧ op.apply u v = some w ∧ a = ofConst w) ∨
        (∃ k, op = .mul ∧ x = ofConst k ∧ y.scale k = some a) ∨
        (∃ k, op = .mul ∧ y = ofConst k ∧ x.scale k = some a) ∨
        a = ofAtom (.node op l r)) := by
  by_cases ho : op = .add
  · subst ho
    simp only [of?, Option.bind_eq_bind, Option.bind_eq_some_iff] at h
    obtain ⟨x, hx, y, hy, ha⟩ := h
    exact ⟨x, y, hx, hy, .inl ⟨rfl, ha⟩⟩
  · simp only [of?, Option.bind_eq_bind, Option.bind_eq_some_iff] at h
    obtain ⟨x, hx, y, hy, ha⟩ := h
    refine ⟨x, y, hx, hy, .inr ?_⟩
    split at ha
    · next hu hv =>
      obtain ⟨w, hw, rfl⟩ := Option.map_eq_some_iff.mp ha
      exact .inl ⟨_, _, w, eq_ofConst_of_const? hu, eq_ofConst_of_const? hv, hw, rfl⟩
    · next hk _ => exact .inr (.inl ⟨_, rfl, eq_ofConst_of_const? hk, ha⟩)
    · next _ hk => exact .inr (.inr (.inl ⟨_, rfl, eq_ofConst_of_const? hk, ha⟩))
    · exact .inr (.inr (.inr (Option.some.inj ha).symm))

/-- A linear form has the value of its expression at every point. -/
theorem value_of? {ρ : Nat → Int} {e : Expr} {a : Linear} (h : of? e = some a) :
    a.value (Expr.value ρ) = e.value ρ := by
  induction e generalizing a with
  | const v =>
    cases h
    exact value_ofConst v
  | dim k =>
    cases h
    exact value_ofAtom (.dim k)
  | node op l r ihl ihr =>
    obtain ⟨x, y, hx, hy, hcase⟩ := of?_node h
    have hl := ihl hx
    have hr := ihr hy
    simp only [Expr.value, ← hl, ← hr]
    rcases hcase with ⟨rfl, ha⟩ | ⟨u, v, w, rfl, rfl, hw, rfl⟩ | ⟨k, rfl, rfl, ha⟩ |
      ⟨k, rfl, rfl, ha⟩ | rfl
    · rw [value_add ha, Op.value]
    · simp only [value_ofConst, Op.toInt_apply hw]
    · rw [value_scale ha, value_ofConst, Op.value, Int.mul_comm]
    · rw [value_scale ha, value_ofConst, Op.value]
    · rw [value_ofAtom, Expr.value, hl, hr]

/-! ## Offsets of an atom -/

theorem of?_offset {e : Expr} (he : of? e = some (ofAtom e)) (u : Int64) :
    of? (.node .add e (.const u)) = some ⟨[(e, 1)], u⟩ := by
  have hu : Word.add 0 u = some u := by
    rw [Word.add, Int64.toInt_zero, Int.zero_add, Word.ofInt?_toInt]
  simp only [of?, he, add, ofAtom, ofConst, addTerms, hu, Option.bind_eq_bind, Option.bind_some]
  rfl

theorem scale_offset (e : Expr) {v w : Int64} (hw : Word.neg v = some w) :
    scale ⟨[(e, 1)], v⟩ (-1) = some ⟨[(e, -1)], w⟩ := by
  have hconstant : Word.mul v (-1) = some w := by
    rw [← hw, Word.mul, Word.neg, show (-1 : Int64).toInt = -1 from rfl, Int.mul_neg_one]
  have hcoefficient : Word.mul 1 (-1) = some (-1) := by decide
  simp only [scale, scaleTerms, hconstant, hcoefficient, Option.bind_eq_bind, Option.bind_some]
  rfl

/-- The atom of two offsets cancels. -/
theorem add_offset (e : Expr) {u w k : Int64} (hk : Word.add u w = some k) :
    add ⟨[(e, 1)], u⟩ ⟨[(e, -1)], w⟩ = some (ofConst k) := by
  have hcoefficient : Word.add 1 (-1) = some 0 := by decide
  simp only [add, addTerms, addTerm, hk, hcoefficient, if_true, Option.map_some,
    Option.bind_eq_bind, Option.bind_some]
  rfl

end Linear

namespace Expr

/-- Folding two constants does not change the value of an operator. -/
@[simp] theorem value_combine (ρ : Nat → Int) (op : Op) (l r : Expr) :
    (combine op l r).value ρ = op.value (l.value ρ) (r.value ρ) := by
  unfold combine
  split
  · split
    · next h => simp only [value, Op.toInt_apply h]
    · rfl
  · rfl

theorem value_sub (ρ : Nat → Int) (a b : Expr) : (a - b).value ρ = a.value ρ - b.value ρ := by
  show (combine .add a (combine .mul b (const (-1)))).value ρ = _
  simp only [value_combine, Op.value, value, show (-1 : Int64).toInt = -1 from rfl]
  ring

/-- The constant by which two expressions differ is the difference of their
values at every point. -/
theorem value_sub_of_difference? {a b : Expr} {k : Int64} (h : a.difference? b = some k)
    (ρ : Nat → Int) : a.value ρ - b.value ρ = k.toInt := by
  simp only [difference?, foldConst?, Option.bind_eq_bind, Option.bind_eq_some_iff] at h
  obtain ⟨l, hl, hk⟩ := h
  rw [← value_sub, ← Linear.value_of? hl, Linear.eq_ofConst_of_const? hk, Linear.value_ofConst]

/-- Where both expressions have words for values, these differ by the constant. -/
theorem toInt_sub_of_difference? {a b : Expr} {k x y : Int64} {dims : List Int64}
    (h : a.difference? b = some k) (hx : a.eval dims = some x) (hy : b.eval dims = some y) :
    x.toInt - y.toInt = k.toInt := by
  rw [toInt_eval hx, toInt_eval hy, value_sub_of_difference? h]

/-- Two offsets of one atom fold if the second can be negated and the sum is a word. -/
theorem difference?_offset {e : Expr} (he : Linear.of? e = some (.ofAtom e)) {u v w k : Int64}
    (hw : Word.neg v = some w) (hk : Word.add u w = some k) :
    (node .add e (const u)).difference? (node .add e (const v)) = some k := by
  have hneg : Linear.of? (node .mul (node .add e (const v)) (const (-1))) =
      some ⟨[(e, -1)], w⟩ := by
    rw [Linear.of?, Linear.of?_offset he, Linear.of?]
    · exact Linear.scale_offset e hw
    · exact Op.noConfusion
  show (Linear.of? (node .add (node .add e (const u))
    (node .mul (node .add e (const v)) (const (-1))))).bind Linear.const? = some k
  rw [Linear.of?, Linear.of?_offset he, hneg]
  show (Linear.add _ _).bind _ = _
  rw [Linear.add_offset e hk]
  rfl

/-- A difference that folds is exact. Wherever both expressions have words for values, these
differ by the constant in the integers, also where `a - b` itself has no word for a value.
And differences do fold: two offsets of one atom differ by a constant. -/
theorem difference?_exact :
    (∀ (a b : Expr) (k x y : Int64) (dims : List Int64), a.difference? b = some k →
      a.eval dims = some x → b.eval dims = some y → x.toInt - y.toInt = k.toInt) ∧
    ∀ (e : Expr) (u v w k : Int64), Linear.of? e = some (.ofAtom e) → Word.neg v = some w →
      Word.add u w = some k →
      (node .add e (const u)).difference? (node .add e (const v)) = some k :=
  ⟨fun _ _ _ _ _ _ h hx hy => toInt_sub_of_difference? h hx hy,
    fun _ _ _ _ _ he hw hk => difference?_offset he hw hk⟩

/-- At the least word the second value cannot be negated. -/
theorem difference?_exact_at_least :
    (node .add (dim 0) (const 1) - dim 0).eval [Int64.minValue] = none ∧
      (node .add (dim 0) (const 1)).difference? (dim 0) = some 1 ∧
      (Int64.minValue + 1).toInt - Int64.minValue.toInt = (1 : Int64).toInt ∧
      (node .add (node .mod (dim 0) (const 4)) (const 7)).difference?
        (node .add (node .mod (dim 0) (const 4)) (const 3)) = some 4 := by
  have hdifference : (node .add (dim 0) (const 1)).difference? (dim 0) = some 1 := by decide
  obtain ⟨hexact, hoffsets⟩ := difference?_exact
  exact ⟨by decide, hdifference, hexact _ _ 1 _ _ [Int64.minValue] hdifference (by decide) rfl,
    hoffsets _ 7 3 (-3) 4 (by decide) (by decide) (by decide)⟩

end Expr

end Bankflow
