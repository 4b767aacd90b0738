import Bankflow.Proofs.Expr.Value
import Mathlib.Data.Rat.Floor

/-!
# Evaluation is exact floor arithmetic

Words divide by correcting a quotient that is rounded towards zero, and round up by
negating twice. What comes out is the arithmetic of `Op.denote`: a quotient of rational
numbers rounded down or up, and the remainder that goes with the one rounded down, for
operands of either sign.

Evaluation is strict, so a result shows that nothing failed on the way: every dimension has
a word (`Expr.lt_length_of_eval`), every divisor was a word other than zero
(`Expr.ne_zero_of_mem_divisors`), and the result is the exact value
(`Expr.eval_exact_where_defined`).
-/

namespace Bankflow

/-! ## Rounded quotients -/

theorem fdiv_eq_floor (a b : Int) : a.fdiv b = ⌊(a : ℚ) / b⌋ := by
  rcases Int.natAbs_eq b with hb | hb
  · rw [hb, Int.fdiv_eq_ediv_of_nonneg a (Int.natCast_nonneg _), Int.cast_natCast,
      Rat.floor_intCast_div_natCast]
  · rw [hb, ← Int.neg_fdiv_neg, neg_neg, Int.fdiv_eq_ediv_of_nonneg _ (Int.natCast_nonneg _),
      ← Rat.floor_intCast_div_natCast, Int.cast_neg, Int.cast_neg, Int.cast_natCast, neg_div,
      div_neg]

theorem neg_neg_fdiv_eq_ceil (a b : Int) : -((-a).fdiv b) = ⌈(a : ℚ) / b⌉ := by
  rw [fdiv_eq_floor, Int.cast_neg, neg_div, Int.floor_neg, neg_neg]

namespace Op

/-- The operator on integers, with quotients of rational numbers that are rounded down or
up. -/
def denote : Op → Int → Int → Int
  | .add, a, b => a + b
  | .mul, a, b => a * b
  | .mod, a, b => a - b * ⌊(a : ℚ) / b⌋
  | .floorDiv, a, b => ⌊(a : ℚ) / b⌋
  | .ceilDiv, a, b => ⌈(a : ℚ) / b⌉

theorem value_eq_denote (op : Op) (a b : Int) : op.value a b = op.denote a b := by
  cases op with
  | add => rfl
  | mul => rfl
  | mod => rw [value, denote, Int.fmod_def, fdiv_eq_floor]
  | floorDiv => exact fdiv_eq_floor a b
  | ceilDiv => exact neg_neg_fdiv_eq_ceil a b

/-- Whether the operator divides by its right operand. -/
def divides : Op → Bool
  | .add | .mul => false
  | .mod | .floorDiv | .ceilDiv => true

end Op

theorem Word.ne_zero_of_floorDiv {a b v : Int64} (h : floorDiv a b = some v) : b.toInt ≠ 0 := by
  rw [floorDiv_eq] at h
  split at h
  · cases h
  · next hb => exact fun h0 => hb (Int64.toInt_inj.mp h0)

/-- A division by zero has no result. -/
theorem Op.ne_zero_of_apply {op : Op} {a b v : Int64} (hop : op.divides = true)
    (h : op.apply a b = some v) : b.toInt ≠ 0 := by
  cases op with
  | add => cases hop
  | mul => cases hop
  | floorDiv => exact Word.ne_zero_of_floorDiv h
  | ceilDiv =>
    simp only [apply, Word.ceilDiv, Option.bind_eq_bind, Option.bind_eq_some_iff] at h
    obtain ⟨_, _, q, hq, _⟩ := h
    exact Word.ne_zero_of_floorDiv hq
  | mod =>
    simp only [apply, Word.mod, Option.bind_eq_bind, Option.bind_eq_some_iff] at h
    obtain ⟨q, hq, _⟩ := h
    exact Word.ne_zero_of_floorDiv hq

/-! ## Expressions -/

namespace Expr

/-- The exact value of an expression whose dimensions have the values `ρ`. -/
def denote (ρ : Nat → Int) : Expr → Int
  | const v => v.toInt
  | dim k => ρ k
  | node op l r => op.denote (l.denote ρ) (r.denote ρ)

theorem value_eq_denote (ρ : Nat → Int) : ∀ e : Expr, e.value ρ = e.denote ρ
  | const _ => rfl
  | dim _ => rfl
  | node op l r => by
    rw [value, denote, Op.value_eq_denote, value_eq_denote ρ l, value_eq_denote ρ r]

/-- The operands that are divided by, anywhere in the expression. -/
def divisors : Expr → List Expr
  | const _ => []
  | dim _ => []
  | node op l r => l.divisors ++ r.divisors ++ if op.divides then [r] else []

variable {dims : List Int64} {v : Int64}

/-- Every dimension of an expression that evaluates has a word. -/
theorem lt_length_of_eval {e : Expr} (h : e.eval dims = some v) :
    ∀ k ∈ e.dims, k < dims.length := by
  induction e generalizing v with
  | const c => exact fun k hk => by simp only [Expr.dims, List.not_mem_nil] at hk
  | dim j =>
    intro k hk
    obtain rfl := List.mem_singleton.mp hk
    exact (List.getElem?_eq_some_iff.mp h).1
  | node op l r ihl ihr =>
    obtain ⟨a, ha, b, hb, -⟩ := eval_node_eq_some_iff.mp h
    intro k hk
    rcases List.mem_append.mp hk with hk | hk
    · exact ihl ha k hk
    · exact ihr hb k hk

/-- Every divisor in an expression that evaluates is a word other than zero. -/
theorem ne_zero_of_mem_divisors {e : Expr} (h : e.eval dims = some v) :
    ∀ r ∈ e.divisors, ∃ w, r.eval dims = some w ∧ w.toInt ≠ 0 := by
  induction e generalizing v with
  | const c => exact fun r hr => by simp only [divisors, List.not_mem_nil] at hr
  | dim j => exact fun r hr => by simp only [divisors, List.not_mem_nil] at hr
  | node op l r ihl ihr =>
    obtain ⟨a, ha, b, hb, hv⟩ := eval_node_eq_some_iff.mp h
    intro s hs
    rw [divisors, List.mem_append, List.mem_append] at hs
    rcases hs with (hs | hs) | hs
    · exact ihl ha s hs
    · exact ihr hb s hs
    · by_cases hop : op.divides = true
      · rw [if_pos hop, List.mem_singleton] at hs
        exact ⟨b, hs ▸ hb, Op.ne_zero_of_apply hop hv⟩
      · rw [if_neg hop] at hs
        simp only [List.not_mem_nil] at hs

/-- Where an expression evaluates, its value is exact at every point with these words. -/
theorem toInt_eval_eq_denote {ρ : Nat → Int}
    (hρ : ∀ (k : Nat) (w : Int64), dims[k]? = some w → ρ k = w.toInt) {e : Expr}
    (h : e.eval dims = some v) : v.toInt = e.denote ρ := by
  have hpoint : ∀ k ∈ e.dims, point dims k = ρ k := by
    intro k hk
    have hword := List.getElem?_eq_getElem (lt_length_of_eval h k hk)
    rw [hρ k _ hword, point, hword]
  rw [toInt_eval h, value_congr hpoint, value_eq_denote]

/-- Evaluation is exact. If an expression has a result at some words, then all of its
dimensions are among them, none of its divisors is zero, and the result is its value in the
integers, where quotients are rounded as `Op.denote` says and have any sign. -/
theorem eval_exact_where_defined {e : Expr} (h : e.eval dims = some v) :
    (∀ k ∈ e.dims, k < dims.length) ∧
      ∀ ρ : Nat → Int, (∀ (k : Nat) (w : Int64), dims[k]? = some w → ρ k = w.toInt) →
        (∀ r ∈ e.divisors, r.denote ρ ≠ 0) ∧ v.toInt = e.denote ρ := by
  refine ⟨lt_length_of_eval h, fun ρ hρ => ⟨fun r hr => ?_, toInt_eval_eq_denote hρ h⟩⟩
  obtain ⟨w, hw, hne⟩ := ne_zero_of_mem_divisors h r hr
  rw [← toInt_eval_eq_denote hρ hw]
  exact hne

/-- `d0 floordiv d1 + (d0 ceildiv d1) mod -5`. -/
def roundedBothWays : Expr :=
  node .add (node .floorDiv (dim 0) (dim 1))
    (node .mod (node .ceilDiv (dim 0) (dim 1)) (const (-5)))

/-- At `-7` and `2`, and at `7` and `-2`, the quotient is rounded down to `-4` and up to `-3`. -/
theorem roundedBothWays_exact :
    roundedBothWays.eval [-7, 2] = some (-7) ∧ roundedBothWays.eval [7, -2] = some (-7) ∧
      roundedBothWays.denote (point [-7, 2]) = -7 ∧
      roundedBothWays.denote (point [7, -2]) = -7 := by
  have hleft : roundedBothWays.eval [-7, 2] = some (-7) := by decide
  have hright : roundedBothWays.eval [7, -2] = some (-7) := by decide
  have hpoint (dims : List Int64) (k : Nat) (w : Int64) (hw : dims[k]? = some w) :
      point dims k = w.toInt := by
    rw [point, hw]
  exact ⟨hleft, hright, ((eval_exact_where_defined hleft).2 _ (hpoint _)).2.symm,
    ((eval_exact_where_defined hright).2 _ (hpoint _)).2.symm⟩

end Expr

end Bankflow
