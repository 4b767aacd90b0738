import Bankflow.Proofs.Bank.Reordering

/-!
# Indices have offsets

Whether or not an index can be evaluated anywhere, its linear form has a constant, and a
difference that folds is the difference of two such constants (`toInt_of_difference?`). So
the differences between the indices of an array are those of integers, and a spread of
indices is one of offsets.

Of two differences in a row the sum is the difference of the outer indices, which is known
unless it overflows (`difference?_trans`).
-/

namespace Bankflow

open Linear (of?)

namespace Expr

variable {a b c : Expr} {j k : Int64}

theorem constantOf_eq {x : Linear} (hx : of? a = some x) : constantOf a = x.constant.toInt := by
  rw [constantOf, hx, Option.map_some, Option.getD_some]

/-- A difference that folds is the difference of the constants. -/
theorem toInt_of_difference? (h : a.difference? b = some k) :
    k.toInt = constantOf a - constantOf b := by
  obtain ⟨x, y, hx, hy, -, -, hk⟩ := difference?_eq_some_iff.mp h
  rw [constantOf_eq hx, constantOf_eq hy, hk]

/-- Two differences in a row. The atoms of the outer indices cancel since those of both cancel
with the ones in between, and the form to negate is that of the second difference. -/
theorem difference?_trans (hab : a.difference? b = some j) (hbc : b.difference? c = some k) :
    a.difference? c = Word.add j k := by
  obtain ⟨x, y, hx, hy, hxy, -, hj⟩ := difference?_eq_some_iff.mp hab
  obtain ⟨y', z, hy', hz, hyz, hneg, hk⟩ := difference?_eq_some_iff.mp hbc
  obtain rfl : y = y' := Option.some.inj (hy.symm.trans hy')
  refine Option.ext fun m => ?_
  rw [Word.add, Word.ofInt?_eq_some_iff]
  constructor
  · intro hm
    have := toInt_of_difference? hm
    rw [constantOf_eq hx, constantOf_eq hz] at this
    omega
  · intro hm
    exact difference?_eq_some_iff.mpr
      ⟨x, z, hx, hz, fun e => (hxy e).trans (hyz e), hneg, by omega⟩

/-- Differences that fold are consistent, also between indices that have no value anywhere.
Each is the difference of the offsets of the two indices. So the one the other way round is
its negation, two in a row add up to that of the outer indices, which folds if the sum is a
word, and no index differs from itself. -/
theorem difference?_consistent :
    (∀ (a b : Expr) (k : Int64), a.difference? b = some k →
      k.toInt = constantOf a - constantOf b) ∧
    (∀ (a b : Expr) (j k : Int64), a.difference? b = some j → b.difference? a = some k →
      k.toInt = -j.toInt) ∧
    (∀ (a b c : Expr) (j k : Int64), a.difference? b = some j → b.difference? c = some k →
      a.difference? c = Word.add j k ∧
        ∀ m, a.difference? c = some m → m.toInt = j.toInt + k.toInt) ∧
    ∀ (a : Expr) (k : Int64), a.difference? a = some k → k = 0 := by
  refine ⟨fun a b k => toInt_of_difference?, fun a b j k hab hba => ?_,
    fun a b c j k hab hbc => ⟨difference?_trans hab hbc, fun m hac => ?_⟩, fun a k haa => ?_⟩
  · have hj := toInt_of_difference? hab
    have hk := toInt_of_difference? hba
    omega
  · rw [difference?_trans hab hbc] at hac
    exact Word.toInt_add hac
  · have hk := toInt_of_difference? haa
    exact Int64.toInt_inj.mp (by rw [hk, Int64.toInt_zero]; omega)

/-- Offsets of a quotient by zero. -/
def beyondZero (k : Int64) : Expr := node .add (node .floorDiv (dim 0) (const 0)) (const k)

theorem eval_beyondZero (k : Int64) (dims : List Int64) : (beyondZero k).eval dims = none := by
  simp only [beyondZero, eval, Op.apply]
  cases dims[0]? with
  | none => rfl
  | some v =>
    have hzero : Word.floorDiv v 0 = none := by rw [Word.floorDiv_eq, if_pos rfl]
    simp [hzero]

theorem beyondZero_consistent :
    (∀ k dims, (beyondZero k).eval dims = none) ∧
      (beyondZero 7).difference? (beyondZero 3) = some 4 ∧
      (beyondZero 3).difference? (beyondZero 7) = some (-4) ∧
      (-4 : Int64).toInt = -(4 : Int64).toInt ∧
      (beyondZero 3).difference? (beyondZero (-9)) = some 12 ∧
      (beyondZero 7).difference? (beyondZero (-9)) = Word.add 4 12 ∧
      (beyondZero 7).difference? (beyondZero 7) = some 0 := by
  obtain ⟨-, hreverse, hrow, hself⟩ := difference?_consistent
  have hfirst : (beyondZero 7).difference? (beyondZero 3) = some 4 := by decide
  have hback : (beyondZero 3).difference? (beyondZero 7) = some (-4) := by decide
  have hsecond : (beyondZero 3).difference? (beyondZero (-9)) = some 12 := by decide
  have hsame : (beyondZero 7).difference? (beyondZero 7) ≠ none := by decide
  obtain ⟨k, hk⟩ := Option.ne_none_iff_exists'.mp hsame
  exact ⟨eval_beyondZero, hfirst, hback, hreverse _ _ _ _ hfirst hback, hsecond,
    (hrow _ _ _ _ _ hfirst hsecond).1, hself _ k hk ▸ hk⟩

end Expr

end Bankflow
