/-!
# Signed 64-bit words

Index arithmetic is done in signed 64-bit words and fails instead of wrapping:
every operation computes its exact integer result and gives it back only if it
fits (`ofInt?`). The divisions round by the sign-independent rules of index
arithmetic: `floorDiv` towards minus infinity, `ceilDiv` towards plus infinity,
and `mod` has the sign of its divisor.

`ceilDiv` and `mod` are composed from `neg`, `floorDiv`, `mul` and `sub`, and
fail as soon as one of these does, even where the final result would fit.
`floorDiv` corrects a quotient rounded towards zero (`quot`), which never fails
where the floor would fit (`floorDiv_eq`).
-/

namespace Bankflow.Word

/-- The least integer that is a word. -/
abbrev least : Int := -9223372036854775808

/-- The greatest integer that is a word. -/
abbrev greatest : Int := 9223372036854775807

/-- The word with value `n`, if there is one. -/
def ofInt? (n : Int) : Option Int64 :=
  if least ≤ n ∧ n ≤ greatest then some (Int64.ofInt n) else none

def add (a b : Int64) : Option Int64 := ofInt? (a.toInt + b.toInt)

def sub (a b : Int64) : Option Int64 := ofInt? (a.toInt - b.toInt)

def mul (a b : Int64) : Option Int64 := ofInt? (a.toInt * b.toInt)

def neg (a : Int64) : Option Int64 := ofInt? (-a.toInt)

/-- The quotient rounded towards zero. There is none by zero, nor of the least
word by `-1`, whose quotient does not fit. -/
def quot (a b : Int64) : Option Int64 :=
  if b = 0 then none else ofInt? (a.toInt.tdiv b.toInt)

/-- The quotient rounded towards minus infinity: one less than the quotient
towards zero, where something is left over and the signs differ. -/
def floorDiv (a b : Int64) : Option Int64 := do
  let q ← quot a b
  if a.toInt.tmod b.toInt ≠ 0 ∧ ¬(a.toInt < 0 ↔ b.toInt < 0) then sub q 1 else some q

/-- The quotient rounded towards plus infinity, as `-(⌊-a / b⌋)`. There is none
of the least word, whose negation does not fit. -/
def ceilDiv (a b : Int64) : Option Int64 := do
  let n ← neg a
  let q ← floorDiv n b
  neg q

/-- The remainder `a - b * ⌊a / b⌋`. There is none where the quotient or the
product does not fit. -/
def mod (a b : Int64) : Option Int64 := do
  let q ← floorDiv a b
  let p ← mul b q
  sub a p

/-! ## Words and their integers -/

theorem least_le_toInt (a : Int64) : least ≤ a.toInt := a.minValue_le_toInt

theorem toInt_le_greatest (a : Int64) : a.toInt ≤ greatest :=
  Int.le_of_lt_add_one a.toInt_lt

@[simp] theorem ofInt?_toInt (a : Int64) : ofInt? a.toInt = some a := by
  simp [ofInt?, least_le_toInt, toInt_le_greatest]

theorem ofInt?_eq_some_iff {n : Int} {a : Int64} : ofInt? n = some a ↔ a.toInt = n := by
  constructor
  · intro h
    unfold ofInt? at h
    split at h
    · next hn =>
      cases h
      exact Int64.toInt_ofInt_of_le hn.1 (Int.lt_add_one_of_le hn.2)
    · cases h
  · rintro rfl
    exact ofInt?_toInt a

theorem ofInt?_eq_none_iff {n : Int} : ofInt? n = none ↔ n < least ∨ greatest < n := by
  unfold ofInt?
  split <;> simp <;> omega

/-! ## Floor division from truncation -/

theorem fdiv_eq_tdiv_of_signs {a b : Int} (hb : b ≠ 0) :
    a.fdiv b = if a.tmod b ≠ 0 ∧ ¬(a < 0 ↔ b < 0) then a.tdiv b - 1 else a.tdiv b := by
  rw [Int.fdiv_eq_tdiv]
  by_cases hrest : a.tmod b = 0
  · simp [hrest, Int.dvd_iff_tmod_eq_zero]
  · simp only [Int.dvd_iff_tmod_eq_zero, hrest, if_false, ne_eq, not_false_eq_true, true_and]
    rcases Int.lt_or_gt_of_ne hb with hneg | hpos
    · rw [Int.sign_eq_neg_one_of_neg hneg]
      repeat' split
      all_goals omega
    · rw [Int.sign_eq_one_of_pos hpos]
      repeat' split
      all_goals omega

/-- Only a division by `1` or `-1` can have a quotient that does not fit, and it leaves
nothing over. -/
theorem tmod_eq_zero_of_overflow {a b : Int64} (h : ofInt? (a.toInt.tdiv b.toInt) = none) :
    a.toInt.tmod b.toInt = 0 := by
  have hlow := least_le_toInt a
  have hhigh := toInt_le_greatest a
  have hout := ofInt?_eq_none_iff.mp h
  have habs : (a.toInt.tdiv b.toInt).natAbs = a.toInt.natAbs / b.toInt.natAbs :=
    Int.natAbs_tdiv _ _
  have hone : b.toInt.natAbs ≤ 1 := by
    by_cases htwo : 2 ≤ b.toInt.natAbs
    · have := Nat.div_le_div_left htwo (by decide : 0 < 2) (a := a.toInt.natAbs)
      simp only [least, greatest] at hlow hhigh hout
      omega
    · omega
  rcases (by omega : b.toInt = 0 ∨ b.toInt = 1 ∨ b.toInt = -1) with hb | hb | hb
  · rw [hb, Int.tdiv_zero] at h
    simp [ofInt?, least, greatest] at h
  · rw [hb, Int.tmod_one]
  · rw [hb, Int.tmod_neg, Int.tmod_one]

/-- Floor division fails by zero and where the floor of the exact quotient does not fit. -/
theorem floorDiv_eq (a b : Int64) :
    floorDiv a b = if b = 0 then none else ofInt? (a.toInt.fdiv b.toInt) := by
  by_cases hb : b = 0
  · simp [floorDiv, quot, hb]
  · simp only [floorDiv, quot, hb, if_false]
    rw [fdiv_eq_tdiv_of_signs fun h0 => hb (Int64.toInt_inj.mp h0)]
    cases hq : ofInt? (a.toInt.tdiv b.toInt) with
    | none => simp [tmod_eq_zero_of_overflow hq, hq]
    | some q =>
      simp only [Option.bind_eq_bind, Option.bind_some]
      split
      · rw [sub, ofInt?_eq_some_iff.mp hq]
        rfl
      · exact hq.symm

end Bankflow.Word
