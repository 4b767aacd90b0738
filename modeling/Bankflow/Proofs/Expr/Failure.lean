import Bankflow.Proofs.Expr.Exact

/-!
# Where index arithmetic fails

An operator has an exact result unless it divides by zero (`Op.value?`), and it fails where
this result is missing or not a word. Sums, products and quotients rounded down fail nowhere
else. The other two divisions are composed of several steps on words, and fail also where
the result is a word but one of the steps is not (`Op.Loses`):

* a quotient rounded up starts by negating the dividend, so none is found of the least word
  (`Word.ceilDiv_eq`);
* a remainder is counted from a multiple of the divisor. For a positive divisor this is the
  last multiple up to the dividend and may lie below the least word, for a negative one it is
  the first from there on and may lie above the greatest (`Word.Beyond`, `Word.mod_eq`).

`Op.apply_eq` gives every operator in this form. Evaluation is strict, so an expression has
no word exactly if one of its parts is stuck (`Expr.Stuck`): a dimension without a word, a
zero divisor, an exact value that is not a word, or a result that is lost
(`Expr.eval_eq_none_iff`).
-/

namespace Bankflow

/-! ## Quotients and remainders of words -/

namespace Word

/-- The limits as numerals, for linear arithmetic. -/
theorem limits : least = -9223372036854775808 ∧ greatest = 9223372036854775807 := ⟨rfl, rfl⟩

theorem exists_toInt_eq {n : Int} (h : ofInt? n ≠ none) : ∃ v : Int64, v.toInt = n := by
  obtain ⟨v, hv⟩ := Option.ne_none_iff_exists'.mp h
  exact ⟨v, ofInt?_eq_some_iff.mp hv⟩

theorem toInt_ne_zero {b : Int64} (hb : b ≠ 0) : b.toInt ≠ 0 :=
  fun h0 => hb (Int64.toInt_inj.mp h0)

/-- A remainder lies between zero and the divisor. -/
theorem fmod_between (a : Int) {b : Int} (hb : b ≠ 0) :
    0 ≤ a.fmod b ∧ a.fmod b < b ∨ b < a.fmod b ∧ a.fmod b ≤ 0 := by
  rcases Int.lt_or_gt_of_ne hb with hneg | hpos
  · have hlow := Int.fmod_nonneg_of_pos (-a) (Int.neg_pos_of_neg hneg)
    have hhigh := Int.fmod_lt_of_pos (-a) (Int.neg_pos_of_neg hneg)
    rw [Int.neg_fmod_neg] at hlow hhigh
    omega
  · exact .inl ⟨Int.fmod_nonneg_of_pos a hpos, Int.fmod_lt_of_pos a hpos⟩

theorem ofInt?_fmod_ne_none (a b : Int64) (hb : b.toInt ≠ 0) :
    ofInt? (a.toInt.fmod b.toInt) ≠ none := by
  have hlow := least_le_toInt b
  have hhigh := toInt_le_greatest b
  have hrest := fmod_between a.toInt hb
  rw [Ne, ofInt?_eq_none_iff]
  have := limits
  omega

/-- Only a division by `-1` turns the sign of its dividend. -/
theorem fdiv_eq_neg_iff {x b : Int} (hx : 2 ≤ x.natAbs) : x.fdiv b = -x ↔ b = -1 := by
  constructor
  · intro h
    have hb : b ≠ 0 := fun h0 => by
      rw [h0, Int.fdiv_zero] at h
      omega
    have hdiv := Int.mul_fdiv_add_fmod x b
    have hrest := fmod_between x hb
    rw [h, Int.mul_neg] at hdiv
    -- What is left over is `x * (b + 1)`: at least `2 * |b + 1|`, and less than `|b|`.
    have hprod : (x.fmod b).natAbs = x.natAbs * (b + 1).natAbs := by
      rw [← Int.natAbs_mul, Int.mul_add, Int.mul_one, Int.mul_comm x b]
      omega
    have hlarge : 2 * (b + 1).natAbs ≤ x.natAbs * (b + 1).natAbs := Nat.mul_le_mul_right _ hx
    omega
  · rintro rfl
    rw [← Int.neg_fdiv_neg, Int.neg_neg, Int.fdiv_one]

/-- The only quotient of words that rounds down to no word is that of the least one by `-1`:
a quotient is no larger than its dividend. -/
theorem ofInt?_fdiv_eq_none_iff (a b : Int64) :
    ofInt? (a.toInt.fdiv b.toInt) = none ↔ a.toInt = least ∧ b.toInt = -1 := by
  have hlow := least_le_toInt a
  have hhigh := toInt_le_greatest a
  have habs := Int.natAbs_fdiv_le_natAbs a.toInt b.toInt
  have hturn := fdiv_eq_neg_iff (x := a.toInt) (b := b.toInt)
  have hlimits := limits
  rw [ofInt?_eq_none_iff]
  omega

/-- Rounding up leaves the words at the same place. -/
theorem ofInt?_ceil_eq_none_iff (a b : Int64) :
    ofInt? (-((-a.toInt).fdiv b.toInt)) = none ↔ a.toInt = least ∧ b.toInt = -1 := by
  have hlow := least_le_toInt a
  have hhigh := toInt_le_greatest a
  have habs := Int.natAbs_fdiv_le_natAbs (-a.toInt) b.toInt
  have hturn := fdiv_eq_neg_iff (x := -a.toInt) (b := b.toInt)
  have hlimits := limits
  rw [ofInt?_eq_none_iff]
  omega

/-- Rounding up fails by zero, for the least dividend, and nowhere else: no other quotient
leaves the words. -/
theorem ceilDiv_eq (a b : Int64) :
    ceilDiv a b =
      if a.toInt = least ∨ b = 0 then none else ofInt? (-((-a.toInt).fdiv b.toInt)) := by
  have hlow := least_le_toInt a
  have hhigh := toInt_le_greatest a
  have hlimits := limits
  by_cases ha : a.toInt = least
  · have hneg : neg a = none := ofInt?_eq_none_iff.mpr (by omega)
    simp [ceilDiv, hneg, ha]
  · have hfits : neg a ≠ none := fun h => by
      have := ofInt?_eq_none_iff.mp h
      omega
    obtain ⟨n, hn⟩ := Option.ne_none_iff_exists'.mp hfits
    have hnv := toInt_neg hn
    by_cases hb : b = 0
    · simp [ceilDiv, hn, floorDiv_eq, hb]
    · cases hq : ofInt? (n.toInt.fdiv b.toInt) with
      | none =>
        have := (ofInt?_fdiv_eq_none_iff n b).mp hq
        omega
      | some q =>
        have hqv := ofInt?_eq_some_iff.mp hq
        simp only [ceilDiv, hn, floorDiv_eq, hb, hq, ha, if_false, or_self, Option.bind_eq_bind,
          Option.bind_some]
        rw [neg, hqv, hnv]

/-- The last multiple of a divisor before the end of the words, at the end from which its
remainders are counted: the low one for a positive divisor, the high one for a negative. -/
def lastMultiple (b : Int) : Int := b * (if 0 < b then least else greatest).tdiv b

/-- No multiple of `b` is a word on the side of `a` from which its remainder is counted: at or
below `a` for a positive divisor, at or above it for a negative one. -/
def Beyond (a b : Int) : Prop := 0 < b ∧ a < lastMultiple b ∨ b < 0 ∧ lastMultiple b < a

instance (a b : Int) : Decidable (Beyond a b) :=
  inferInstanceAs (Decidable (_ ∨ _))

/-- The last multiple below `x` falls short of a limit if `x` falls short of the first
multiple from the limit on, which is the limit rounded towards zero. -/
theorem mul_ediv_lt_iff {x c limit : Int} (hc : 0 < c) (hlimit : limit ≤ 0) :
    c * (x / c) < limit ↔ x < c * limit.tdiv c := by
  have hround : limit.tdiv c = -(-limit / c) := by
    rw [← Int.tdiv_eq_ediv_of_nonneg (Int.neg_nonneg_of_nonpos hlimit), Int.neg_tdiv, Int.neg_neg]
  have hlast : c * (-limit / c) ≤ -limit := Int.mul_ediv_self_le (Int.ne_of_gt hc)
  have hnext : -limit < c * (-limit / c) + c := Int.lt_mul_ediv_self_add hc
  rw [Int.mul_comm c (limit.tdiv c), ← Int.ediv_lt_iff_lt_mul hc, hround]
  generalize -limit / c = m at hlast hnext
  constructor
  · intro h
    have hmul : c * (x / c) < c * -m := by
      rw [Int.mul_neg]
      omega
    exact Int.lt_of_mul_lt_mul_left hmul (Int.le_of_lt hc)
  · intro h
    have hmul : c * (x / c) ≤ c * (-m - 1) :=
      Int.mul_le_mul_of_nonneg_left (by omega) (Int.le_of_lt hc)
    rw [Int.mul_sub, Int.mul_neg, Int.mul_one] at hmul
    omega

/-- Where the multiple that a remainder is counted from is not a word. -/
theorem ofInt?_multiple_eq_none_iff (a b : Int64) (hb : b.toInt ≠ 0) :
    ofInt? (b.toInt * a.toInt.fdiv b.toInt) = none ↔ Beyond a.toInt b.toInt := by
  have hlow := least_le_toInt a
  have hhigh := toInt_le_greatest a
  have hdiv := Int.mul_fdiv_add_fmod a.toInt b.toInt
  have hrest := fmod_between a.toInt hb
  rw [ofInt?_eq_none_iff, Beyond, lastMultiple]
  rcases Int.lt_or_gt_of_ne hb with hneg | hpos
  · -- With both signs changed, this is the low end again.
    have hc : 0 < -b.toInt := Int.neg_pos_of_neg hneg
    have hflip := mul_ediv_lt_iff (x := -a.toInt) hc (by decide : -greatest ≤ 0)
    rw [Int.neg_tdiv_neg, ← Int.fdiv_eq_ediv_of_nonneg _ (Int.le_of_lt hc), Int.neg_fdiv_neg,
      Int.neg_mul, Int.neg_mul] at hflip
    rw [if_neg (by omega)]
    omega
  · have hends := mul_ediv_lt_iff (x := a.toInt) hpos (by decide : least ≤ 0)
    rw [← Int.fdiv_eq_ediv_of_nonneg _ (Int.le_of_lt hpos)] at hends
    rw [if_pos hpos]
    omega

/-- A remainder is missing by zero and where it cannot be counted in words, though it would
be a word itself. -/
theorem mod_eq (a b : Int64) :
    mod a b =
      if b = 0 ∨ a.toInt = least ∧ b.toInt = -1 ∨ Beyond a.toInt b.toInt then none
      else ofInt? (a.toInt.fmod b.toInt) := by
  by_cases hb : b = 0
  · simp [mod, floorDiv_eq, hb]
  · have hb₀ := toInt_ne_zero hb
    have hquot := ofInt?_fdiv_eq_none_iff a b
    have hmultiple := ofInt?_multiple_eq_none_iff a b hb₀
    simp only [mod, floorDiv_eq, hb, if_false, false_or, Option.bind_eq_bind]
    cases hq : ofInt? (a.toInt.fdiv b.toInt) with
    | none => rw [if_pos (.inl (hquot.mp hq)), Option.bind_none]
    | some q =>
      have hq' : ¬(a.toInt = least ∧ b.toInt = -1) := fun h => by
        rw [hquot.mpr h] at hq
        cases hq
      rw [Option.bind_some, mul, ofInt?_eq_some_iff.mp hq]
      cases hp : ofInt? (b.toInt * a.toInt.fdiv b.toInt) with
      | none => rw [if_pos (.inr (hmultiple.mp hp)), Option.bind_none]
      | some p =>
        have hp' : ¬Beyond a.toInt b.toInt := fun h => by
          rw [hmultiple.mpr h] at hp
          cases hp
        rw [if_neg (not_or.mpr ⟨hq', hp'⟩), Option.bind_some, sub, ofInt?_eq_some_iff.mp hp,
          Int.fmod_def]

end Word

/-! ## Operators -/

namespace Op

/-- The exact result, with no bound on its size. There is none by zero. -/
def value? (op : Op) (a b : Int) : Option Int :=
  if op.divides = true ∧ b = 0 then none else some (op.denote a b)

/-- The operands on which an operator fails although its exact result is a word. -/
def Loses : Op → Int64 → Int64 → Prop
  | .add, _, _ => False
  | .mul, _, _ => False
  | .floorDiv, _, _ => False
  | .ceilDiv, a, b => a.toInt = Word.least ∧ b.toInt ≠ 0 ∧ b.toInt ≠ -1
  | .mod, a, b => a.toInt = Word.least ∧ b.toInt = -1 ∨ Word.Beyond a.toInt b.toInt

instance : (op : Op) → (a b : Int64) → Decidable (op.Loses a b)
  | .add, _, _ => inferInstanceAs (Decidable False)
  | .mul, _, _ => inferInstanceAs (Decidable False)
  | .floorDiv, _, _ => inferInstanceAs (Decidable False)
  | .ceilDiv, _, _ => inferInstanceAs (Decidable (_ ∧ _))
  | .mod, _, _ => inferInstanceAs (Decidable (_ ∨ _))

theorem value?_of_ne_zero (op : Op) (a : Int) {b : Int} (hb : b ≠ 0) :
    op.value? a b = some (op.value a b) := by
  rw [value?, if_neg fun h => hb h.2, value_eq_denote]

theorem value?_zero {op : Op} (hop : op.divides = true) (a : Int) : op.value? a 0 = none :=
  if_pos ⟨hop, rfl⟩

/-- An operator gives its exact result if there is one, it is a word and it is not lost. -/
theorem apply_eq (op : Op) (a b : Int64) :
    op.apply a b =
      if op.Loses a b then none else (op.value? a.toInt b.toInt).bind Word.ofInt? := by
  cases op with
  | add => simp [apply, Loses, value?, divides, denote, Word.add]
  | mul => simp [apply, Loses, value?, divides, denote, Word.mul]
  | floorDiv =>
    rw [apply, Word.floorDiv_eq, if_neg (show ¬Loses .floorDiv a b from id)]
    by_cases hb : b = 0
    · rw [if_pos hb, hb, Int64.toInt_zero, value?_zero rfl, Option.bind_none]
    · rw [if_neg hb, value?_of_ne_zero _ _ (Word.toInt_ne_zero hb), Option.bind_some, value]
  | ceilDiv =>
    rw [apply, Word.ceilDiv_eq]
    by_cases hb : b = 0
    · rw [if_pos (.inr hb), hb, Int64.toInt_zero, value?_zero rfl, Option.bind_none, ite_self]
    · have hb₀ := Word.toInt_ne_zero hb
      rw [value?_of_ne_zero _ _ hb₀, Option.bind_some, value]
      by_cases ha : a.toInt = Word.least
      · -- By `-1` the quotient does not fit either, so nothing is lost.
        by_cases hb₁ : b.toInt = -1
        · rw [if_pos (.inl ha), if_neg fun h => h.2.2 hb₁,
            (Word.ofInt?_ceil_eq_none_iff a b).mpr ⟨ha, hb₁⟩]
        · rw [if_pos (.inl ha), if_pos ⟨ha, hb₀, hb₁⟩]
      · rw [if_neg (not_or.mpr ⟨ha, hb⟩), if_neg fun h => ha h.1]
  | mod =>
    rw [apply, Word.mod_eq]
    by_cases hb : b = 0
    · rw [if_pos (.inl hb), hb, Int64.toInt_zero, value?_zero rfl, Option.bind_none, ite_self]
    · rw [value?_of_ne_zero _ _ (Word.toInt_ne_zero hb), Option.bind_some, value]
      exact if_congr (or_iff_right hb) rfl rfl

/-- What is lost is a word. -/
theorem exists_word_of_loses {op : Op} {a b : Int64} (h : op.Loses a b) :
    ∃ v : Int64, op.value? a.toInt b.toInt = some v.toInt := by
  cases op with
  | add => exact h.elim
  | mul => exact h.elim
  | floorDiv => exact h.elim
  | ceilDiv =>
    obtain ⟨-, hb, hb₁⟩ := h
    obtain ⟨v, hv⟩ := Word.exists_toInt_eq fun hn =>
      hb₁ ((Word.ofInt?_ceil_eq_none_iff a b).mp hn).2
    exact ⟨v, by rw [value?_of_ne_zero _ _ hb, value, hv]⟩
  | mod =>
    have hb : b.toInt ≠ 0 := by
      rcases h with h | h | h <;> omega
    obtain ⟨v, hv⟩ := Word.exists_toInt_eq (Word.ofInt?_fmod_ne_none a b hb)
    exact ⟨v, by rw [value?_of_ne_zero _ _ hb, value, hv]⟩

theorem apply_eq_some_iff {op : Op} {a b v : Int64} :
    op.apply a b = some v ↔
      op.value? a.toInt b.toInt = some v.toInt ∧ ¬op.Loses a b := by
  rw [apply_eq]
  by_cases h : op.Loses a b
  · simp [h]
  · simp [h, Option.bind_eq_some_iff, Word.ofInt?_eq_some_iff]

/-- The ways to fail: by zero, out of the words, and on the way. -/
theorem apply_eq_none_iff {op : Op} {a b : Int64} :
    op.apply a b = none ↔
      op.divides = true ∧ b.toInt = 0 ∨
        (∃ n, op.value? a.toInt b.toInt = some n ∧ (n < Word.least ∨ Word.greatest < n)) ∨
        op.Loses a b := by
  rw [apply_eq]
  by_cases h : op.Loses a b
  · simp [h]
  · by_cases hzero : op.divides = true ∧ b.toInt = 0
    · simp [h, hzero, value?]
    · simp [h, hzero, value?, Word.ofInt?_eq_none_iff]

/-- A remainder by a divisor other than zero is a word, so it fails only where it is lost. -/
theorem mod_apply_eq_none_iff (a b : Int64) :
    Op.mod.apply a b = none ↔ b = 0 ∨ Op.mod.Loses a b := by
  rw [apply_eq]
  by_cases hb : b = 0
  · rw [hb, Int64.toInt_zero, value?_zero rfl, Option.bind_none, ite_self]
    simp
  · have hb₀ := Word.toInt_ne_zero hb
    have hfits := Word.ofInt?_fmod_ne_none a b hb₀
    simp [hb, value?_of_ne_zero _ _ hb₀, value, hfits]

end Op

/-! ## Expressions -/

namespace Expr

/-- The exact value at one word per dimension, with no bound on its size. There is none for a
dimension without a word and by a zero divisor. -/
def value? (dims : List Int64) : Expr → Option Int
  | const v => some v.toInt
  | dim k => dims[k]?.map Int64.toInt
  | node op l r => do
    let a ← l.value? dims
    let b ← r.value? dims
    op.value? a b

/-- The expression itself, its operands, their operands, and so on. -/
def parts : Expr → List Expr
  | const v => [const v]
  | dim k => [dim k]
  | node op l r => node op l r :: (l.parts ++ r.parts)

/-- Why there is no word for an expression, in terms of exact values. -/
inductive Stuck (dims : List Int64) : Expr → Prop where
  | unbound {k : Nat} (h : dims.length ≤ k) : Stuck dims (dim k)
  | zeroDivisor {op : Op} {l r : Expr} (hop : op.divides = true) (hr : r.value? dims = some 0) :
    Stuck dims (node op l r)
  | outside {e : Expr} {n : Int} (he : e.value? dims = some n)
    (hn : n < Word.least ∨ Word.greatest < n) : Stuck dims e
  | lost {op : Op} {l r : Expr} {a b : Int64} (hl : l.value? dims = some a.toInt)
    (hr : r.value? dims = some b.toInt) (h : op.Loses a b) : Stuck dims (node op l r)

variable {dims : List Int64}

theorem self_mem_parts (e : Expr) : e ∈ e.parts := by
  cases e <;> exact List.mem_cons_self

theorem value?_of_eval {e : Expr} {v : Int64} (h : e.eval dims = some v) :
    e.value? dims = some v.toInt := by
  induction e generalizing v with
  | const c =>
    cases h
    rfl
  | dim k =>
    rw [eval] at h
    rw [value?, h, Option.map_some]
  | node op l r ihl ihr =>
    obtain ⟨a, ha, b, hb, hv⟩ := eval_node_eq_some_iff.mp h
    simp only [value?, ihl ha, ihr hb, Option.bind_eq_bind, Option.bind_some]
    exact (Op.apply_eq_some_iff.mp hv).1

/-- Evaluation is strict. -/
theorem exists_eval_of_mem_parts {e s : Expr} {v : Int64} (hs : s ∈ e.parts)
    (h : e.eval dims = some v) : ∃ w, s.eval dims = some w := by
  induction e generalizing v with
  | const c => exact ⟨v, List.mem_singleton.mp hs ▸ h⟩
  | dim k => exact ⟨v, List.mem_singleton.mp hs ▸ h⟩
  | node op l r ihl ihr =>
    obtain ⟨a, ha, b, hb, -⟩ := eval_node_eq_some_iff.mp h
    rw [parts, List.mem_cons, List.mem_append] at hs
    rcases hs with rfl | hs | hs
    · exact ⟨v, h⟩
    · exact ihl hs ha
    · exact ihr hs hb

theorem Stuck.eval_eq_none {e : Expr} (h : e.Stuck dims) : e.eval dims = none := by
  refine Option.eq_none_iff_forall_ne_some.mpr fun v hv => ?_
  cases h with
  | unbound hk =>
    rw [eval, List.getElem?_eq_none hk] at hv
    cases hv
  | zeroDivisor hop hr =>
    obtain ⟨a, -, b, hb, hab⟩ := eval_node_eq_some_iff.mp hv
    have := Op.ne_zero_of_apply hop hab
    have := Option.some.inj ((value?_of_eval hb).symm.trans hr)
    contradiction
  | outside he hn =>
    have hv' := Option.some.inj ((value?_of_eval hv).symm.trans he)
    have := Word.least_le_toInt v
    have := Word.toInt_le_greatest v
    omega
  | lost hl hr hlost =>
    obtain ⟨a, ha, b, hb, hab⟩ := eval_node_eq_some_iff.mp hv
    have ha' := Option.some.inj ((value?_of_eval ha).symm.trans hl)
    have hb' := Option.some.inj ((value?_of_eval hb).symm.trans hr)
    rw [Int64.toInt_inj.mp ha', Int64.toInt_inj.mp hb'] at hab
    exact (Op.apply_eq_some_iff.mp hab).2 hlost

theorem exists_stuck_of_eval {e : Expr} (h : e.eval dims = none) :
    ∃ s ∈ e.parts, s.Stuck dims := by
  induction e with
  | const c => cases h
  | dim k => exact ⟨_, self_mem_parts _, .unbound (List.getElem?_eq_none_iff.mp h)⟩
  | node op l r ihl ihr =>
    cases ha : l.eval dims with
    | none =>
      obtain ⟨s, hs, hstuck⟩ := ihl ha
      exact ⟨s, List.mem_cons_of_mem _ (List.mem_append_left _ hs), hstuck⟩
    | some a =>
      cases hb : r.eval dims with
      | none =>
        obtain ⟨s, hs, hstuck⟩ := ihr hb
        exact ⟨s, List.mem_cons_of_mem _ (List.mem_append_right _ hs), hstuck⟩
      | some b =>
        -- Both operands have words, so it is the operator that fails.
        refine ⟨_, self_mem_parts _, ?_⟩
        have hl := value?_of_eval ha
        have hr := value?_of_eval hb
        simp only [eval, ha, hb, Option.bind_eq_bind, Option.bind_some] at h
        rcases Op.apply_eq_none_iff.mp h with ⟨hop, hzero⟩ | ⟨n, hn, hout⟩ | hlost
        · exact .zeroDivisor hop (hr.trans (congrArg some hzero))
        · refine .outside (n := n) ?_ hout
          simp only [value?, hl, hr, Option.bind_eq_bind, Option.bind_some, hn]
        · exact .lost hl hr hlost

/-- An expression fails to evaluate exactly if one of its parts is stuck. -/
theorem eval_eq_none_iff {e : Expr} : e.eval dims = none ↔ ∃ s ∈ e.parts, s.Stuck dims := by
  refine ⟨exists_stuck_of_eval, ?_⟩
  rintro ⟨s, hs, hstuck⟩
  refine Option.eq_none_iff_forall_ne_some.mpr fun v hv => ?_
  obtain ⟨w, hw⟩ := exists_eval_of_mem_parts hs hv
  rw [hstuck.eval_eq_none] at hw
  cases hw

/-- Arithmetic fails for a reason. An operator has a word as its result exactly if its exact
result exists, is that word and is not lost. So it gives every exact result that is a word
unless it loses one, and a remainder by a divisor other than zero is missing only where it is
lost. An expression fails to evaluate exactly if one of its parts is a dimension without a
word, divides by zero, has an exact value that is not a word, or has its result lost. -/
theorem fails_exactly_where_stuck (op : Op) (a b : Int64) (e : Expr) (dims : List Int64) :
    (∀ v : Int64, op.apply a b = some v ↔
      op.value? a.toInt b.toInt = some v.toInt ∧ ¬op.Loses a b) ∧
    ((∀ v : Int64, op.apply a b = some v ↔ op.value? a.toInt b.toInt = some v.toInt) ↔
      ¬op.Loses a b) ∧
    (Op.mod.apply a b = none ↔ b = 0 ∨ Op.mod.Loses a b) ∧
    (e.eval dims = none ↔ ∃ s ∈ e.parts, s.Stuck dims) := by
  refine ⟨fun v => Op.apply_eq_some_iff, ⟨fun hall hlost => ?_, fun hkept v => ?_⟩,
    Op.mod_apply_eq_none_iff a b, eval_eq_none_iff⟩
  · obtain ⟨v, hv⟩ := Op.exists_word_of_loses hlost
    exact (Op.apply_eq_some_iff.mp ((hall v).mpr hv)).2 hlost
  · rw [Op.apply_eq_some_iff, and_iff_left hkept]

/-- Three leaves `1` of the least word, and one divides it without remainder. Neither is
found. -/
theorem least_stuck :
    (Op.mod.Loses Int64.minValue 3 ∧ Op.mod.value? Word.least 3 = some 1 ∧
      (node .mod (dim 0) (const 3)).eval [Int64.minValue] = none) ∧
    (Op.ceilDiv.Loses Int64.minValue 1 ∧ Op.ceilDiv.value? Word.least 1 = some Word.least ∧
      (node .ceilDiv (dim 0) (const 1)).eval [Int64.minValue] = none) := by
  have hmod : Op.mod.Loses Int64.minValue 3 := by decide
  have hceil : Op.ceilDiv.Loses Int64.minValue 1 := by decide
  have hstuck (op : Op) (b : Int64) (hlost : op.Loses Int64.minValue b) :
      (node op (dim 0) (const b)).eval [Int64.minValue] = none :=
    (fails_exactly_where_stuck op Int64.minValue b _ _).2.2.2.mpr
      ⟨_, self_mem_parts _, .lost rfl rfl hlost⟩
  refine ⟨⟨hmod, ?_, hstuck _ _ hmod⟩, ⟨hceil, ?_, hstuck _ _ hceil⟩⟩
  · rw [Op.value?_of_ne_zero _ _ (by decide)]
    decide
  · rw [Op.value?_of_ne_zero _ _ (by decide)]
    decide

end Expr

end Bankflow
