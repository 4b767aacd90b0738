import Bankflow.Expr.Basic

/-!
# Values of index expressions in the integers

Words fail where the integers go on: `Expr.value` gives an expression a value at
every point, with no bound on its size, and where `Expr.eval` answers the two
agree (`Expr.toInt_eval`). Divisions by a positive word that start from a position,
a word that is not negative, never fail (`floorDiv_of_pos`, `mod_of_pos`).
-/

namespace Bankflow

namespace Word

theorem toInt_ofNat_of_le {n : Nat} (h : (n : Int) ≤ greatest) : (Int64.ofNat n).toInt = n :=
  Int64.toInt_ofNat_of_lt (by simp only [greatest] at h; omega)

theorem toInt_add {a b v : Int64} (h : add a b = some v) : v.toInt = a.toInt + b.toInt :=
  ofInt?_eq_some_iff.mp h

theorem toInt_sub {a b v : Int64} (h : sub a b = some v) : v.toInt = a.toInt - b.toInt :=
  ofInt?_eq_some_iff.mp h

theorem toInt_mul {a b v : Int64} (h : mul a b = some v) : v.toInt = a.toInt * b.toInt :=
  ofInt?_eq_some_iff.mp h

theorem toInt_neg {a v : Int64} (h : neg a = some v) : v.toInt = -a.toInt :=
  ofInt?_eq_some_iff.mp h

theorem toInt_floorDiv {a b v : Int64} (h : floorDiv a b = some v) :
    v.toInt = a.toInt.fdiv b.toInt := by
  rw [floorDiv_eq] at h
  split at h
  · cases h
  · exact ofInt?_eq_some_iff.mp h

theorem toInt_ceilDiv {a b v : Int64} (h : ceilDiv a b = some v) :
    v.toInt = -((-a.toInt).fdiv b.toInt) := by
  simp only [ceilDiv, Option.bind_eq_bind, Option.bind_eq_some_iff] at h
  obtain ⟨n, hn, q, hq, hv⟩ := h
  rw [toInt_neg hv, toInt_floorDiv hq, toInt_neg hn]

theorem toInt_mod {a b v : Int64} (h : mod a b = some v) : v.toInt = a.toInt.fmod b.toInt := by
  simp only [mod, Option.bind_eq_bind, Option.bind_eq_some_iff] at h
  obtain ⟨q, hq, m, hm, hv⟩ := h
  rw [toInt_sub hv, toInt_mul hm, toInt_floorDiv hq, Int.fmod_def]

/-- A value between zero and a word is a word. -/
theorem exists_ofInt? {n : Int} {a : Int64} (h₀ : 0 ≤ n) (h : n ≤ a.toInt) :
    ∃ v, ofInt? n = some v ∧ v.toInt = n := by
  have ha := toInt_le_greatest a
  have hn : ofInt? n ≠ none := fun e => by
    have := ofInt?_eq_none_iff.mp e
    simp only [least, greatest] at this ha
    omega
  obtain ⟨v, hv⟩ := Option.ne_none_iff_exists'.mp hn
  exact ⟨v, hv, ofInt?_eq_some_iff.mp hv⟩

theorem floorDiv_of_pos {a b : Int64} (ha : 0 ≤ a.toInt) (hb : 0 < b.toInt) :
    ∃ q, floorDiv a b = some q ∧ q.toInt = a.toInt / b.toInt := by
  have hb0 : b ≠ 0 := fun e => by simp [e] at hb
  have hle : a.toInt / b.toInt ≤ a.toInt := Int.ediv_le_self _ ha
  obtain ⟨q, hq, hv⟩ := exists_ofInt? (Int.ediv_nonneg ha (Int.le_of_lt hb)) hle
  refine ⟨q, ?_, hv⟩
  rw [floorDiv_eq, if_neg hb0, Int.fdiv_eq_ediv_of_nonneg _ (Int.le_of_lt hb), hq]

theorem mod_of_pos {a b : Int64} (ha : 0 ≤ a.toInt) (hb : 0 < b.toInt) :
    ∃ r, mod a b = some r ∧ r.toInt = a.toInt % b.toInt := by
  obtain ⟨q, hq, hqv⟩ := floorDiv_of_pos ha hb
  have hdiv := Int.mul_ediv_add_emod a.toInt b.toInt
  have hr := Int.emod_nonneg a.toInt (Int.ne_of_gt hb)
  have hb₀ := Int.le_of_lt hb
  have hp₀ : 0 ≤ b.toInt * (a.toInt / b.toInt) := Int.mul_nonneg hb₀ (Int.ediv_nonneg ha hb₀)
  obtain ⟨p, hp, hpv⟩ := exists_ofInt? (a := a) hp₀ (by omega)
  obtain ⟨r, hrv, hr'⟩ := exists_ofInt? (a := a) hr (by omega)
  refine ⟨r, ?_, hr'⟩
  have hm : mul b q = some p := by rw [mul, hqv, hp]
  have hs : sub a p = some r := by
    rw [sub, hpv, show a.toInt - b.toInt * (a.toInt / b.toInt) = a.toInt % b.toInt by omega, hrv]
  simp only [mod, hq, hm, hs, Option.bind_eq_bind, Option.bind_some]

end Word

/-- The operator on integers. Division rounds as on words; by zero it gives `0`,
and the remainder is then the dividend. -/
def Op.value : Op → Int → Int → Int
  | .add, a, b => a + b
  | .mul, a, b => a * b
  | .mod, a, b => a.fmod b
  | .floorDiv, a, b => a.fdiv b
  | .ceilDiv, a, b => -((-a).fdiv b)

/-- Where an operator is defined on words it is exact. -/
theorem Op.toInt_apply {op : Op} {a b v : Int64} (h : op.apply a b = some v) :
    v.toInt = op.value a.toInt b.toInt := by
  cases op with
  | add => exact Word.toInt_add h
  | mul => exact Word.toInt_mul h
  | mod => exact Word.toInt_mod h
  | floorDiv => exact Word.toInt_floorDiv h
  | ceilDiv => exact Word.toInt_ceilDiv h

namespace Expr

/-- The dimensions that occur, from left to right. -/
def dims : Expr → List Nat
  | const _ => []
  | dim k => [k]
  | node _ l r => l.dims ++ r.dims

/-- The integer value of an expression whose dimensions have the values `ρ`. -/
def value (ρ : Nat → Int) : Expr → Int
  | const v => v.toInt
  | dim k => ρ k
  | node op l r => op.value (l.value ρ) (r.value ρ)

/-- The value depends on the dimensions that occur. -/
theorem value_congr {ρ σ : Nat → Int} :
    ∀ {e : Expr}, (∀ k ∈ e.dims, ρ k = σ k) → e.value ρ = e.value σ
  | const _, _ => rfl
  | dim k, h => h k (List.mem_singleton_self k)
  | node op l r, h => by
    rw [value, value, value_congr fun k hk => h k (List.mem_append_left _ hk),
      value_congr fun k hk => h k (List.mem_append_right _ hk)]

/-- The point whose coordinates are some words. -/
def point (dims : List Int64) (k : Nat) : Int :=
  match dims[k]? with
  | some v => v.toInt
  | none => 0

theorem eval_node_eq_some_iff {dims : List Int64} {op : Op} {l r : Expr} {v : Int64} :
    (node op l r).eval dims = some v ↔
      ∃ a, l.eval dims = some a ∧ ∃ b, r.eval dims = some b ∧ op.apply a b = some v := by
  simp only [eval, Option.bind_eq_bind, Option.bind_eq_some_iff]

/-- Evaluation is exact wherever it gives a result. -/
theorem toInt_eval {dims : List Int64} {e : Expr} {v : Int64} (h : e.eval dims = some v) :
    v.toInt = e.value (point dims) := by
  induction e generalizing v with
  | const c =>
    cases h
    rfl
  | dim k =>
    simp only [eval] at h
    simp only [value, point, h]
  | node op l r ihl ihr =>
    obtain ⟨a, ha, b, hb, hv⟩ := eval_node_eq_some_iff.mp h
    rw [Op.toInt_apply hv, ihl ha, ihr hb, value]

end Expr

end Bankflow
