import Bankflow.Bank.Mode
import Bankflow.Proofs.Expr.Linear

/-!
# What modes store where

A mode sends a position of a dimension to a bank and an offset. `Mode.Places` says
that these lie in bounds and that the mode's formula gives the position back; a mode
that `Fits` the size of a dimension places every position of it (`Mode.Fits.places`).
The mode chosen from some indices fits any dimension whose size is a word, as long as
the indices can be counted by words (`DimChoice.fits_of`).

A cyclic mode keeps positions apart that are closer than its factor
(`Mode.cyclic_bank_ne`), and the gap between two indices, the one seen first and any
other, is below the factor chosen from them (`gap_le_spread`, `sublist_firstSeen`).
-/

namespace Bankflow

open Word (greatest)

namespace Mode

/-- The position that a bank and an offset stand for. -/
def position : Mode → Int → Int → Int
  | single, _, offset => offset
  | cyclic f, bank, offset => f * offset + bank
  | block _ b, bank, offset => b * bank + offset

/-- How many offsets the banks have when they share `size` positions evenly. -/
def depth (m : Mode) (size : Nat) : Nat := (size + m.banks - 1) / m.banks

/-- A bank and an offset, both in bounds, that stand for position `x` of a dimension
of some size. -/
structure Places (m : Mode) (size : Nat) (x bank offset : Int) : Prop where
  bank_nonneg : 0 ≤ bank
  bank_lt : bank < m.banks
  offset_nonneg : 0 ≤ offset
  offset_lt : offset < m.depth size
  position_eq : m.position bank offset = x

/-- Modes whose factors are positive words and whose banks hold `size` positions. -/
inductive Fits (size : Nat) : Mode → Prop where
  | single : Fits size single
  | cyclic {f : Nat} (pos : 0 < f) (word : (f : Int) ≤ greatest) : Fits size (cyclic f)
  | block {f : Nat} (pos : 0 < f) (word : (((size + f - 1) / f : Nat) : Int) ≤ greatest) :
    Fits size (block f ((size + f - 1) / f))

/-! ## Rounding up -/

theorem div_lt_ceil {x size f : Nat} (hf : 0 < f) (hx : x < size) :
    x / f < (size + f - 1) / f := by
  have h : (x + f) / f ≤ (size + f - 1) / f := Nat.div_le_div_right (by omega)
  rw [Nat.add_div_right x hf] at h
  omega

theorem le_mul_ceil (size : Nat) {f : Nat} (hf : 0 < f) : size ≤ f * ((size + f - 1) / f) := by
  have h := Nat.lt_mul_div_succ (size + f - 1) hf
  rw [Nat.mul_add, Nat.mul_one] at h
  omega

theorem ceil_le_self (size : Nat) {f : Nat} (hf : 0 < f) : (size + f - 1) / f ≤ size := by
  rcases Nat.eq_zero_or_pos size with rfl | hs
  · rw [Nat.div_eq_of_lt (by omega)]
  · have h : (size - 1) / f ≤ size - 1 := Nat.div_le_self _ _
    rw [show size + f - 1 = size - 1 + f by omega, Nat.add_div_right _ hf]
    omega

/-! ## Selectors -/

theorem eval_combine_dim {op : Op} {d : Nat} {w x : Int64} {index : List Int64}
    (h : index[d]? = some x) :
    (Expr.combine op (.dim d) (.const w)).eval index = op.apply x w := by
  simp only [Expr.combine, Expr.eval, h, Option.bind_eq_bind, Option.bind_some]

/-- Quotient and remainder of a position by a factor that is a word. -/
theorem eval_divisions {d f n : Nat} {x : Int64} {index : List Int64} (hf : 0 < f)
    (hw : (f : Int) ≤ greatest) (hi : index[d]? = some x) (hx : x.toInt = n) :
    ∃ q r : Int64,
      (Expr.combine .floorDiv (.dim d) (.const (Int64.ofNat f))).eval index = some q ∧
      (Expr.combine .mod (.dim d) (.const (Int64.ofNat f))).eval index = some r ∧
      q.toInt = (n / f : Nat) ∧ r.toInt = (n % f : Nat) := by
  have hv := Word.toInt_ofNat_of_le hw
  have hx₀ : 0 ≤ x.toInt := by omega
  have hpos : 0 < (Int64.ofNat f).toInt := by omega
  obtain ⟨q, hq, hqv⟩ := Word.floorDiv_of_pos hx₀ hpos
  obtain ⟨r, hr, hrv⟩ := Word.mod_of_pos hx₀ hpos
  rw [hx, hv] at hqv hrv
  refine ⟨q, r, ?_, ?_, hqv, hrv⟩
  · rw [eval_combine_dim hi]
    exact hq
  · rw [eval_combine_dim hi]
    exact hr

theorem Places.of_nat {m : Mode} {size n b o : Nat} (hb : b < m.banks) (ho : o < m.depth size)
    (hn : m.position b o = n) : m.Places size n b o :=
  ⟨Int.natCast_nonneg b, Int.ofNat_lt.mpr hb, Int.natCast_nonneg o, Int.ofNat_lt.mpr ho, hn⟩

/-- A mode that fits places every position. -/
theorem Fits.places {m : Mode} {size d : Nat} {x : Int64} {index : List Int64}
    (h : m.Fits size) (hi : index[d]? = some x) (h₀ : 0 ≤ x.toInt) (hx : x.toInt < size) :
    ∃ b o : Int64, (m.bank d).eval index = some b ∧ (m.offset d).eval index = some o ∧
      m.Places size x.toInt b.toInt o.toInt := by
  obtain ⟨n, hn⟩ := Int.eq_ofNat_of_zero_le h₀
  have hlt : n < size := by omega
  cases h with
  | single =>
    refine ⟨0, x, rfl, hi, ?_⟩
    rw [hn]
    exact .of_nat (b := 0) Nat.one_pos (by simpa [depth, banks] using hlt) rfl
  | @cyclic f pos word =>
    obtain ⟨q, r, hq, hr, hqv, hrv⟩ := eval_divisions pos word hi hn
    refine ⟨r, q, hr, hq, ?_⟩
    rw [hqv, hrv, hn]
    refine .of_nat (Nat.mod_lt n pos) (div_lt_ceil pos hlt) ?_
    exact congrArg Nat.cast (Nat.div_add_mod n f)
  | @block f pos word =>
    have hsize := le_mul_ceil size pos
    have hb : 0 < (size + f - 1) / f :=
      Nat.pos_of_mul_pos_left (Nat.lt_of_lt_of_le (by omega) hsize)
    obtain ⟨q, r, hq, hr, hqv, hrv⟩ := eval_divisions hb word hi hn
    refine ⟨q, r, hq, hr, ?_⟩
    rw [hqv, hrv, hn]
    refine .of_nat (Nat.div_lt_of_lt_mul ?_) (Nat.mod_lt n hb) ?_
    · rw [Nat.mul_comm]
      exact Nat.lt_of_lt_of_le hlt hsize
    · exact congrArg Nat.cast (Nat.div_add_mod n _)

/-- Two positions closer than the factor of a cyclic mode are in different banks. -/
theorem cyclic_bank_ne {f d : Nat} {x y : Int64} {u v : List Int64} (hf : 0 < f)
    (hw : (f : Int) ≤ greatest) (hu : u[d]? = some x) (hv : v[d]? = some y) (hx : 0 ≤ x.toInt)
    (hy : 0 ≤ y.toInt) (hne : x ≠ y) (hclose : (x.toInt - y.toInt).natAbs < f) :
    ∃ p q : Int64, ((cyclic f).bank d).eval u = some p ∧ ((cyclic f).bank d).eval v = some q ∧
      p ≠ q := by
  obtain ⟨n, hn⟩ := Int.eq_ofNat_of_zero_le hx
  obtain ⟨k, hk⟩ := Int.eq_ofNat_of_zero_le hy
  obtain ⟨-, p, -, hp, -, hpv⟩ := eval_divisions hf hw hu hn
  obtain ⟨-, q, -, hq, -, hqv⟩ := eval_divisions hf hw hv hk
  refine ⟨p, q, hp, hq, ?_⟩
  rintro rfl
  have hmod : (n : Int) % f = (k : Int) % f := by omega
  have hdvd : (f : Int) ∣ n - k :=
    Int.dvd_of_emod_eq_zero (Int.emod_eq_emod_iff_emod_sub_eq_zero.mp hmod)
  have hzero : (n : Int) - k = 0 :=
    Int.eq_zero_of_dvd_of_natAbs_lt_natAbs hdvd (by rw [← hn, ← hk]; exact hclose)
  exact hne (Int64.toInt_inj.mp (by omega))

end Mode

/-! ## Distinct indices and their gaps -/

theorem mem_firstSeen {α : Type} [DecidableEq α] {a : α} :
    ∀ {l : List α}, a ∈ firstSeen l ↔ a ∈ l
  | [] => Iff.rfl
  | b :: l => by
    rw [firstSeen, List.mem_cons, List.mem_cons, List.mem_filter, mem_firstSeen]
    by_cases h : a = b
    · simp [h]
    · simp [h]

theorem length_firstSeen_le {α : Type} [DecidableEq α] :
    ∀ l : List α, (firstSeen l).length ≤ l.length
  | [] => Nat.le_refl _
  | a :: l => by
    rw [firstSeen, List.length_cons, List.length_cons]
    have h := List.length_filter_le (· ≠ a) (firstSeen l)
    have := length_firstSeen_le l
    omega

/-- An element that occurs before another one first does stays before it. -/
theorem sublist_firstSeen {α : Type} [DecidableEq α] {a b : α} (hne : b ≠ a) {after : List α}
    (hb : b ∈ after) :
    ∀ {before : List α}, b ∉ before → [a, b].Sublist (firstSeen (before ++ a :: after))
  | [], _ => by
    have hmem : b ∈ (firstSeen after).filter (· ≠ a) := by
      rw [List.mem_filter, mem_firstSeen]
      exact ⟨hb, by simpa using hne⟩
    exact (List.singleton_sublist.mpr hmem).cons_cons a
  | c :: before, hc => by
    rw [List.mem_cons, not_or] at hc
    rw [List.cons_append, firstSeen]
    by_cases hca : a = c
    · subst hca
      have hmem : b ∈ (firstSeen (before ++ a :: after)).filter (· ≠ a) := by
        rw [List.mem_filter, mem_firstSeen]
        exact ⟨by simp [hb], by simpa using hne⟩
      exact (List.singleton_sublist.mpr hmem).cons_cons a
    · have ih := (sublist_firstSeen hne hb hc.2).filter (· ≠ c)
      rw [List.filter_eq_self.mpr (by simp [hca, hc.1])] at ih
      exact ih.cons c

theorem le_largest {n : Nat} : ∀ {ns : List Nat}, n ∈ ns → n ≤ largest ns
  | m :: ns, h => by
    rw [largest]
    rcases List.mem_cons.mp h with rfl | h
    · exact Nat.le_max_left _ _
    · exact Nat.le_trans (le_largest h) (Nat.le_max_right _ _)

theorem gap_le_spread {a b : Expr} : ∀ {l : List Expr}, [a, b].Sublist l → gap b a ≤ spread l
  | c :: l, h => by
    rw [spread]
    cases h with
    | cons _ h => exact Nat.le_trans (gap_le_spread h) (Nat.le_max_right _ _)
    | cons_cons _ h =>
      have hmem : gap b a ∈ l.map fun b => gap b a :=
        List.mem_map_of_mem (List.singleton_sublist.mp h)
      exact Nat.le_trans (le_largest hmem) (Nat.le_max_left _ _)

/-! ## Chosen modes -/

namespace DimChoice

/-- All three rules pick a mode that fits. A gap needs indices that it lies between,
which keeps the number of blocks positive. -/
theorem modeFor_fits {distinct gap size : Nat} (hgap : 0 < gap → 0 < distinct)
    (hd : (distinct : Int) ≤ greatest) (hs : (size : Int) ≤ greatest) :
    (modeFor distinct (gap + 1) size).Fits size := by
  unfold modeFor
  split
  · exact .single
  · next h₁ =>
    split
    · exact .cyclic (by omega) (by omega)
    · have hpos := hgap (by omega)
      have := Mode.ceil_le_self size hpos
      exact .block hpos (by omega)

/-- The mode chosen from indices that words can count fits every size that is a
word. -/
theorem fits_of {indices : List Expr} {dim size : Nat} (hi : (indices.length : Int) ≤ greatest)
    (hs : (size : Int) ≤ greatest) : (DimChoice.of indices dim size).mode.Fits size := by
  have hlen := length_firstSeen_le indices
  refine modeFor_fits (fun hgap => ?_) (by omega) hs
  cases hseen : firstSeen indices with
  | nil => simp [hseen, Bankflow.spread] at hgap
  | cons a l => exact Nat.succ_pos _

/-- The factor of a cyclic choice is one more than the largest known gap, and is at
most the number of distinct indices. -/
theorem factor_of {indices : List Expr} {dim size f : Nat}
    (h : (DimChoice.of indices dim size).mode = .cyclic f) :
    f = Bankflow.spread (firstSeen indices) + 1 ∧ f ≤ indices.length := by
  have hlen := length_firstSeen_le indices
  simp only [DimChoice.of, modeFor] at h
  split at h
  · cases h
  · split at h
    · cases h
      exact ⟨rfl, by omega⟩
    · cases h

end DimChoice

end Bankflow
