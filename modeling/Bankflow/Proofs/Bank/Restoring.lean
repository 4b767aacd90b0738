import Bankflow.Proofs.Bank.Certificate

/-!
# What certificates of banking say

A layout restores an index of a dimension if it is defined there and if bank and offset give
the index back, as the mode of the dimension says. A certificate passes exactly if the layouts
have their form and restore the first `roundTripLimit` indices of each dimension that was
decided on (`Design.certificate_passes_iff_restores`). The certificate computes with words.
Where a result that does not fit is a fault, this is the same as to compute with integers;
where words wrap, the index is restored up to multiples of `2 ^ 64`, and exactly if no result
wraps (`Mode.Rebuilds.of_wraps`). On banked designs nothing overflows (`Design.roundTrip_bank`).

A certificate says nothing of the indices after those, and with words that wrap not all of
the first ones need to be restored (`certificate_passes_beyond_limit`): there are layouts that
send two indices to one place, and dimensions with more indices than words.
-/

namespace Bankflow

open Word (greatest)

namespace Mode

/-- The number that a mode divides by. -/
def divisor : Mode → Nat
  | single => 1
  | cyclic f => f
  | block _ b => b

/-- The part that is a remainder is in its bounds. -/
def Bounds : Mode → Int → Int → Prop
  | single, bank, _ => bank = 0
  | cyclic f, bank, _ => 0 ≤ bank ∧ bank < f
  | block _ b, _, offset => 0 ≤ offset ∧ offset < b

/-- A bank and an offset give a position back, by a mode that divides by a word. -/
structure Rebuilds (v : Overflow) (m : Mode) (bank offset x : Int) : Prop where
  word : (m.divisor : Int) ≤ greatest
  bounds : m.Bounds bank offset
  position_eq : v.Agrees (m.position bank offset) x

end Mode

/-- The layout is defined at index `i` of a dimension, with all other indices zero, and
restores it. -/
def Layout.Restores (v : Overflow) (l : Layout) (c : DimChoice) (i : Nat) : Prop :=
  ∃ (w : Int64) (values : List Int64) (bank offset : Int64), w.toInt = i ∧
    l.apply (unitIndex l.rank c.dim w) = some values ∧ values[c.dim]? = some bank ∧
    values[l.rank + c.dim]? = some offset ∧ c.mode.Rebuilds v bank.toInt offset.toInt i

namespace Design

/-- The layouts of a plan restore the first indices of each dimension that was decided on; of
a dimension of some size, `count size` of them. -/
def Restores (v : Overflow) (d : Design) (p : Plan) (count : Nat → Nat) : Prop :=
  ∀ a ∈ p.applied, ∃ m, d.memories[a.decision.array]? = some m ∧ ∀ c ∈ a.decision.dims,
    ∃ size, m.shape[c.dim]? = some size ∧ ∀ i < count size, a.decision.layout.Restores v c i

/-- There is a certificate of the plan, and it passes. -/
def Passes (v : Overflow) (d : Design) (p : Plan) : Prop :=
  ∃ c, d.certificate? v p = .ok c ∧ c.allPass = true

end Design

/-! ## Words and integers -/

/-- A number of 64 bits that is not a word is taken for a negative one. -/
theorem Word.toInt_ofNat_neg {n : Nat} (h : greatest < n) (hn : n < 2 ^ 64) :
    (Int64.ofNat n).toInt < 0 := by
  simp only [greatest] at h
  rw [Int64.toInt_ofNat', show Int64.size = 2 ^ 64 from rfl, Int.bmod_def]
  omega

theorem le_greatest_of_lt {i : Nat} (h : i < roundTripLimit) : (i : Int) ≤ greatest :=
  Int.le_trans (Int.ofNat_le.mpr (Nat.le_of_lt h)) (by decide)

/-- Words that agree are the same. -/
theorem Overflow.agrees_toInt_iff (v : Overflow) {a b : Int64} :
    v.Agrees a.toInt b.toInt ↔ a = b := by
  cases v with
  | wraps => rw [Agrees, ← Word.ofInt_eq_iff_modEq, Int64.ofInt_toInt]
  | stops => exact Int64.toInt_inj

/-- No remainder is in the bounds of a number of 64 bits that is not a word. -/
theorem Overflow.rebuilds_ne_ok_true (v : Overflow) {n : Nat} {q r x : Int64} (hx : 0 ≤ x.toInt)
    (h : greatest < n) (hn : n < 2 ^ 64) : v.rebuilds (Int64.ofNat n) q r x ≠ .ok true := by
  rw [Ne, v.rebuilds_eq_ok_true_iff hx]
  have hneg := Word.toInt_ofNat_neg h hn
  omega

namespace Mode

variable {v : Overflow} {m : Mode}

/-- The check of a mode with words is one with integers. -/
theorem restores_iff {bank offset x : Int64} (hx : 0 ≤ x.toInt) (h : m.divisor < 2 ^ 64) :
    m.restores v bank offset x = .ok true ↔ m.Rebuilds v bank.toInt offset.toInt x.toInt := by
  by_cases hword : (m.divisor : Int) ≤ greatest
  · cases m with
    | single =>
      have hzero : bank.toInt = 0 ↔ bank = 0 := Int64.toInt_inj (y := 0)
      simp only [restores, pure, Except.pure, Except.ok.injEq, Bool.and_eq_true, decide_eq_true_eq]
      exact ⟨fun hr => ⟨hword, hzero.mpr hr.1, v.agrees_toInt_iff.mpr hr.2⟩,
        fun hr => ⟨hzero.mp hr.bounds, v.agrees_toInt_iff.mp hr.position_eq⟩⟩
    | cyclic f =>
      have hf : (Int64.ofNat f).toInt = f := Word.toInt_ofNat_of_le hword
      rw [restores, v.rebuilds_eq_ok_true_iff hx, hf]
      exact ⟨fun hr => ⟨hword, hr.1, hr.2⟩, fun hr => ⟨hr.bounds, hr.position_eq⟩⟩
    | block f b =>
      have hb : (Int64.ofNat b).toInt = b := Word.toInt_ofNat_of_le hword
      rw [restores, v.rebuilds_eq_ok_true_iff hx, hb]
      exact ⟨fun hr => ⟨hword, hr.1, hr.2⟩, fun hr => ⟨hr.bounds, hr.position_eq⟩⟩
  · refine iff_of_false ?_ fun hr => hword hr.word
    cases m with
    | single => exact absurd (show (1 : Int) ≤ greatest by decide) hword
    | cyclic f => exact v.rebuilds_ne_ok_true hx (Int.not_le.mp hword) h
    | block f b => exact v.rebuilds_ne_ok_true hx (Int.not_le.mp hword) h

/-- A position that is a word and was computed with words that wrap is exact. -/
theorem Rebuilds.of_wraps {bank offset : Int} {w x : Int64}
    (h : m.Rebuilds .wraps bank offset x.toInt) (hw : m.position bank offset = w.toInt) :
    m.Rebuilds .stops bank offset x.toInt := by
  refine ⟨h.word, h.bounds, ?_⟩
  have hagrees := h.position_eq
  rw [hw, Overflow.agrees_toInt_iff] at hagrees
  rw [hw, hagrees]
  exact .of_eq .stops rfl

end Mode

namespace Layout

variable {v : Overflow} {l : Layout} {c : DimChoice}

theorem restoresAt_iff {i : Nat} (hi : (i : Int) ≤ greatest) (hc : c.mode.divisor < 2 ^ 64) :
    l.restoresAt v c i = .ok true ↔ l.Restores v c i := by
  have hw : (Int64.ofNat i).toInt = i := Word.toInt_ofNat_of_le hi
  have hmode : ∀ bank offset : Int64, c.mode.restores v bank offset (Int64.ofNat i) = .ok true ↔
      c.mode.Rebuilds v bank.toInt offset.toInt i := by
    intro bank offset
    rw [Mode.restores_iff (by omega) hc, hw]
  constructor
  · intro h
    unfold restoresAt at h
    split at h
    · cases h
    · next values hvalues =>
      split at h
      · next bank offset hbank hoffset =>
        exact ⟨_, values, bank, offset, hw, hvalues, hbank, hoffset, (hmode bank offset).mp h⟩
      · cases h
  · rintro ⟨w, values, bank, offset, hi', hvalues, hbank, hoffset, hr⟩
    obtain rfl : w = Int64.ofNat i := Int64.toInt_inj.mp (hi'.trans hw.symm)
    simp only [restoresAt, hvalues, hbank, hoffset]
    exact (hmode bank offset).mpr hr

theorem roundTrips_iff {size : Nat} (hc : c.mode.divisor < 2 ^ 64) :
    l.roundTrips v c size = .ok true ↔
      c.dim < l.rank ∧ ∀ i < min size roundTripLimit, l.Restores v c i := by
  by_cases hdim : c.dim < l.rank
  · rw [roundTrips, if_pos hdim, and_iff_right hdim, allM_eq_ok_true_iff]
    refine forall_congr' fun i => ?_
    rw [List.mem_range]
    exact forall_congr' fun hi =>
      restoresAt_iff (le_greatest_of_lt (Nat.lt_of_lt_of_le hi (Nat.min_le_right _ _))) hc
  · rw [roundTrips, if_neg hdim]
    exact iff_of_false (fun h => absurd h (by decide)) fun h => hdim h.1

end Layout

/-! ## Certificates -/

/-- A certificate passes exactly if the layouts have their form, and those of the plan restore
the first indices of each dimension that was decided on: as integers where an overflow is a
fault, and up to multiples of `2 ^ 64` where words wrap. Words wrap for the certificate that
is made for every plan. -/
theorem Design.certificate_passes_iff_restores (d : Design) (p : Plan)
    (h : ∀ a ∈ p.applied, ∀ c ∈ a.decision.dims, c.mode.divisor < 2 ^ 64) :
    (∀ v : Overflow, d.Passes v p ↔
      d.bankArity = true ∧ d.offsetArity = true ∧
        (∀ a ∈ p.applied, ∀ c ∈ a.decision.dims, c.dim < a.decision.layout.rank) ∧
          d.Restores v p fun size => min size roundTripLimit) ∧
      ((d.certificate p).allPass = true ↔ d.Passes .wraps p) := by
  refine ⟨fun v => ?_, by rw [allPass_certificate_iff, Passes, exists_certificate?_iff]⟩
  rw [Passes, exists_certificate?_iff, roundTrip_eq_ok_iff]
  refine and_congr_right fun _ => and_congr_right fun _ => ?_
  constructor
  · intro hround
    refine ⟨fun a ha c hc => ?_, fun a ha => ?_⟩
    · obtain ⟨m, -, hdims⟩ := hround a ha
      obtain ⟨size, -, hc'⟩ := hdims c hc
      exact ((Layout.roundTrips_iff (h a ha c hc)).mp hc').1
    · obtain ⟨m, hm, hdims⟩ := hround a ha
      refine ⟨m, hm, fun c hc => ?_⟩
      obtain ⟨size, hsize, hc'⟩ := hdims c hc
      exact ⟨size, hsize, ((Layout.roundTrips_iff (h a ha c hc)).mp hc').2⟩
  · rintro ⟨hrank, hrestores⟩ a ha
    obtain ⟨m, hm, hdims⟩ := hrestores a ha
    refine ⟨m, hm, fun c hc => ?_⟩
    obtain ⟨size, hsize, hc'⟩ := hdims c hc
    exact ⟨size, hsize, (Layout.roundTrips_iff (h a ha c hc)).mpr ⟨hrank a ha c hc, hc'⟩⟩

/-- A plan that banks one array in both ways. -/
def crosswise : Plan :=
  let dims : List DimChoice := [⟨0, 2, 1, .cyclic 2⟩, ⟨1, 2, 3, .block 2 5⟩]
  ⟨[⟨⟨0, .write, dims, .ofChoices dims⟩, none⟩], [none]⟩

def crosswiseDesign : Design := ⟨[⟨"a", [8, 10], "f32", none, 0⟩], [], .empty⟩

theorem crosswise_certificate_restores :
    (∀ a ∈ crosswise.applied, ∀ c ∈ a.decision.dims, c.mode.divisor < 2 ^ 64) ∧
      crosswiseDesign.Passes .stops crosswise ∧
        crosswiseDesign.Restores .stops crosswise fun size => min size roundTripLimit := by
  have hwords : ∀ a ∈ crosswise.applied, ∀ c ∈ a.decision.dims, c.mode.divisor < 2 ^ 64 := by
    decide
  have hpass : crosswiseDesign.Passes .stops crosswise :=
    Design.exists_certificate?_iff.mpr ⟨by decide, by decide, by decide⟩
  exact ⟨hwords, hpass,
    (((crosswiseDesign.certificate_passes_iff_restores crosswise hwords).1 .stops).mp hpass).2.2.2⟩

/-! ## Beyond the limit -/

section Beyond

/-- An array of one dimension with one bank, and the plan to bank it so. -/
def oneBank (nests : List Nest) (size : Nat) (offset : Expr) : Design :=
  ⟨[⟨"a", [size], "f32", some ⟨[.const 0], [offset]⟩, 0⟩], nests, .empty⟩

def oneBankPlan (loops : List (Option Nat)) (offset : Expr) : Plan :=
  ⟨[⟨⟨0, .read, [⟨0, 1, 0, .single⟩], ⟨[.const 0], [offset]⟩⟩, none⟩], loops⟩

variable {v : Overflow} {nests : List Nest} {loops : List (Option Nat)} {size : Nat}
  {offset : Expr}

theorem oneBank_passes (hdims : offset.maxDim = some 0)
    (h : ∀ i < roundTripLimit, ∃ w : Int64, offset.eval [Int64.ofNat i] = some w ∧ w.toInt = i) :
    (oneBank nests size offset).Passes v (oneBankPlan loops offset) := by
  refine Design.exists_certificate?_iff.mpr ⟨?_, rfl, Design.roundTrip_eq_ok_iff.mpr ?_⟩
  · simp [Design.bankArity, oneBank, Layout.within, Layout.selectors, Memory.rank, hdims,
      Expr.maxDim]
  · refine List.forall_mem_singleton.mpr ⟨_, rfl, List.forall_mem_singleton.mpr ⟨size, rfl, ?_⟩⟩
    refine (Layout.roundTrips_iff (by decide)).mpr ⟨Nat.one_pos, fun i hi => ?_⟩
    have hlimit : i < roundTripLimit := Nat.lt_of_lt_of_le hi (Nat.min_le_right _ _)
    obtain ⟨w, hw, hi'⟩ := h i hlimit
    refine ⟨Int64.ofNat i, [0, w], 0, w, Word.toInt_ofNat_of_le (le_greatest_of_lt hlimit), ?_,
      rfl, rfl, by decide, rfl, .of_eq v hi'⟩
    simp [Layout.apply, Layout.selectors, Layout.evalAll, unitIndex, Layout.rank, Expr.eval, hw]

theorem oneBank_restored {count : Nat → Nat} {i : Nat}
    (h : (oneBank nests size offset).Restores v (oneBankPlan loops offset) count)
    (hi : i < count size) : Layout.Restores v ⟨[.const 0], [offset]⟩ ⟨0, 1, 0, .single⟩ i := by
  obtain ⟨m, hm, hdims⟩ := h _ List.mem_cons_self
  cases hm
  obtain ⟨size, hsize, hrestores⟩ := hdims _ List.mem_cons_self
  cases hsize
  exact hrestores i hi

end Beyond

/-- Offsets that start again after `roundTripLimit` indices. -/
def wrapping : Expr := .combine .mod (.dim 0) (.const (Int64.ofNat roundTripLimit))

/-- A pipelined read of an array with more indices than words. -/
def vast : Design :=
  ⟨[⟨"a", [18446744073709551615], "f32", none, 0⟩],
    [⟨⟨0, 0, 0, 4, 1, true⟩, .access ⟨0, [.dim 0], .read⟩ .done, ["i"]⟩], .empty⟩

theorem vast_bank : vast.bank =
    (oneBank vast.nests 18446744073709551615 (.dim 0), oneBankPlan [some 0] (.dim 0)) := by
  decide

/-- Positions in a run of four, all with offset `4` of a factor whose multiple by `4` is
`2 ^ 64`. -/
def goneRound : Design :=
  ⟨[⟨"a", [4], "f32", some ⟨[.dim 0], [.const 4]⟩, 0⟩], [], .empty⟩

def goneRoundPlan : Plan :=
  ⟨[⟨⟨0, .read, [⟨0, 1, 0, .cyclic (2 ^ 62)⟩], ⟨[.dim 0], [.const 4]⟩⟩, none⟩], []⟩

/-- Certificates pass where not all indices are restored: index `roundTripLimit` of a
dimension with one more index than are tried, and index `2 ^ 63` of one that has it. With
words that wrap a certificate can pass where index `0` is not restored; it is a fault to make
this one where words do not wrap. -/
theorem certificate_passes_beyond_limit :
    (∀ v : Overflow, (oneBank [] 4097 wrapping).Passes v (oneBankPlan [] wrapping) ∧
        ¬ (oneBank [] 4097 wrapping).Restores v (oneBankPlan [] wrapping) id) ∧
      (∀ v : Overflow, vast.bank.1.Passes v vast.bank.2 ∧
        ¬ vast.bank.1.Restores v vast.bank.2 id) ∧
      goneRound.Passes .wraps goneRoundPlan ∧
        goneRound.certificate? .stops goneRoundPlan = .error .overflow ∧
        ¬ goneRound.Restores .stops goneRoundPlan fun _ => 1 := by
  refine ⟨fun v => ⟨oneBank_passes rfl fun i hi => ?_, fun h => ?_⟩, fun v => ⟨?_, fun h => ?_⟩,
    Design.exists_certificate?_iff.mpr ⟨by decide, by decide, by decide⟩, by decide, fun h => ?_⟩
  · have hword : (Int64.ofNat i).toInt = i := Word.toInt_ofNat_of_le (le_greatest_of_lt hi)
    obtain ⟨-, r, -, hr, -, hrv⟩ := Mode.eval_divisions (d := 0) (f := roundTripLimit)
      (by decide) (by decide) (show [Int64.ofNat i][0]? = some (Int64.ofNat i) from rfl) hword
    exact ⟨r, hr, by rw [hrv, Nat.mod_eq_of_lt hi]⟩
  · obtain ⟨w, values, bank, offset, hw, hvalues, hbank, hoffset, hr⟩ :=
      oneBank_restored h (show 4096 < 4097 by decide)
    obtain rfl : w = 4096 := Int64.toInt_inj.mp hw
    have happly : Layout.apply ⟨[.const 0], [wrapping]⟩ [4096] = some [0, 0] := by decide
    cases happly.symm.trans hvalues
    cases hbank
    cases hoffset
    have hagrees : v.Agrees (0 : Int64).toInt (4096 : Int64).toInt := hr.position_eq
    exact absurd (v.agrees_toInt_iff.mp hagrees) (by decide)
  · rw [vast_bank]
    refine oneBank_passes rfl fun i hi => ⟨Int64.ofNat i, rfl, ?_⟩
    exact Word.toInt_ofNat_of_le (le_greatest_of_lt hi)
  · rw [vast_bank] at h
    obtain ⟨w, _, _, _, hw, -⟩ :=
      oneBank_restored h (show 9223372036854775808 < 18446744073709551615 by decide)
    have hle := Word.toInt_le_greatest w
    rw [hw] at hle
    exact absurd hle (by decide)
  · obtain ⟨m, hm, hdims⟩ := h _ List.mem_cons_self
    cases hm
    obtain ⟨size, -, hrestores⟩ := hdims _ List.mem_cons_self
    obtain ⟨w, values, bank, offset, hw, hvalues, hbank, hoffset, hr⟩ :=
      hrestores 0 Nat.one_pos
    obtain rfl : w = 0 := Int64.toInt_inj.mp hw
    have happly : Layout.apply ⟨[.dim 0], [.const 4]⟩ [0] = some [0, 4] := by decide
    cases happly.symm.trans hvalues
    cases hbank
    cases hoffset
    have hposition : (Mode.cyclic (2 ^ 62)).position 0 4 = 0 := hr.position_eq
    exact absurd hposition (by decide)

/-! ## Banked designs -/

theorem allM_congr {ε α : Type} {p q : α → Except ε Bool} :
    ∀ {xs : List α}, (∀ x ∈ xs, p x = q x) → xs.allM p = xs.allM q
  | [], _ => rfl
  | x :: xs, h => by
    rw [List.allM, List.allM, h x List.mem_cons_self,
      allM_congr fun y hy => h y (List.mem_cons_of_mem x hy)]

/-- A quotient and a remainder of the same division are put together without overflow. -/
theorem Overflow.rebuilds_division (v : Overflow) {n q r x : Int64}
    (hq : Word.floorDiv x n = some q) (hr : Word.mod x n = some r) :
    v.rebuilds n q r x = .ok (decide (0 ≤ r ∧ r < n)) := by
  simp only [Word.mod, hq, Option.bind_eq_bind, Option.bind_some, Option.bind_eq_some_iff] at hr
  obtain ⟨p, hp, hrest⟩ := hr
  have hdiff := Word.ofInt?_eq_some_iff.mp hrest
  refine v.rebuilds_eq_ok hp (Word.ofInt?_eq_some_iff.mpr ?_)
  omega

/-- The selectors of a mode give a bank and an offset that are put together without overflow. -/
theorem Mode.restores_selected (v v' : Overflow) {m : Mode} {d : Nat} {x bank offset : Int64}
    {index : List Int64} (hx : index[d]? = some x) (hbank : (m.bank d).eval index = some bank)
    (hoffset : (m.offset d).eval index = some offset) :
    m.restores v bank offset x = m.restores v' bank offset x := by
  cases m with
  | single => rfl
  | cyclic f =>
    rw [Mode.bank, eval_combine_dim hx] at hbank
    rw [Mode.offset, eval_combine_dim hx] at hoffset
    rw [restores, restores, v.rebuilds_division hoffset hbank, v'.rebuilds_division hoffset hbank]
  | block f b =>
    rw [Mode.bank, eval_combine_dim hx] at hbank
    rw [Mode.offset, eval_combine_dim hx] at hoffset
    rw [restores, restores, v.rebuilds_division hbank hoffset, v'.rebuilds_division hbank hoffset]

theorem Layout.restoresAt_ofChoices (v v' : Overflow) {choices : List DimChoice} {c : DimChoice}
    (hc : choices[c.dim]? = some c) (i : Nat) :
    (ofChoices choices).restoresAt v c i = (ofChoices choices).restoresAt v' c i := by
  have hdim : c.dim < (ofChoices choices).rank := by
    rw [rank, ofChoices, List.length_map]
    exact (List.getElem?_eq_some_iff.mp hc).1
  unfold restoresAt
  split
  · rfl
  · next values hvalues =>
    split
    · next bank offset hbank hoffset =>
      refine Mode.restores_selected v v' (getElem?_unitIndex _ hdim) ?_ ?_
      · rw [← hbank, getElem?_evalAll hvalues]
        rw [selectors, List.getElem?_append_left hdim, getElem?_banks_ofChoices, hc]
        rfl
      · rw [← hoffset, getElem?_evalAll hvalues]
        rw [selectors, rank, List.getElem?_append_right (Nat.le_add_right _ _),
          Nat.add_sub_cancel_left, getElem?_offsets_ofChoices, hc]
        rfl
    · rfl

/-- On a banked design it does not matter what arithmetic does on overflow. -/
theorem Design.roundTrip_bank (v v' : Overflow) (d : Design) :
    d.bank.1.roundTrip v d.bank.2.applied = d.bank.1.roundTrip v' d.bank.2.applied := by
  refine allM_congr fun a ha => ?_
  obtain ⟨n, -, hdec⟩ := exists_nest_of_mem_plan ha
  obtain ⟨m, -, heq⟩ := eq_of_mem_nestDecisions hdec
  split
  · rfl
  · refine allM_congr fun c hc => ?_
    split
    · rfl
    · rw [Layout.roundTrips, Layout.roundTrips]
      split
      · refine allM_congr fun i _ => ?_
        rw [heq] at hc ⊢
        exact Layout.restoresAt_ofChoices v v' (getElem?_of_mem_choicesFrom hc) i
      · rfl

end Bankflow
