import Bankflow.Bank.Certificate
import Bankflow.Proofs.Bank.Plan
import Mathlib.Data.Int.ModEq

/-!
# Banked designs pass their certificate

In a design that is `Bankable`, every decision fits the shape of its array
(`Bankable.fits`), so its layout places all indices of the array. The certificate of
banking looks at some of them and at the form of the layouts; it passes
(`Bankable.allPass_certificate`).
-/

namespace Bankflow

open Word (greatest)

/-- A decision whose layout is that of its choices, and these fit a shape. -/
structure Decision.Fits (dec : Decision) (shape : List Nat) : Prop where
  layout_eq : dec.layout = .ofChoices dec.dims
  choicesFit : Layout.ChoicesFit dec.dims shape

/-- A design before its arrays are banked. Accesses name arrays, the accesses of a nest
can be counted by words, and sizes are positive words. -/
structure Design.Bankable (d : Design) : Prop where
  named : ∀ n ∈ d.nests, ∀ a ∈ n.accesses, a.array < d.memories.length
  counted : ∀ n ∈ d.nests, (n.accesses.length : Int) ≤ greatest
  size_pos : ∀ m ∈ d.memories, ∀ size ∈ m.shape, 0 < size
  size_le : ∀ m ∈ d.memories, ∀ size ∈ m.shape, (size : Int) ≤ greatest
  unbanked : ∀ m ∈ d.memories, m.layout = none

/-! ## Arithmetic on words -/

theorem Word.ofInt_eq_iff_modEq {n : Int} {w : Int64} :
    Int64.ofInt n = w ↔ n ≡ w.toInt [ZMOD 2 ^ 64] := by
  have hsize : ((2 ^ 64 : Nat) : Int) = 2 ^ 64 := by norm_num
  constructor
  · rintro rfl
    rw [Int64.toInt_ofInt, Int.ModEq, ← hsize]
    exact Int.bmod_emod.symm
  · intro h
    rw [Int.ModEq, ← hsize] at h
    refine Int64.toInt_inj.mp ?_
    rw [Int64.toInt_ofInt, ← w.toInt_bmod]
    exact (Int.emod_bmod _ _).symm.trans ((congrArg (Int.bmod · _) h).trans (Int.emod_bmod _ _))

namespace Overflow

/-- What is known of two integers that are computed as the same word. -/
def Agrees : Overflow → Int → Int → Prop
  | wraps, a, b => a ≡ b [ZMOD 2 ^ 64]
  | stops, a, b => a = b

theorem Agrees.of_eq (o : Overflow) {a b : Int} (h : a = b) : o.Agrees a b := by
  cases o with
  | wraps => exact h ▸ Int.ModEq.rfl
  | stops => exact h

theorem mul_eq_ok {a b c : Int64} (o : Overflow) (h : Word.mul a b = some c) :
    o.mul a b = .ok c := by
  cases o with
  | wraps =>
    have hc := Word.ofInt?_eq_some_iff.mp h
    rw [mul, ← Int64.ofInt_toInt c, hc, Int64.ofInt_mul, Int64.ofInt_toInt, Int64.ofInt_toInt]
  | stops =>
    rw [mul, h]
    rfl

theorem add_eq_ok {a b c : Int64} (o : Overflow) (h : Word.add a b = some c) :
    o.add a b = .ok c := by
  cases o with
  | wraps =>
    have hc := Word.ofInt?_eq_some_iff.mp h
    rw [add, ← Int64.ofInt_toInt c, hc, Int64.ofInt_add, Int64.ofInt_toInt, Int64.ofInt_toInt]
  | stops =>
    rw [add, h]
    rfl

/-- Where nothing overflows, a quotient and a remainder in its bounds are put together. -/
theorem rebuilds_eq_ok (o : Overflow) {n q r x p : Int64} (hp : Word.mul n q = some p)
    (hx : Word.add p r = some x) : o.rebuilds n q r x = .ok (decide (0 ≤ r ∧ r < n)) := by
  rw [rebuilds, o.mul_eq_ok hp]
  split
  next hr =>
    simp only [bind, Except.bind, o.add_eq_ok hx, pure, Except.pure, hr]
    simp
  next hr =>
    rw [decide_eq_false hr]
    rfl

/-- A quotient and a remainder give back an index if they do so as integers, or up to
multiples of `2 ^ 64`. No sum that is an index overflows. -/
theorem rebuilds_eq_ok_true_iff (o : Overflow) {n q r x : Int64} (hx : 0 ≤ x.toInt) :
    o.rebuilds n q r x = .ok true ↔ (0 ≤ r.toInt ∧ r.toInt < n.toInt) ∧
      o.Agrees (n.toInt * q.toInt + r.toInt) x.toInt := by
  have hbounds : (0 ≤ r ∧ r < n) ↔ 0 ≤ r.toInt ∧ r.toInt < n.toInt := by
    rw [Int64.le_iff_toInt_le, Int64.lt_iff_toInt_lt]
    rfl
  by_cases hr : 0 ≤ r ∧ r < n
  · rw [← hbounds, and_iff_right hr]
    cases o with
    | wraps =>
      have hsum : n * q + r = Int64.ofInt (n.toInt * q.toInt + r.toInt) := by
        rw [Int64.ofInt_add, Int64.ofInt_mul]
        simp only [Int64.ofInt_toInt]
      rw [rebuilds, if_pos hr]
      simp only [mul, add, bind, Except.bind, pure, Except.pure, Except.ok.injEq,
        decide_eq_true_eq, hsum, Word.ofInt_eq_iff_modEq, Agrees]
    | stops =>
      constructor
      · intro h
        rw [rebuilds, if_pos hr] at h
        cases hp : Word.mul n q with
        | none => simp [mul, hp, bind, Except.bind] at h
        | some p =>
          cases hs : Word.add p r with
          | none => simp [mul, add, hp, hs, bind, Except.bind] at h
          | some s =>
            simp only [mul, add, hp, hs, Option.elim_some, bind, Except.bind, pure, Except.pure,
              Except.ok.injEq, decide_eq_true_eq] at h
            rw [Agrees, ← Word.ofInt?_eq_some_iff.mp hp, ← h]
            exact (Word.ofInt?_eq_some_iff.mp hs).symm
      · intro h
        have hn := Word.toInt_le_greatest n
        have hxle := Word.toInt_le_greatest x
        have hr' := hbounds.mp hr
        have heq : n.toInt * q.toInt + r.toInt = x.toInt := h
        obtain ⟨p, hp⟩ : ∃ p, Word.mul n q = some p := by
          refine Option.ne_none_iff_exists'.mp fun hnone => ?_
          have hout := Word.ofInt?_eq_none_iff.mp hnone
          simp only [Word.least, greatest] at hn hxle hout
          omega
        have hsum : Word.add p r = some x := by
          rw [Word.add, Word.ofInt?_eq_some_iff, Word.ofInt?_eq_some_iff.mp hp, heq]
        rw [rebuilds_eq_ok _ hp hsum, decide_eq_true hr]
  · refine iff_of_false ?_ fun h => hr (hbounds.mpr h.1)
    rw [rebuilds, if_neg hr]
    exact fun h => absurd h (by decide)

end Overflow

/-- A test of all elements passes if each element passes. -/
theorem allM_eq_ok_true_iff {ε α : Type} {p : α → Except ε Bool} :
    ∀ {xs : List α}, xs.allM p = .ok true ↔ ∀ x ∈ xs, p x = .ok true
  | [] => by simp [List.allM, pure, Except.pure]
  | x :: xs => by
    rw [List.forall_mem_cons, ← allM_eq_ok_true_iff, List.allM]
    cases hx : p x with
    | error e => simp [bind, Except.bind]
    | ok passed => cases passed <;> simp [bind, Except.bind, pure, Except.pure]

/-! ## Layouts that fit -/

namespace Decision.Fits

variable {dec : Decision} {shape : List Nat}

theorem places {index : List Int64} (h : dec.Fits shape) (hi : InShape shape index) :
    ∃ tuple, dec.layout.apply index = some tuple ∧ PlacesIndex dec.dims shape index tuple := by
  rw [h.layout_eq]
  exact Layout.ofChoices_places h.choicesFit hi

/-- No two indices of the array share a tuple. -/
theorem apply_inj {x y : List Int64} (h : dec.Fits shape) (hx : InShape shape x)
    (hy : InShape shape y) (heq : dec.layout.apply x = dec.layout.apply y) : x = y := by
  obtain ⟨tuple, ht, hpx⟩ := h.places hx
  obtain ⟨tuple', ht', hpy⟩ := h.places hy
  rw [← heq, ht] at ht'
  cases ht'
  exact hpx.index_eq hpy hx.length_eq hy.length_eq

theorem length_banks (h : dec.Fits shape) : dec.layout.banks.length = shape.length := by
  rw [h.layout_eq, Layout.ofChoices, List.length_map, h.choicesFit.1]

theorem length_offsets (h : dec.Fits shape) : dec.layout.offsets.length = shape.length := by
  rw [h.layout_eq, Layout.ofChoices, List.length_map, h.choicesFit.1]

/-- A choice is for a dimension of the array, and stands at its place. -/
theorem size_of_mem {c : DimChoice} (h : dec.Fits shape) (hc : c ∈ dec.dims) :
    ∃ size, dec.dims[c.dim]? = some c ∧ shape[c.dim]? = some size ∧ c.mode.Fits size := by
  obtain ⟨k, hk⟩ := List.mem_iff_getElem?.mp hc
  have hlt : k < shape.length := h.choicesFit.1 ▸ (List.getElem?_eq_some_iff.mp hk).1
  have hs : shape[k]? = some shape[k] := List.getElem?_eq_getElem hlt
  obtain ⟨rfl, hfits⟩ := h.choicesFit.2 k c _ hk hs
  exact ⟨_, hk, hs, hfits⟩

end Decision.Fits

/-! ## The form of layouts -/

theorem Mode.eq_of_maxDim {m : Mode} {d k : Nat} {e : Expr}
    (he : e = m.bank d ∨ e = m.offset d) (hk : e.maxDim = some k) : k = d := by
  rcases he with rfl | rfl <;> cases m <;>
    simp [bank, offset, Expr.combine, Expr.maxDim] at hk <;> exact hk.symm

theorem Decision.Fits.within {dec : Decision} {shape : List Nat} (h : dec.Fits shape) :
    dec.layout.within shape.length = true := by
  rw [h.layout_eq, Layout.within, List.all_eq_true]
  intro e he
  obtain ⟨c, hc, hsel⟩ : ∃ c ∈ dec.dims, e = c.mode.bank c.dim ∨ e = c.mode.offset c.dim := by
    simp only [Layout.selectors, Layout.ofChoices, List.mem_append, List.mem_map] at he
    rcases he with ⟨c, hc, rfl⟩ | ⟨c, hc, rfl⟩
    · exact ⟨c, hc, .inl rfl⟩
    · exact ⟨c, hc, .inr rfl⟩
  obtain ⟨size, -, hs, -⟩ := h.size_of_mem hc
  split
  · next k hk =>
    rw [Mode.eq_of_maxDim hsel hk]
    exact decide_eq_true (List.getElem?_eq_some_iff.mp hs).1
  · rfl

/-! ## Round trips -/

/-- The bank and the offset of a position restore it. -/
theorem Mode.Fits.restores {m : Mode} {size : Nat} {x b o : Int64} (h : m.Fits size)
    (hx₀ : 0 ≤ x.toInt) (hp : m.Places size x.toInt b.toInt o.toInt) (v : Overflow) :
    m.restores v b o x = .ok true := by
  obtain ⟨hb₀, hb, ho₀, ho, hx⟩ := hp
  cases h with
  | single =>
    have hb' : b.toInt < 1 := hb
    have hzero : b = 0 := Int64.toInt_inj.mp (show b.toInt = 0 by omega)
    have hsame : o = x := Int64.toInt_inj.mp hx
    simp [Mode.restores, hzero, hsame, pure, Except.pure]
  | cyclic pos word =>
    rw [Mode.restores, Overflow.rebuilds_eq_ok_true_iff v hx₀, Word.toInt_ofNat_of_le word]
    exact ⟨⟨hb₀, hb⟩, .of_eq v hx⟩
  | block pos word =>
    rw [Mode.restores, Overflow.rebuilds_eq_ok_true_iff v hx₀, Word.toInt_ofNat_of_le word]
    exact ⟨⟨ho₀, ho⟩, .of_eq v hx⟩

theorem inShape_replicate_zero :
    ∀ {shape : List Nat}, (∀ size ∈ shape, 0 < size) → InShape shape (List.replicate shape.length 0)
  | [], _ => .nil
  | size :: _, h =>
    .cons ⟨Int.le_refl 0, Int.ofNat_lt.mpr (h size List.mem_cons_self)⟩
      (inShape_replicate_zero fun s hs => h s (List.mem_cons_of_mem size hs))

theorem inShape_unitIndex {size : Nat} {i : Int64} (h₀ : 0 ≤ i.toInt) (hi : i.toInt < size) :
    ∀ {shape : List Nat} {d : Nat}, (∀ s ∈ shape, 0 < s) → shape[d]? = some size →
      InShape shape (unitIndex shape.length d i)
  | _ :: _, 0, h, hd => by
    cases hd
    exact .cons ⟨h₀, hi⟩ (inShape_replicate_zero fun s hs => h s (List.mem_cons_of_mem _ hs))
  | s :: shape, d + 1, h, hd => by
    have hd' : shape[d]? = some size := hd
    have hrest := inShape_unitIndex h₀ hi (fun s hs => h s (List.mem_cons_of_mem _ hs)) hd'
    exact .cons ⟨Int.le_refl 0, Int.ofNat_lt.mpr (h s List.mem_cons_self)⟩ hrest

theorem getElem?_unitIndex {rank d : Nat} (i : Int64) (hd : d < rank) :
    (unitIndex rank d i)[d]? = some i := by
  rw [unitIndex, List.getElem?_set_self]
  rwa [List.length_replicate]

theorem Decision.Fits.roundTrips {dec : Decision} {shape : List Nat} {c : DimChoice}
    (h : dec.Fits shape) (hpos : ∀ size ∈ shape, 0 < size) (hc : c ∈ dec.dims) (v : Overflow) :
    ∃ size, shape[c.dim]? = some size ∧ dec.layout.roundTrips v c size = .ok true := by
  obtain ⟨size, hdims, hs, hfits⟩ := h.size_of_mem hc
  have hdim : c.dim < shape.length := (List.getElem?_eq_some_iff.mp hs).1
  have hrank : dec.layout.rank = shape.length := h.length_banks
  refine ⟨size, hs, ?_⟩
  rw [Layout.roundTrips, hrank, if_pos hdim, allM_eq_ok_true_iff]
  intro i hi
  have hi' : i < min size 4096 := List.mem_range.mp hi
  have hword : (Int64.ofNat i).toInt = i :=
    Word.toInt_ofNat_of_le (show (i : Int) ≤ 9223372036854775807 by omega)
  have hin : InShape shape (unitIndex shape.length c.dim (Int64.ofNat i)) :=
    inShape_unitIndex (by omega) (by omega) hpos hs
  obtain ⟨tuple, ht, hplaces⟩ := h.places hin
  obtain ⟨c', size', x, b, o, hc', hs', hx, hb, ho, hp⟩ := hplaces.places c.dim hdim
  rw [hdims] at hc'
  rw [hs] at hs'
  rw [getElem?_unitIndex _ hdim] at hx
  cases hc'
  cases hs'
  cases hx
  simp only [Layout.restoresAt, hrank, ht, hb, ho]
  exact hfits.restores (by omega) hp v

namespace Design

theorem dimsRoundTrip_eq_ok_iff (v : Overflow) (array : Nat) {shape : List Nat} {l : Layout}
    {cs : List DimChoice} : dimsRoundTrip v array shape l cs = .ok true ↔
      ∀ c ∈ cs, ∃ size, shape[c.dim]? = some size ∧ l.roundTrips v c size = .ok true := by
  rw [dimsRoundTrip, allM_eq_ok_true_iff]
  refine forall₂_congr fun c _ => ?_
  cases shape[c.dim]? <;> simp

/-- The round trip is made exactly if all dimensions of all decisions make it. -/
theorem roundTrip_eq_ok_iff {v : Overflow} {d : Design} {as : List Applied} :
    d.roundTrip v as = .ok true ↔
      ∀ a ∈ as, ∃ m, d.memories[a.decision.array]? = some m ∧ ∀ c ∈ a.decision.dims,
        ∃ size, m.shape[c.dim]? = some size ∧ a.decision.layout.roundTrips v c size = .ok true := by
  rw [roundTrip, allM_eq_ok_true_iff]
  refine forall₂_congr fun a _ => ?_
  cases d.memories[a.decision.array]? with
  | none => simp
  | some m =>
    simp only [Option.some.injEq, exists_eq_left', ← dimsRoundTrip_eq_ok_iff v a.decision.array]

theorem allPass_bankingObligations_iff {d : Design} {passed : Bool} :
    (d.bankingObligations passed).allPass = true ↔
      d.bankArity = true ∧ d.offsetArity = true ∧ passed = true := by
  simp [bankingObligations, Certificate.allPass]

/-- A certificate passes exactly if the layouts have their form and the round trip is made. -/
theorem allPass_certificate_iff {d : Design} {p : Plan} : (d.certificate p).allPass = true ↔
    d.bankArity = true ∧ d.offsetArity = true ∧ d.roundTrip .wraps p.applied = .ok true := by
  rw [certificate, allPass_bankingObligations_iff]
  cases d.roundTrip .wraps p.applied <;> simp

theorem exists_certificate?_iff {v : Overflow} {d : Design} {p : Plan} :
    (∃ c, d.certificate? v p = .ok c ∧ c.allPass = true) ↔
      d.bankArity = true ∧ d.offsetArity = true ∧ d.roundTrip v p.applied = .ok true := by
  rw [certificate?]
  cases d.roundTrip v p.applied with
  | error f => simp [bind, Except.bind]
  | ok passed =>
    simp only [bind, Except.bind, pure, Except.pure, Except.ok.injEq, exists_eq_left',
      allPass_bankingObligations_iff]

/-! ## Bankable designs -/

namespace Bankable

variable {d : Design}

theorem bank?_eq_ok (h : d.Bankable) : d.bank? = .ok d.bank := Design.bank?_eq_ok h.named

/-- The decisions of the plan fit the shapes of their arrays. -/
theorem fits {a : Applied} (h : d.Bankable) (ha : a ∈ d.plan.applied) :
    ∃ m, d.memories[a.decision.array]? = some m ∧ a.decision.Fits m.shape := by
  obtain ⟨n, hn, hdec⟩ := exists_nest_of_mem_plan ha
  obtain ⟨m, hm, heq⟩ := eq_of_mem_nestDecisions hdec
  have hsites := length_sitesOf_le a.decision.kind a.decision.array n
  have hcount := h.counted n hn
  have hfit : Layout.ChoicesFit (choicesFrom
      (sitesOf a.decision.kind a.decision.array n.pipelinedAccesses) 0 m.shape) m.shape :=
    choicesFit_choicesFrom (by omega) (h.size_le m (List.mem_of_getElem? hm))
  refine ⟨m, hm, ?_⟩
  rw [heq]
  exact ⟨rfl, hfit⟩

theorem fits_of_final? {i : Nat} {dec : Decision} {m : Memory} (h : d.Bankable)
    (hdec : d.plan.final? i = some dec) (hm : d.memories[i]? = some m) : dec.Fits m.shape := by
  obtain ⟨⟨a, ha, rfl⟩, rfl⟩ := Plan.mem_of_final? hdec
  obtain ⟨m', hm', hfits⟩ := h.fits ha
  rw [hm] at hm'
  cases hm'
  exact hfits

/-- Each array gets the layout that was decided last, if one was. -/
theorem getElem?_bank (h : d.Bankable) (i : Nat) : d.bank.1.memories[i]? =
    (d.memories[i]?).map fun m => { m with layout := (d.plan.final? i).map (·.layout) } := by
  rw [Design.getElem?_bank]
  cases hm : d.memories[i]? with
  | none => rfl
  | some m => simp [h.unbanked m (List.mem_of_getElem? hm)]

/-- The layout of a banked array is that of a decision that fits it. -/
theorem exists_fits {m : Memory} {l : Layout} (h : d.Bankable) (hm : m ∈ d.bank.1.memories)
    (hl : m.layout = some l) : ∃ dec : Decision, dec.layout = l ∧ dec.Fits m.shape := by
  obtain ⟨i, hi⟩ := List.mem_iff_getElem?.mp hm
  rw [h.getElem?_bank, Option.map_eq_some_iff] at hi
  obtain ⟨m₀, hm₀, rfl⟩ := hi
  obtain ⟨dec, hdec, rfl⟩ := Option.map_eq_some_iff.mp hl
  have hfits := h.fits_of_final? hdec hm₀
  exact ⟨dec, rfl, hfits⟩

theorem bankArity (h : d.Bankable) : d.bank.1.bankArity = true := by
  refine List.all_eq_true.mpr fun m hm => ?_
  split
  · next l hl =>
    obtain ⟨dec, rfl, hfits⟩ := h.exists_fits hm hl
    simp only [Memory.rank, hfits.length_banks, hfits.within, decide_true, Bool.and_self]
  · rfl

theorem offsetArity (h : d.Bankable) : d.bank.1.offsetArity = true := by
  refine List.all_eq_true.mpr fun m hm => ?_
  split
  · next l hl =>
    obtain ⟨dec, rfl, hfits⟩ := h.exists_fits hm hl
    simp only [Memory.rank, hfits.length_offsets, decide_true]
  · rfl

theorem roundTrip (h : d.Bankable) (v : Overflow) :
    d.bank.1.roundTrip v d.bank.2.applied = .ok true := by
  refine roundTrip_eq_ok_iff.mpr fun a ha => ?_
  obtain ⟨m, hm, hfits⟩ := h.fits ha
  refine ⟨{ m with layout := (d.plan.final? a.decision.array).map (·.layout) }, ?_,
    fun c hc => hfits.roundTrips (h.size_pos m (List.mem_of_getElem? hm)) hc v⟩
  rw [h.getElem?_bank, hm, Option.map_some]

/-- Banking a bankable design gives one that passes its certificate. -/
theorem allPass_certificate (h : d.Bankable) : (d.bank.1.certificate d.bank.2).allPass = true :=
  allPass_certificate_iff.mpr ⟨h.bankArity, h.offsetArity, h.roundTrip .wraps⟩

end Bankable

end Design

end Bankflow
