import Bankflow.Bank.Plan
import Bankflow.Proofs.Bank.Mode
import Mathlib.Data.List.Forall2

/-!
# Layouts place every index of an array

The tuple that a layout gives for an index holds a bank and an offset for each
dimension. `PlacesIndex` says that these place the index dimension by dimension, by the
modes of some choices. The layout made from choices that fit a shape has a tuple for
every index of the shape, and that tuple places it (`Layout.ofChoices_places`); an
index is determined by the tuple that places it (`PlacesIndex.index_eq`).
-/

namespace Bankflow

/-- The indices of an array of some shape: one position in each dimension. -/
def InShape (shape : List Nat) (index : List Int64) : Prop :=
  List.Forall₂ (fun (size : Nat) (x : Int64) => 0 ≤ x.toInt ∧ x.toInt < size) shape index

/-- A tuple, banks first, that places an index of an array by the modes of `choices`. -/
structure PlacesIndex (choices : List DimChoice) (shape : List Nat) (index tuple : List Int64) :
    Prop where
  length_eq : tuple.length = 2 * shape.length
  places : ∀ k < shape.length, ∃ c size x b o, choices[k]? = some c ∧ shape[k]? = some size ∧
    index[k]? = some x ∧ tuple[k]? = some b ∧ tuple[shape.length + k]? = some o ∧
    c.mode.Places size x.toInt b.toInt o.toInt

theorem InShape.length_eq {shape : List Nat} {index : List Int64} (h : InShape shape index) :
    index.length = shape.length :=
  (List.Forall₂.length_eq h).symm

/-- The position of an index in one dimension. -/
theorem InShape.position {size : Nat} :
    ∀ {shape : List Nat} {index : List Int64} {k : Nat}, InShape shape index →
      shape[k]? = some size → ∃ x, index[k]? = some x ∧ 0 ≤ x.toInt ∧ x.toInt < size
  | _ :: _, _ :: _, 0, .cons h _, hk => by
    cases hk
    exact ⟨_, rfl, h⟩
  | _ :: shape, _ :: _, k + 1, .cons _ h, hk => by
    have hk' : shape[k]? = some size := hk
    obtain ⟨x, hx, hb⟩ := InShape.position h hk'
    exact ⟨x, hx, hb⟩

/-- Two indices placed by one tuple are equal. -/
theorem PlacesIndex.index_eq {choices : List DimChoice} {shape : List Nat}
    {x y tuple : List Int64} (hx : PlacesIndex choices shape x tuple)
    (hy : PlacesIndex choices shape y tuple) (lx : x.length = shape.length)
    (ly : y.length = shape.length) : x = y := by
  refine List.ext_getElem? fun k => ?_
  by_cases hk : k < shape.length
  · obtain ⟨c, size, u, b, o, hc, hs, hu, hb, ho, hp⟩ := hx.places k hk
    obtain ⟨c', size', v, b', o', hc', hs', hv, hb', ho', hp'⟩ := hy.places k hk
    rw [hc] at hc'
    rw [hb] at hb'
    rw [ho] at ho'
    cases hc'
    cases hb'
    cases ho'
    -- bank and offset are the same, and the mode's formula gives the position
    have huv : u.toInt = v.toInt := hp.position_eq.symm.trans hp'.position_eq
    rw [hu, hv, Int64.toInt_inj.mp huv]
  · rw [List.getElem?_eq_none (by omega), List.getElem?_eq_none (by omega)]

namespace Layout

theorem length_evalAll {index : List Int64} :
    ∀ {es : List Expr} {vs : List Int64}, evalAll index es = some vs → vs.length = es.length
  | [], vs, h => by
    cases h
    rfl
  | e :: es, vs, h => by
    simp only [evalAll, Option.bind_eq_bind, Option.bind_eq_some_iff] at h
    obtain ⟨v, -, ws, hws, hvs⟩ := h
    cases hvs
    rw [List.length_cons, List.length_cons, length_evalAll hws]

theorem getElem?_evalAll {index : List Int64} {e : Expr} :
    ∀ {es : List Expr} {vs : List Int64} {k : Nat}, evalAll index es = some vs →
      es[k]? = some e → vs[k]? = e.eval index
  | f :: es, vs, k, h, hk => by
    simp only [evalAll, Option.bind_eq_bind, Option.bind_eq_some_iff] at h
    obtain ⟨v, hv, ws, hws, hvs⟩ := h
    cases hvs
    cases k with
    | zero =>
      cases hk
      exact hv.symm
    | succ k =>
      have hk' : es[k]? = some e := hk
      show ws[k]? = e.eval index
      exact getElem?_evalAll hws hk'

theorem exists_evalAll {index : List Int64} :
    ∀ {es : List Expr}, (∀ e ∈ es, ∃ v, e.eval index = some v) → ∃ vs, evalAll index es = some vs
  | [], _ => ⟨[], rfl⟩
  | e :: es, h => by
    obtain ⟨v, hv⟩ := h e List.mem_cons_self
    obtain ⟨vs, hvs⟩ := exists_evalAll fun f hf => h f (List.mem_cons_of_mem e hf)
    exact ⟨v :: vs, by simp only [evalAll, hv, hvs, Option.bind_eq_bind, Option.bind_some]⟩

/-- Choices for a shape, one per dimension in order, whose modes fit its sizes. -/
def ChoicesFit (choices : List DimChoice) (shape : List Nat) : Prop :=
  choices.length = shape.length ∧ ∀ (k : Nat) (c : DimChoice) (size : Nat),
    choices[k]? = some c → shape[k]? = some size → c.dim = k ∧ c.mode.Fits size

/-- The selectors of a layout are those of its modes, as long as 32 bits number the dimensions. -/
theorem ofChoices_eq_selectors {choices : List DimChoice} (h : ∀ c ∈ choices, c.dim < 2 ^ 32) :
    ofChoices choices = ⟨choices.map fun c => (c.mode.selectors c.dim).1,
      choices.map fun c => (c.mode.selectors c.dim).2⟩ := by
  rw [ofChoices, Layout.mk.injEq]
  constructor <;>
    refine List.map_congr_left fun c hc => ?_ <;>
    rw [Mode.selectors_of_lt (h c hc)]

theorem getElem?_banks_ofChoices (choices : List DimChoice) (k : Nat) :
    (ofChoices choices).banks[k]? = (choices[k]?).map fun c => c.mode.bank c.dim := by
  rw [ofChoices, List.getElem?_map]

theorem getElem?_offsets_ofChoices (choices : List DimChoice) (k : Nat) :
    (ofChoices choices).offsets[k]? = (choices[k]?).map fun c => c.mode.offset c.dim := by
  rw [ofChoices, List.getElem?_map]

/-- What the selectors of one dimension give for an index of the shape. -/
theorem ChoicesFit.places {choices : List DimChoice} {shape : List Nat} {index : List Int64}
    {k : Nat} {c : DimChoice} (h : ChoicesFit choices shape) (hi : InShape shape index)
    (hc : choices[k]? = some c) :
    ∃ size x b o, shape[k]? = some size ∧ index[k]? = some x ∧
      (c.mode.bank c.dim).eval index = some b ∧ (c.mode.offset c.dim).eval index = some o ∧
      c.mode.Places size x.toInt b.toInt o.toInt := by
  have hk : k < shape.length := by
    rw [← h.1]
    exact (List.getElem?_eq_some_iff.mp hc).1
  have hs : shape[k]? = some shape[k] := List.getElem?_eq_getElem hk
  obtain ⟨hdim, hfits⟩ := h.2 k c _ hc hs
  obtain ⟨x, hx, h₀, hlt⟩ := hi.position hs
  subst hdim
  obtain ⟨b, o, hb, ho, hp⟩ := hfits.places hx h₀ hlt
  exact ⟨_, x, b, o, hs, hx, hb, ho, hp⟩

/-- The layout of choices that fit a shape places all indices of the shape. -/
theorem ofChoices_places {choices : List DimChoice} {shape : List Nat} {index : List Int64}
    (h : ChoicesFit choices shape) (hi : InShape shape index) :
    ∃ tuple, (ofChoices choices).apply index = some tuple ∧
      PlacesIndex choices shape index tuple := by
  have hall : ∀ e ∈ (ofChoices choices).selectors, ∃ v, e.eval index = some v := by
    intro e he
    simp only [selectors, ofChoices, List.mem_append, List.mem_map] at he
    rcases he with ⟨c, hc, rfl⟩ | ⟨c, hc, rfl⟩ <;>
      obtain ⟨k, hk⟩ := List.mem_iff_getElem?.mp hc <;>
      obtain ⟨-, -, b, o, -, -, hb, ho, -⟩ := h.places hi hk
    · exact ⟨b, hb⟩
    · exact ⟨o, ho⟩
  obtain ⟨tuple, ht⟩ := exists_evalAll hall
  have hlen := length_evalAll ht
  have hbanks : (ofChoices choices).banks.length = shape.length := by
    rw [ofChoices, List.length_map, h.1]
  have hoffsets : (ofChoices choices).offsets.length = shape.length := by
    rw [ofChoices, List.length_map, h.1]
  refine ⟨tuple, ht, ?_, fun k hk => ?_⟩
  · rw [hlen, selectors, List.length_append]
    omega
  · have hkc : k < choices.length := h.1 ▸ hk
    have hc : choices[k]? = some choices[k] := List.getElem?_eq_getElem hkc
    obtain ⟨size, x, b, o, hs, hx, hb, ho, hp⟩ := h.places hi hc
    refine ⟨choices[k], size, x, b, o, hc, hs, hx, ?_, ?_, hp⟩
    · rw [getElem?_evalAll ht (e := choices[k].mode.bank choices[k].dim), hb]
      rw [selectors, List.getElem?_append_left (by omega), getElem?_banks_ofChoices, hc]
      rfl
    · rw [getElem?_evalAll ht (e := choices[k].mode.offset choices[k].dim), ho]
      rw [selectors, List.getElem?_append_right (by omega), hbanks, Nat.add_sub_cancel_left,
        getElem?_offsets_ofChoices, hc]
      rfl

end Layout

end Bankflow
