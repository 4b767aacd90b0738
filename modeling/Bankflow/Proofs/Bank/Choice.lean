import Bankflow.Proofs.Bank.Mode
import Mathlib.Algebra.Order.Floor.Div
import Mathlib.Data.Int.Interval

/-!
# Which mode is chosen

The distinct indices of a dimension are taken in the order in which they are first seen
(`ListsFirst.firstSeen_eq`), and what counts is the largest gap between two of them, an
earlier and a later one (`spread_le_iff`).

For indices at known distances this amounts to looking for holes. Numbers that are `n` in
all and distinct lie between their least and greatest one without a hole exactly if these
are `n - 1` apart (`consecutive_iff`), so the cyclic mode is chosen exactly for indices that
fill a run of positions (`DimChoice.cyclic_iff_consecutive`).
-/

namespace Bankflow

/-! ## Lists in a strict order -/

section Ordered

variable {α : Type} {r : α → α → Prop} {l l' : List α}

theorem nodup_of_pairwise (hasymm : ∀ a b, r a b → ¬r b a) (hl : l.Pairwise r) : l.Nodup := by
  refine hl.imp ?_
  rintro a _ h rfl
  exact hasymm a a h h

/-- A list in a strict order is fixed by its elements. -/
theorem eq_of_pairwise_of_mem_iff (hasymm : ∀ a b, r a b → ¬r b a) (hl : l.Pairwise r)
    (hl' : l'.Pairwise r) (hmem : ∀ a, a ∈ l ↔ a ∈ l') : l = l' := by
  have hperm : l.Perm l' :=
    (List.perm_ext_iff_of_nodup (nodup_of_pairwise hasymm hl) (nodup_of_pairwise hasymm hl')).mpr
      hmem
  exact hperm.eq_of_pairwise (fun a b _ _ hab hba => absurd hba (hasymm a b hab)) hl hl'

end Ordered

/-! ## Indices in the order in which they are seen -/

section FirstSeen

variable {α : Type} [DecidableEq α]

/-- The elements of a list, each once and by the place where it first occurs. -/
structure ListsFirst (seen all : List α) : Prop where
  mem_iff : ∀ a, a ∈ seen ↔ a ∈ all
  ordered : seen.Pairwise fun a b => all.idxOf a < all.idxOf b

theorem pairwise_idxOf_firstSeen :
    ∀ l : List α, (firstSeen l).Pairwise fun a b => l.idxOf a < l.idxOf b
  | [] => .nil
  | c :: l => by
    have hne : ∀ b ∈ (firstSeen l).filter (· ≠ c), c ≠ b := fun b hb =>
      Ne.symm (of_decide_eq_true (List.mem_filter.mp hb).2)
    rw [firstSeen, List.pairwise_cons]
    constructor
    · intro b hb
      rw [List.idxOf_cons_self, List.idxOf_cons_ne _ (hne b hb)]
      omega
    · refine ((pairwise_idxOf_firstSeen l).filter _).imp_of_mem fun ha hb h => ?_
      rw [List.idxOf_cons_ne _ (hne _ ha), List.idxOf_cons_ne _ (hne _ hb)]
      omega

theorem nodup_firstSeen (l : List α) : (firstSeen l).Nodup :=
  nodup_of_pairwise (fun _ _ => Nat.lt_asymm) (pairwise_idxOf_firstSeen l)

/-- The order in which elements are first seen is the only one by first places. -/
theorem ListsFirst.firstSeen_eq {seen all : List α} (h : ListsFirst seen all) :
    firstSeen all = seen := by
  refine eq_of_pairwise_of_mem_iff (fun _ _ => Nat.lt_asymm) (pairwise_idxOf_firstSeen all)
    h.ordered fun a => ?_
  rw [mem_firstSeen, h.mem_iff]

end FirstSeen

/-! ## The largest gap -/

theorem largest_le_iff {n : Nat} : ∀ {ns : List Nat}, largest ns ≤ n ↔ ∀ m ∈ ns, m ≤ n
  | [] => by simp [largest]
  | m :: ns => by rw [largest, Nat.max_le, List.forall_mem_cons, largest_le_iff]

theorem spread_le_iff {n : Nat} :
    ∀ {l : List Expr}, spread l ≤ n ↔ l.Pairwise fun a b => gap b a ≤ n
  | [] => by simp [spread]
  | a :: l => by
    rw [spread, Nat.max_le, List.pairwise_cons, largest_le_iff, List.forall_mem_map, spread_le_iff]

theorem spread_eq_zero_of_length_le {l : List Expr} (h : l.length ≤ 1) : spread l = 0 := by
  match l, h with
  | [], _ => rfl
  | [a], _ => rfl

/-- Of two elements of a list one comes before the other. -/
theorem pair_sublist_or {α : Type} {a b : α} (hne : a ≠ b) :
    ∀ {l : List α}, a ∈ l → b ∈ l → [a, b].Sublist l ∨ [b, a].Sublist l
  | c :: l, ha, hb => by
    rcases List.mem_cons.mp ha with rfl | ha'
    · have hb' := (List.mem_cons.mp hb).resolve_left hne.symm
      exact .inl ((List.singleton_sublist.mpr hb').cons_cons a)
    · rcases List.mem_cons.mp hb with rfl | hb'
      · exact .inr ((List.singleton_sublist.mpr ha').cons_cons b)
      · exact (pair_sublist_or hne ha' hb').imp (·.cons c) (·.cons c)

theorem gap_eq_of_difference? {a b : Expr} {k : Int}
    (h : (b.difference? a).map Int64.toInt = some k) : gap b a = k.natAbs := by
  obtain ⟨w, hw, rfl⟩ := Option.map_eq_some_iff.mp h
  rw [gap, hw]

/-! ## Indices at known distances -/

/-- Indices with an offset each: no two are the same, and the difference of a later and an
earlier index is known to be that of their offsets. -/
structure OffsetBy (c : Expr → Int) (seen : List Expr) : Prop where
  distinct : (seen.map c).Nodup
  known : seen.Pairwise fun a b => (b.difference? a).map Int64.toInt = some (c b - c a)

/-- The largest gap lies between the least and the greatest offset. -/
theorem OffsetBy.spread_eq {c : Expr → Int} {seen : List Expr} (h : OffsetBy c seen) {lo hi : Int}
    (hlo : IsLeast {x | x ∈ seen.map c} lo) (hhi : IsGreatest {x | x ∈ seen.map c} hi) :
    (spread seen : Int) = hi - lo := by
  have hle : lo ≤ hi := hhi.2 hlo.1
  have hbounds : ∀ a ∈ seen, lo ≤ c a ∧ c a ≤ hi := fun a ha =>
    ⟨hlo.2 (List.mem_map_of_mem ha), hhi.2 (List.mem_map_of_mem ha)⟩
  have hupper : spread seen ≤ (hi - lo).toNat := by
    refine spread_le_iff.mpr (h.known.imp_of_mem fun ha hb hab => ?_)
    have := hbounds _ ha
    have := hbounds _ hb
    rw [gap_eq_of_difference? hab]
    omega
  have hlower : hi - lo ≤ spread seen := by
    obtain ⟨a, ha, hca⟩ := List.mem_map.mp hlo.1
    obtain ⟨b, hb, hcb⟩ := List.mem_map.mp hhi.1
    by_cases hne : a = b
    · subst hne
      omega
    · rcases pair_sublist_or hne ha hb with hab | hba
      · have hgap := gap_le_spread hab
        rw [gap_eq_of_difference? (List.pairwise_iff_forall_sublist.mp h.known hab)] at hgap
        omega
      · have hgap := gap_le_spread hba
        rw [gap_eq_of_difference? (List.pairwise_iff_forall_sublist.mp h.known hba)] at hgap
        omega
  omega

/-- Integers that fill a run of positions, in any order. -/
def Consecutive (offsets : List Int) : Prop :=
  ∃ first, ∀ x, x ∈ offsets ↔ first ≤ x ∧ x < first + offsets.length

section Offsets

variable {offsets : List Int} {lo hi : Int}

/-- Distinct integers need at least as many positions, and fill those between the least and
the greatest of them exactly if there are as many of them. -/
theorem consecutive_iff (hdistinct : offsets.Nodup) (hlo : IsLeast {x | x ∈ offsets} lo)
    (hhi : IsGreatest {x | x ∈ offsets} hi) :
    (offsets.length : Int) ≤ hi - lo + 1 ∧
      (Consecutive offsets ↔ (offsets.length : Int) = hi - lo + 1) := by
  have hle : lo ≤ hi := hhi.2 hlo.1
  have hcard : offsets.toFinset.card = offsets.length := List.toFinset_card_of_nodup hdistinct
  have hsubset : offsets.toFinset ⊆ Finset.Icc lo hi := by
    intro x hx
    have hx := List.mem_toFinset.mp hx
    exact Finset.mem_Icc.mpr ⟨hlo.2 hx, hhi.2 hx⟩
  have hlength : (offsets.length : Int) ≤ hi - lo + 1 := by
    have hcards := Finset.card_le_card hsubset
    rw [hcard, Int.card_Icc] at hcards
    omega
  refine ⟨hlength, ?_, fun heq => ?_⟩
  · rintro ⟨first, hfirst⟩
    have hlo' := (hfirst lo).mp hlo.1
    have hhi' := (hfirst hi).mp hhi.1
    omega
  · have hall : offsets.toFinset = Finset.Icc lo hi := by
      refine Finset.eq_of_subset_of_card_le hsubset ?_
      rw [hcard, Int.card_Icc]
      omega
    refine ⟨lo, fun x => ?_⟩
    rw [← List.mem_toFinset, hall, Finset.mem_Icc]
    omega

theorem exists_bounds (hne : offsets ≠ []) :
    ∃ lo hi, IsLeast {x | x ∈ offsets} lo ∧ IsGreatest {x | x ∈ offsets} hi := by
  have hnonempty : offsets.toFinset.Nonempty := List.toFinset_nonempty_iff _ |>.mpr hne
  have hcoe : (offsets.toFinset : Set Int) = {x | x ∈ offsets} := List.coe_toFinset offsets
  exact ⟨_, _, hcoe ▸ offsets.toFinset.isLeast_min' hnonempty,
    hcoe ▸ offsets.toFinset.isGreatest_max' hnonempty⟩

end Offsets

/-- The offsets span at least as many positions as there are indices, and no more exactly if
they leave no hole. -/
theorem OffsetBy.length_le {c : Expr → Int} {seen : List Expr} (h : OffsetBy c seen)
    (hne : seen ≠ []) :
    seen.length ≤ spread seen + 1 ∧
      (spread seen + 1 = seen.length ↔ Consecutive (seen.map c)) := by
  obtain ⟨lo, hi, hlo, hhi⟩ := exists_bounds (List.map_eq_nil_iff.not.mpr hne)
  have hspread := h.spread_eq hlo hhi
  obtain ⟨hle, hconsecutive⟩ := consecutive_iff h.distinct hlo hhi
  rw [List.length_map] at hle hconsecutive
  rw [hconsecutive]
  omega

namespace DimChoice

/-- The mode by the number of indices and whether they leave holes. -/
theorem modeFor_of_dense {n gap : Nat} (size : Nat) {dense : Prop} (hfew : n ≤ 1 → gap = 0)
    (hmany : 2 ≤ n → n ≤ gap + 1 ∧ (gap + 1 = n ↔ dense)) :
    (n ≤ 1 ∧ modeFor n (gap + 1) size = .single) ∨
      (2 ≤ n ∧ dense ∧ modeFor n (gap + 1) size = .cyclic n) ∨
      (2 ≤ n ∧ ¬dense ∧ modeFor n (gap + 1) size = .block n ((size + n - 1) / n)) := by
  unfold modeFor
  by_cases hn : n ≤ 1
  · exact .inl ⟨hn, if_pos (by rw [hfew hn])⟩
  · obtain ⟨hle, hdense⟩ := hmany (by omega)
    rw [if_neg (by omega)]
    by_cases hd : dense
    · have heq := hdense.mpr hd
      rw [if_pos (by omega), heq]
      exact .inr (.inl ⟨by omega, hd, rfl⟩)
    · have hneq := hdense.not.mpr hd
      rw [if_neg (by omega)]
      exact .inr (.inr ⟨by omega, hd, rfl⟩)

/-- The choice from indices at known distances. The largest gap is the distance from the
least to the greatest offset, and the mode is cyclic exactly for two or more indices without
a hole between them. There are never more banks than distinct indices, unless there are no
indices at all: one bank is always needed. -/
theorem cyclic_iff_consecutive {indices seen : List Expr} {c : Expr → Int}
    (hseen : ListsFirst seen indices) (hoffsets : OffsetBy c seen) (dim size : Nat) :
    (DimChoice.of indices dim size).dim = dim ∧
    (DimChoice.of indices dim size).distinct = seen.length ∧
    (seen.length ≤ 1 → (DimChoice.of indices dim size).spread = 0) ∧
    (∀ lo hi, IsLeast {x | x ∈ seen.map c} lo → IsGreatest {x | x ∈ seen.map c} hi →
      ((DimChoice.of indices dim size).spread : Int) = hi - lo) ∧
    ((DimChoice.of indices dim size).mode = .single ↔ seen.length ≤ 1) ∧
    ((DimChoice.of indices dim size).mode = .cyclic seen.length ↔
      2 ≤ seen.length ∧ Consecutive (seen.map c)) ∧
    ((DimChoice.of indices dim size).mode = .block seen.length (size ⌈/⌉ seen.length) ↔
      2 ≤ seen.length ∧ ¬Consecutive (seen.map c)) ∧
    (DimChoice.of indices dim size).mode.banks ≤ max 1 seen.length := by
  have hof : DimChoice.of indices dim size =
      ⟨dim, seen.length, Bankflow.spread seen,
        modeFor seen.length (Bankflow.spread seen + 1) size⟩ := by
    rw [DimChoice.of, hseen.firstSeen_eq]
  rw [hof, Nat.ceilDiv_eq_add_pred_div]
  refine ⟨rfl, rfl, spread_eq_zero_of_length_le, fun lo hi => hoffsets.spread_eq, ?_⟩
  have hmany : 2 ≤ seen.length → _ := fun h =>
    hoffsets.length_le (List.ne_nil_of_length_pos (by omega))
  rcases modeFor_of_dense size spread_eq_zero_of_length_le hmany with
    ⟨hn, hmode⟩ | ⟨hn, hd, hmode⟩ | ⟨hn, hd, hmode⟩
  · have : ¬2 ≤ seen.length := by omega
    simp [hmode, hn, this, Mode.banks]
  · have : ¬seen.length ≤ 1 := by omega
    simp [hmode, hn, hd, this, Mode.banks]
  · have : ¬seen.length ≤ 1 := by omega
    simp [hmode, hn, hd, this, Mode.banks]

/-- Without indices there is one bank, which is more than none. -/
theorem banks_of_no_indices :
    ListsFirst ([] : List Expr) [] ∧ OffsetBy (fun _ => 0) [] ∧
      ¬(DimChoice.of [] 0 8).mode.banks ≤ ([] : List Expr).length :=
  ⟨⟨fun _ => Iff.rfl, .nil⟩, ⟨.nil, .nil⟩, by decide⟩

/-- Four neighbours of a position, out of order and one of them twice. -/
def shuffledWindow : List Expr :=
  [.dim 0, .dim 0 + .const 1, .dim 0 + .const 3, .dim 0 + .const 2, .dim 0 + .const 1]

def windowOffset (e : Expr) : Int := ((e.difference? (.dim 0)).map Int64.toInt).getD 0

theorem shuffledWindow_cyclic :
    ListsFirst (shuffledWindow.take 4) shuffledWindow ∧
      OffsetBy windowOffset (shuffledWindow.take 4) ∧
      ((DimChoice.of shuffledWindow 0 10).spread : Int) = 3 ∧
      (DimChoice.of shuffledWindow 0 10).mode = .cyclic 4 := by
  have hseen : ListsFirst (shuffledWindow.take 4) shuffledWindow :=
    ⟨fun a => by grind [shuffledWindow], by decide⟩
  have hoffsets : OffsetBy windowOffset (shuffledWindow.take 4) := ⟨by decide, by decide⟩
  have hvalues : (shuffledWindow.take 4).map windowOffset = [0, 1, 3, 2] := by decide
  obtain ⟨-, -, -, hspread, -, hcyclic, -, -⟩ := cyclic_iff_consecutive hseen hoffsets 0 10
  rw [hvalues] at hspread hcyclic
  refine ⟨hseen, hoffsets, hspread 0 3 ?_ ?_, hcyclic.mpr ⟨by decide, 0, fun x => ?_⟩⟩
  · simp [IsLeast, lowerBounds]
  · simp [IsGreatest, upperBounds]
  · simp only [List.mem_cons, List.not_mem_nil, or_false, List.length_cons, List.length_nil]
    omega

end DimChoice

end Bankflow
