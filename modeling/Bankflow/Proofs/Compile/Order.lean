import Bankflow.Compile.Pass
import Mathlib.Logic.Relation

/-!
# The order of passes

A list of passes is `Supplied` if each pass comes after its inputs. The passes required
for some others are supplied (`supplied_required`), are listed once
(`nodup_required`), and are those that were asked for with all that they need
(`mem_required_iff`). Asking for more only adds passes at the end
(`isPrefix_required_append`).
-/

namespace Bankflow.Pass

open Relation (ReflTransGen)

/-- Each pass of a list has its inputs in `before` or earlier in the list. -/
def Supplied (before : List Pass) : List Pass → Prop
  | [] => True
  | p :: ps => p.inputs ⊆ before ∧ Supplied (before ++ [p]) ps

theorem Supplied.mono :
    ∀ {ps before before' : List Pass}, Supplied before ps → before ⊆ before' → Supplied before' ps
  | [], _, _, _, _ => trivial
  | p :: ps, before, before', h, hsub => by
    refine ⟨fun q hq => hsub (h.1 hq), h.2.mono fun q hq => ?_⟩
    rcases List.mem_append.mp hq with hq | hq
    · exact List.mem_append_left _ (hsub hq)
    · exact List.mem_append_right _ hq

theorem supplied_append : ∀ {ps before qs : List Pass},
    Supplied before (ps ++ qs) ↔ Supplied before ps ∧ Supplied (before ++ ps) qs
  | [], before, qs => by
    rw [List.nil_append, List.append_nil, Supplied, true_and]
  | p :: ps, before, qs => by
    rw [List.cons_append, Supplied, Supplied, supplied_append, and_assoc, List.append_assoc,
      List.singleton_append]

/-- A pass comes after its inputs. -/
theorem Supplied.inputs_subset {before left right : List Pass} {p : Pass}
    (h : Supplied before (left ++ p :: right)) : p.inputs ⊆ before ++ left :=
  (supplied_append.mp h).2.1

theorem Supplied.inputs_subset_of_mem {ps : List Pass} {p : Pass} (h : Supplied [] ps)
    (hp : p ∈ ps) : p.inputs ⊆ ps := by
  obtain ⟨left, right, rfl⟩ := List.append_of_mem hp
  exact List.Subset.trans h.inputs_subset (List.subset_append_left left _)

/-! ## Chains -/

/-- A pass needs itself, its inputs, and what these need. -/
abbrev Needs : Pass → Pass → Prop := ReflTransGen fun p q => q ∈ p.inputs

theorem chain_eq (p : Pass) : p.chain = p.inputs.flatMap chain ++ [p] := by
  rw [chain, List.flatMap_subtype, List.unattach_attach]
  intro q hq
  rfl

theorem mem_chain_self (p : Pass) : p ∈ p.chain := by
  rw [chain_eq]
  exact List.mem_append_right _ List.mem_cons_self

theorem mem_chain_iff {p q : Pass} : q ∈ p.chain ↔ p.Needs q := by
  constructor
  · induction p using chain.induct with
    | case1 p ih =>
      intro hq
      rw [chain_eq, List.mem_append, List.mem_singleton] at hq
      rcases hq with hq | rfl
      · obtain ⟨r, hr, hq⟩ := List.mem_flatMap.mp hq
        exact .head hr (ih ⟨r, hr⟩ hq)
      · exact .refl
  · intro h
    induction h using ReflTransGen.head_induction_on with
    | refl => exact mem_chain_self q
    | head hr _ ih =>
      rw [chain_eq]
      exact List.mem_append_left _ (List.mem_flatMap.mpr ⟨_, hr, ih⟩)

theorem supplied_flatMap_chain : ∀ {ps : List Pass},
    (∀ p ∈ ps, ∀ before, Supplied before p.chain) → ∀ before, Supplied before (ps.flatMap chain)
  | [], _, _ => trivial
  | p :: ps, h, before => by
    rw [List.flatMap_cons, supplied_append]
    exact ⟨h p List.mem_cons_self before,
      supplied_flatMap_chain (fun q hq => h q (List.mem_cons_of_mem p hq)) _⟩

/-- A chain needs nothing before it. -/
theorem supplied_chain (p : Pass) : ∀ before, Supplied before p.chain := by
  induction p using chain.induct with
  | case1 p ih =>
    intro before
    rw [chain_eq, supplied_append]
    refine ⟨supplied_flatMap_chain (fun q hq => ih ⟨q, hq⟩) before, fun q hq => ?_, trivial⟩
    exact List.mem_append_right _ (List.mem_flatMap.mpr ⟨q, hq, mem_chain_self q⟩)

/-! ## Required passes -/

theorem mem_addNew {p : Pass} :
    ∀ {ps before : List Pass}, p ∈ addNew before ps ↔ p ∈ before ∨ p ∈ ps
  | [], before => by
    rw [addNew, or_iff_left List.not_mem_nil]
  | q :: ps, before => by
    rw [addNew, List.mem_cons]
    split
    · next hq =>
      rw [mem_addNew]
      constructor
      · exact fun h => h.imp_right .inr
      · rintro (h | rfl | h)
        · exact .inl h
        · exact .inl hq
        · exact .inr h
    · rw [mem_addNew, List.mem_append, List.mem_singleton, or_assoc]

theorem nodup_addNew :
    ∀ {ps before : List Pass}, before.Nodup → (addNew before ps).Nodup
  | [], _, h => h
  | p :: ps, before, h => by
    rw [addNew]
    split
    · exact nodup_addNew h
    · next hp =>
      refine nodup_addNew (List.nodup_append.mpr ⟨h, List.pairwise_singleton _ p, ?_⟩)
      intro a ha b hb
      rw [List.mem_singleton.mp hb]
      exact fun hab => hp (hab ▸ ha)

theorem supplied_addNew :
    ∀ {ps before : List Pass}, Supplied [] before → Supplied before ps →
      Supplied [] (addNew before ps)
  | [], _, h, _ => h
  | p :: ps, before, h, hps => by
    rw [addNew]
    split
    · next hp =>
      refine supplied_addNew h (hps.2.mono fun q hq => ?_)
      rcases List.mem_append.mp hq with hq | hq
      · exact hq
      · rwa [List.mem_singleton.mp hq]
    · exact supplied_addNew (supplied_append.mpr ⟨h, hps.1, trivial⟩) hps.2

theorem isPrefix_addNew : ∀ (ps before : List Pass), before <+: addNew before ps
  | [], _ => List.prefix_rfl
  | p :: ps, before => by
    rw [addNew]
    split
    · exact isPrefix_addNew ps before
    · exact (List.prefix_append before [p]).trans (isPrefix_addNew ps (before ++ [p]))

theorem addNew_append : ∀ (ps qs before : List Pass),
    addNew before (ps ++ qs) = addNew (addNew before ps) qs
  | [], _, _ => rfl
  | p :: ps, qs, before => by
    rw [List.cons_append, addNew, addNew]
    split
    · exact addNew_append ps qs before
    · exact addNew_append ps qs (before ++ [p])

/-- What more passes require comes after what fewer of them do. -/
theorem isPrefix_required_append (ps qs : List Pass) : required ps <+: required (ps ++ qs) := by
  rw [required, required, List.flatMap_append, addNew_append]
  exact isPrefix_addNew _ _

theorem mem_required_iff {p : Pass} {terminals : List Pass} :
    p ∈ required terminals ↔ ∃ t ∈ terminals, t.Needs p := by
  rw [required, mem_addNew, or_iff_right List.not_mem_nil, List.mem_flatMap]
  simp only [mem_chain_iff]

theorem mem_required {p : Pass} {terminals : List Pass} (h : p ∈ terminals) :
    p ∈ required terminals :=
  mem_addNew.mpr (.inr (List.mem_flatMap.mpr ⟨p, h, mem_chain_self p⟩))

/-- The legality check comes with the schedule that it checks. -/
theorem schedule_mem_required {terminals : List Pass} (h : legality ∈ terminals) :
    schedule ∈ required terminals ∧ legality ∈ required terminals :=
  ⟨mem_required_iff.mpr ⟨legality, h, .single List.mem_cons_self⟩, mem_required h⟩

theorem nodup_required (terminals : List Pass) : (required terminals).Nodup :=
  nodup_addNew List.nodup_nil

theorem supplied_required (terminals : List Pass) : Supplied [] (required terminals) :=
  supplied_addNew trivial (supplied_flatMap_chain (fun p _ => supplied_chain p) [])

/-- Only resolving needs nothing. -/
theorem eq_resolve_of_inputs_eq_nil {p : Pass} (h : p.inputs = []) : p = resolve := by
  cases p with
  | resolve => rfl
  | bank | schedule | legality => cases h

/-- Required passes start with the one that needs no other. -/
theorem exists_required_eq {terminals : List Pass} (h : terminals ≠ []) :
    ∃ rest, required terminals = resolve :: rest := by
  obtain ⟨p, hp⟩ := List.exists_mem_of_ne_nil terminals h
  have hmem := mem_required hp
  have hsupplied := supplied_required terminals
  cases hreq : required terminals with
  | nil =>
    rw [hreq] at hmem
    exact absurd hmem List.not_mem_nil
  | cons q rest =>
    rw [hreq] at hsupplied
    have hq : q.inputs = [] := List.eq_nil_of_subset_nil hsupplied.1
    exact ⟨rest, by rw [eq_resolve_of_inputs_eq_nil hq]⟩

end Bankflow.Pass
