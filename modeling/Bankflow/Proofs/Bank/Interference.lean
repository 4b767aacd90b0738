import Bankflow.Proofs.Bank.InTurn

/-!
# Decisions do not interfere

The decision for an array, from its reads or from its writes under one pipelined loop, is made
from the shape of the array and from these sites alone (`Design.mem_decisionsAt`). It is the same
in two designs that agree in this, whatever else they hold and wherever the nest stands; and along
one dimension it is made from the size of the dimension and the indices used there.

Layouts do not enter. So a design that was banked is banked again to itself, with the same plan.
-/

namespace Bankflow

attribute [ext] Design

namespace Decision

variable {dec dec' : Decision}

/-- What a decision is along one dimension. -/
theorem getElem?_dims_of (array : Nat) (kind : AccessKind) (shape : List Nat)
    (sites : List Access) (j : Nat) : (Decision.of array kind shape sites).dims[j]? =
      (shape[j]?).map fun size => DimChoice.of (indicesAlong sites j) j size := by
  rw [Decision.of, getElem?_choicesFrom, Nat.zero_add]

/-- The choice for a dimension gives both of its selectors. -/
theorem selectors_eq {j : Nat} (h : dec.layout = .ofChoices dec.dims)
    (h' : dec'.layout = .ofChoices dec'.dims) (hdims : dec.dims[j]? = dec'.dims[j]?) :
    dec.layout.banks[j]? = dec'.layout.banks[j]? ∧
      dec.layout.offsets[j]? = dec'.layout.offsets[j]? := by
  rw [h, h', Layout.getElem?_banks_ofChoices, Layout.getElem?_banks_ofChoices,
    Layout.getElem?_offsets_ofChoices, Layout.getElem?_offsets_ofChoices, hdims]
  exact ⟨rfl, rfl⟩

end Decision

namespace Design

variable {d d' : Design}

/-- What the decision for an array is made from. -/
theorem mem_decisionsAt {k : Nat} {n : Nest} {m : Memory} {dec : Decision}
    (hn : d.nests[k]? = some n) (hm : d.memories[dec.array]? = some m) :
    dec ∈ d.decisionsAt k ↔ sitesOf dec.kind dec.array n.pipelinedAccesses ≠ [] ∧
      dec = .of dec.array dec.kind m.shape (sitesOf dec.kind dec.array n.pipelinedAccesses) := by
  rw [decisionsAt_eq hn, mem_nestDecisions, mem_arraysOf_iff_sitesOf]
  simp only [hm, Option.some.injEq, exists_eq_left']

/-- What it is made from along one dimension, which also fixes the selectors. -/
theorem dims_of_mem_decisionsAt {k : Nat} {n : Nest} {m : Memory} {dec : Decision}
    (hn : d.nests[k]? = some n) (hm : d.memories[dec.array]? = some m)
    (hdec : dec ∈ d.decisionsAt k) : dec.layout = .ofChoices dec.dims ∧
      ∀ j : Nat, dec.dims[j]? = (m.shape[j]?).map fun size =>
        .of (indicesAlong (sitesOf dec.kind dec.array n.pipelinedAccesses) j) j size := by
  have hof := ((mem_decisionsAt hn hm).mp hdec).2
  refine ⟨?_, fun j => ?_⟩
  · rw [hof]
    rfl
  · rw [← Decision.getElem?_dims_of dec.array dec.kind, ← hof]

theorem accesses_named_bank (h : ∀ n ∈ d.nests, ∀ a ∈ n.accesses, a.array < d.memories.length) :
    ∀ n ∈ d.bank.1.nests, ∀ a ∈ n.accesses, a.array < d.bank.1.memories.length := by
  rw [bank, nests_install, length_memories_install]
  exact h

/-- Banking a banked design changes nothing and decides the same. -/
theorem bank_bank (d : Design) : d.bank.1.bank = d.bank := by
  have hnests : d.bank.1.nests = d.nests := nests_install _ d
  have hplan : d.bank.1.plan = d.plan := by
    have hdecisions : d.bank.1.nestDecisions = d.nestDecisions :=
      funext (d.sameShapes_install _).nestDecisions_eq
    rw [plan, plan, hdecisions, hnests]
  refine Prod.ext (Design.ext ?_ (nests_install _ _) (graph_install _ _)) hplan
  refine List.ext_getElem? fun i => ?_
  rw [getElem?_bank, hplan, getElem?_bank, Option.map_map]
  congr 1
  funext m
  -- an array without a decision keeps its layout twice, one with a decision gets it twice
  cases d.plan.final? i with
  | none => rfl
  | some dec => rfl

/-- Decisions do not interfere. Take two designs, a nest of each, and an array of one shape in
both. If the accesses of one kind to the array under the pipelined loops are the same, so is
the decision, whatever else there is in the two designs; and there is one if there is such an
access. Take a decision of each design and one dimension: if it has the same size in both and
the same indices are used along it, then the choice for it is the same, with both of its
selectors. And banking a second time gives the same plan and leaves the design as it is. -/
theorem decisions_independent (d d' : Design)
    (hnamed : ∀ n ∈ d.nests, ∀ a ∈ n.accesses, a.array < d.memories.length)
    (hnamed' : ∀ n ∈ d'.nests, ∀ a ∈ n.accesses, a.array < d'.memories.length) :
    ∃ banked plan banked' plan',
      d.bank? = .ok (banked, plan) ∧ d'.bank? = .ok (banked', plan') ∧
      plan.applied.map (·.decision) = (List.range d.nests.length).flatMap d.decisionsAt ∧
      plan'.applied.map (·.decision) = (List.range d'.nests.length).flatMap d'.decisionsAt ∧
      (∀ (k k' : Nat) (n n' : Nest) (kind : AccessKind) (array : Nat) (m m' : Memory),
        d.nests[k]? = some n → d'.nests[k']? = some n' →
        d.memories[array]? = some m → d'.memories[array]? = some m' → m.shape = m'.shape →
        sitesOf kind array n.pipelinedAccesses = sitesOf kind array n'.pipelinedAccesses →
        (sitesOf kind array n.pipelinedAccesses ≠ [] →
          ∃ dec ∈ d.decisionsAt k, dec.kind = kind ∧ dec.array = array) ∧
        ∀ dec, dec.kind = kind → dec.array = array →
          (dec ∈ d.decisionsAt k ↔ dec ∈ d'.decisionsAt k')) ∧
      (∀ (k k' : Nat) (n n' : Nest) (dec dec' : Decision) (m m' : Memory) (j : Nat),
        d.nests[k]? = some n → d'.nests[k']? = some n' →
        dec ∈ d.decisionsAt k → dec' ∈ d'.decisionsAt k' →
        d.memories[dec.array]? = some m → d'.memories[dec'.array]? = some m' →
        m.shape[j]? = m'.shape[j]? →
        indicesAlong (sitesOf dec.kind dec.array n.pipelinedAccesses) j =
          indicesAlong (sitesOf dec'.kind dec'.array n'.pipelinedAccesses) j →
        dec.dims[j]? = dec'.dims[j]? ∧ dec.layout.banks[j]? = dec'.layout.banks[j]? ∧
          dec.layout.offsets[j]? = dec'.layout.offsets[j]?) ∧
      banked.bank? = .ok (banked, plan) := by
  refine ⟨d.bank.1, d.bank.2, d'.bank.1, d'.bank.2, bank?_eq_ok hnamed, bank?_eq_ok hnamed',
    d.map_decision_plan_eq_decisionsAt, d'.map_decision_plan_eq_decisionsAt, ?_, ?_, ?_⟩
  · intro k k' n n' kind array m m' hn hn' hm hm' hshape hsites
    refine ⟨fun hne => ?_, ?_⟩
    · refine ⟨.of array kind m.shape (sitesOf kind array n.pipelinedAccesses), ?_, rfl, rfl⟩
      exact (mem_decisionsAt hn hm).mpr ⟨hne, rfl⟩
    · rintro dec rfl rfl
      rw [mem_decisionsAt hn hm, mem_decisionsAt hn' hm', hsites, hshape]
  · intro k k' n n' dec dec' m m' j hn hn' hdec hdec' hm hm' hsize hindices
    obtain ⟨hlaid, hdims⟩ := dims_of_mem_decisionsAt hn hm hdec
    obtain ⟨hlaid', hdims'⟩ := dims_of_mem_decisionsAt hn' hm' hdec'
    have hsame : dec.dims[j]? = dec'.dims[j]? := by rw [hdims, hdims', hsize, hindices]
    exact ⟨hsame, Decision.selectors_eq hlaid hlaid' hsame⟩
  · rw [bank?_eq_ok (accesses_named_bank hnamed), bank_bank]

/-- The reads of `A` in the first nests are the same, though one design also writes it there,
goes on with other nests and has another array; so the reads have one decision, and for the
writes only one of the designs has any. -/
theorem thrice_neighbours_independent :
    ((∀ n ∈ thrice.nests, ∀ a ∈ n.accesses, a.array < thrice.memories.length) ∧
      ∀ n ∈ neighbours.nests, ∀ a ∈ n.accesses, a.array < neighbours.memories.length) ∧
    (∃ dec ∈ thrice.decisionsAt 0, dec ∈ neighbours.decisionsAt 0 ∧ dec.kind = .read ∧
      dec.array = 0) ∧
    (thrice.decisionsAt 0).length = 2 ∧ (neighbours.decisionsAt 0).length = 1 ∧
    ∃ banked plan, thrice.bank? = .ok (banked, plan) ∧ banked.bank? = .ok (banked, plan) := by
  have hthrice : ∀ n ∈ thrice.nests, ∀ a ∈ n.accesses, a.array < thrice.memories.length := by
    decide
  have hneighbours : ∀ n ∈ neighbours.nests, ∀ a ∈ n.accesses,
      a.array < neighbours.memories.length := by
    decide
  obtain ⟨banked, plan, _, _, hok, -, -, -, hsame, -, hagain⟩ :=
    decisions_independent thrice neighbours hthrice hneighbours
  obtain ⟨hexists, hiff⟩ := hsame 0 0 _ _ .read 0 _ _ rfl rfl rfl rfl rfl rfl
  obtain ⟨dec, hdec, hkind, harray⟩ := hexists (by decide)
  exact ⟨⟨hthrice, hneighbours⟩, ⟨dec, hdec, (hiff dec hkind harray).mp hdec, hkind, harray⟩,
    by decide, by decide, banked, plan, hok, hagain⟩

end Design

end Bankflow
