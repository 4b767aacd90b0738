import Bankflow.Loop.Nest
import Bankflow.Proofs.Loop.Places
import Mathlib.Data.List.Forall2

/-!
# Sites under the pipelined loop

The pipelined loop of a nest and the sites in it are said by places in the nest
(`collects_every_access_once`): the pipelined loop is the one whose place comes last, and the
sites of an array are the accesses at all places where the array is accessed, in program order.
-/

namespace Bankflow

/-! ## Ascending numbers -/

theorem mem_ascending {m : Nat} {l : List Nat} : m ∈ ascending l ↔ m ∈ l := mem_ordered

theorem pairwise_ascending (l : List Nat) : (ascending l).Pairwise (· < ·) := by
  have horder : StrictOrder fun m n : Nat => decide (m < n) := by
    constructor <;> grind
  exact (pairwise_ordered horder l).imp of_decide_eq_true

/-! ## Arrays and their sites -/

theorem mem_sitesOf {kind : AccessKind} {array : Nat} {as : List Access} {a : Access} :
    a ∈ sitesOf kind array as ↔ a ∈ as ∧ a.kind = kind ∧ a.array = array := by
  simp only [sitesOf, List.mem_filter, Bool.and_eq_true, decide_eq_true_eq]

/-- The arrays listed are those with a site. -/
theorem mem_arraysOf {kind : AccessKind} {array : Nat} {as : List Access} :
    array ∈ arraysOf kind as ↔ ∃ a ∈ as, a.kind = kind ∧ a.array = array := by
  simp only [arraysOf, mem_ascending, List.mem_map, List.mem_filter, decide_eq_true_eq, and_assoc]

theorem mem_arraysOf_iff_sitesOf {kind : AccessKind} {array : Nat} {as : List Access} :
    array ∈ arraysOf kind as ↔ sitesOf kind array as ≠ [] := by
  rw [mem_arraysOf, Ne, List.eq_nil_iff_forall_not_mem]
  simp only [mem_sitesOf, not_forall, not_not]

theorem pairwise_groupByArray (kind : AccessKind) (as : List Access) :
    ((groupByArray kind as).map (·.1)).Pairwise (· < ·) := by
  rw [groupByArray, List.map_map]
  exact (List.map_id _).symm ▸ pairwise_ascending _

theorem lookup_map_pair {β : Type} (f : Nat → β) (k : Nat) :
    ∀ l : List Nat, (l.map fun i => (i, f i)).lookup k = if k ∈ l then some (f k) else none
  | [] => rfl
  | i :: l => by
    rw [List.map_cons, List.lookup_cons, lookup_map_pair f k l]
    by_cases h : k = i
    · simp [h]
    · simp [h, beq_eq_false_iff_ne.mpr h]

/-- An array is looked up with its sites, if it has any. -/
theorem lookup_groupByArray (kind : AccessKind) (array : Nat) (as : List Access) :
    (groupByArray kind as).lookup array =
      if array ∈ arraysOf kind as then some (sitesOf kind array as) else none :=
  lookup_map_pair (fun i => sitesOf kind i as) array _

/-! ## Collecting by place -/

/-- The nest as a body of one loop. -/
def Nest.whole (n : Nest) : LoopBody := .loop n.head n.body .done

theorem Nest.pipelined?_eq_last? (n : Nest) : n.pipelined? = n.whole.last? LoopHead.pipeline := rfl

/-- The sites of an array with their places. -/
def sitePlaces (kind : AccessKind) (array : Nat) (body : LoopBody) : List (List Nat × Access) :=
  (body.placesOf Body.Item.access?).filter fun x => x.2.kind = kind && x.2.array = array

theorem mem_sitePlaces {kind : AccessKind} {array : Nat} {body : LoopBody} {p : List Nat}
    {a : Access} : (p, a) ∈ sitePlaces kind array body ↔
      body.at? p = some (.access a) ∧ a.kind = kind ∧ a.array = array := by
  simp only [sitePlaces, List.mem_filter, Body.mem_placesOf, Body.Item.access?_eq_some_iff,
    exists_eq_right, Bool.and_eq_true, decide_eq_true_eq]

theorem map_snd_sitePlaces (kind : AccessKind) (array : Nat) (body : LoopBody) :
    (sitePlaces kind array body).map (·.2) = sitesOf kind array body.accesses := by
  rw [sitesOf, body.accesses_eq_map_placesOf, List.filter_map]
  rfl

theorem mem_map_fst_sitePlaces {kind : AccessKind} {array : Nat} {body : LoopBody}
    {p : List Nat} : p ∈ (sitePlaces kind array body).map (·.1) ↔
      ∃ a, body.at? p = some (.access a) ∧ a.kind = kind ∧ a.array = array := by
  rw [List.mem_map]
  constructor
  · rintro ⟨x, hx, rfl⟩
    exact ⟨x.2, mem_sitePlaces.mp hx⟩
  · rintro ⟨a, ha⟩
    exact ⟨(p, a), mem_sitePlaces.mpr ha, rfl⟩

theorem mem_arraysOf_iff_sitePlaces {kind : AccessKind} {array : Nat} {body : LoopBody} :
    array ∈ arraysOf kind body.accesses ↔ (sitePlaces kind array body).map (·.1) ≠ [] := by
  rw [mem_arraysOf_iff_sitesOf, ← map_snd_sitePlaces, Ne, Ne, List.map_eq_nil_iff,
    List.map_eq_nil_iff]

/-- What is collected from a nest. The pipelined loop is missing exactly if no loop of the nest
is pipelined; else it is the pipelined loop whose place comes after those of all others, and no
loop in it is pipelined. For a loop's body, the table of either kind has an array at most once,
and only if it is accessed in that way somewhere below; its sites are then the accesses at all
these places, one for each and in program order. -/
theorem collects_every_access_once :
    (∀ n : Nest,
      (n.pipelined? = none ↔ ∀ place head inner,
        n.whole.at? place = some (.loop head inner) → head.pipeline = false) ∧
      ∀ head inner, n.pipelined? = some (head, inner) ↔
        ∃ place, n.whole.LastAt LoopHead.pipeline place head inner) ∧
    ∀ (body : LoopBody) (kind : AccessKind),
      ((groupByArray kind body.accesses).map (·.1)).Pairwise (· < ·) ∧
      ∀ array, ∃ (places : List (List Nat)) (sites : List Access),
        (∀ place, place ∈ places ↔
          ∃ a, body.at? place = some (.access a) ∧ a.kind = kind ∧ a.array = array) ∧
        places.Pairwise (List.Lex (· < ·)) ∧
        List.Forall₂ (fun place a => body.at? place = some (.access a)) places sites ∧
        ((groupByArray kind body.accesses).lookup array = none ↔ places = []) ∧
        (places ≠ [] → (groupByArray kind body.accesses).lookup array = some sites) := by
  refine ⟨fun n => ⟨?_, fun head inner => ?_⟩, fun body kind =>
    ⟨pairwise_groupByArray kind _, fun array => ?_⟩⟩
  · rw [n.pipelined?_eq_last?]
    exact Body.last?_eq_none_iff
  · rw [n.pipelined?_eq_last?]
    exact Body.last?_eq_some_iff_lastAt
  · refine ⟨(sitePlaces kind array body).map (·.1), sitesOf kind array body.accesses,
      fun place => mem_map_fst_sitePlaces, ?_, ?_, ?_, fun hne => ?_⟩
    · exact List.pairwise_map.mpr (body.pairwise_placesOf.filter _)
    · rw [← map_snd_sitePlaces, List.forall₂_map_left_iff, List.forall₂_map_right_iff,
        List.forall₂_same]
      exact fun x hx => (mem_sitePlaces.mp hx).1
    · rw [lookup_groupByArray, ite_eq_right_iff]
      simp only [reduceCtorEq, imp_false, mem_arraysOf_iff_sitePlaces, Ne, not_not]
    · rw [lookup_groupByArray, if_pos (mem_arraysOf_iff_sitePlaces.mpr hne)]

end Bankflow
