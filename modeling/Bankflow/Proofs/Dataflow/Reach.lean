import Bankflow.Proofs.Dataflow.Graph
import Mathlib.Data.Finset.Card
import Mathlib.Data.Finset.Range
import Mathlib.Logic.Relation
import Mathlib.Order.Bounds.Basic

/-!
# Walks and cycles

Data flows along `Graph.Feeds`. A node is `Free` if it reaches no node on a cycle and,
unless violations are ignored, no blocked one. Each step from a free node leaves fewer
nodes to be reached (`Free.reachCount_lt`), which bounds the walks from it
(`Free.walk_lt`) and is what induction over free nodes goes by.
-/

namespace Bankflow.Dataflow.Graph

open Relation (ReflTransGen TransGen)

variable {g : Graph} {options : Options} {n m k : Nat}

/-- Node `n` leads to node `m` in any number of steps. -/
abbrev Reaches (g : Graph) : Nat → Nat → Prop := ReflTransGen g.Feeds

/-- Node `n` leads back to itself. -/
def OnCycle (g : Graph) (n : Nat) : Prop := TransGen g.Feeds n n

/-- A walk of `k` steps starts at node `n`. -/
inductive Walk (g : Graph) : Nat → Nat → Prop where
  | stay (n : Nat) : Walk g n 0
  | step {n m k : Nat} (h : g.Feeds n m) (w : Walk g m k) : Walk g n (k + 1)

/-- A node from which no walk reaches a cycle nor, unless violations are ignored, a
blocked node. -/
def Free (g : Graph) (options : Options) (n : Nat) : Prop :=
  ∀ m, g.Reaches n m → ¬ g.OnCycle m ∧ (options.ignoreViolations = false → ¬ g.Blocked m)

theorem Feeds.lt_left (h : g.Feeds n m) : n < g.nodes.length :=
  let ⟨_, hw, _⟩ := h
  hw.lt

theorem Feeds.lt_right (h : g.Feeds n m) : m < g.nodes.length :=
  let ⟨_, _, hr⟩ := h
  hr.lt

/-- What a free node feeds is free. -/
theorem Free.of_feeds (h : g.Free options n) (hnm : g.Feeds n m) : g.Free options m :=
  fun k hk => h k (hk.head hnm)

/-- A node that is not blocked is free once all nodes that it feeds are. A cycle
through it would be a cycle through one of these. -/
theorem free_of_forall_feeds (hall : ∀ m, g.Feeds n m → g.Free options m)
    (hb : options.ignoreViolations = false → ¬ g.Blocked n) : g.Free options n := by
  intro k hk
  rcases hk.cases_head with rfl | ⟨m, hnm, hmk⟩
  · refine ⟨fun hcycle => ?_, hb⟩
    obtain ⟨m, hnm, hmn⟩ := TransGen.head'_iff.mp hcycle
    exact (hall m hnm n hmn).1 hcycle
  · exact hall m hnm k hmk

/-! ## Counting what can be reached -/

open Classical in
/-- How many nodes a node leads to. -/
noncomputable def reachCount (g : Graph) (n : Nat) : Nat :=
  ((Finset.range g.nodes.length).filter fun m => g.Reaches n m).card

theorem reachCount_le (g : Graph) (n : Nat) : g.reachCount n ≤ g.nodes.length := by
  classical
  exact (Finset.card_filter_le _ _).trans (Finset.card_range _).le

theorem Free.reachCount_lt (h : g.Free options n) (hnm : g.Feeds n m) :
    g.reachCount m < g.reachCount n := by
  classical
  refine Finset.card_lt_card (Finset.ssubset_iff_of_subset ?_ |>.mpr ⟨n, ?_, ?_⟩)
  · intro k hk
    rw [Finset.mem_filter] at hk ⊢
    exact ⟨hk.1, hk.2.head hnm⟩
  · rw [Finset.mem_filter, Finset.mem_range]
    exact ⟨hnm.lt_left, .refl⟩
  · -- `m` does not lead back to `n`, which would close a cycle
    rw [Finset.mem_filter]
    exact fun hn => (h n .refl).1 (TransGen.head'_iff.mpr ⟨m, hnm, hn.2⟩)

theorem reachCount_pos (hn : n < g.nodes.length) : 0 < g.reachCount n := by
  classical
  refine Finset.card_pos.mpr ⟨n, ?_⟩
  rw [Finset.mem_filter, Finset.mem_range]
  exact ⟨hn, .refl⟩

/-- Walks from a free node visit no node twice. -/
theorem Free.walk_lt_reachCount (h : g.Free options n) (hn : n < g.nodes.length)
    (w : g.Walk n k) : k < g.reachCount n := by
  induction w with
  | stay n => exact reachCount_pos hn
  | step hnm w ih =>
    have hlt := h.reachCount_lt hnm
    have := ih (h.of_feeds hnm) hnm.lt_right
    omega

theorem Free.walk_lt (h : g.Free options n) (hn : n < g.nodes.length) (w : g.Walk n k) :
    k < g.nodes.length :=
  (h.walk_lt_reachCount hn w).trans_le (g.reachCount_le n)

end Bankflow.Dataflow.Graph
