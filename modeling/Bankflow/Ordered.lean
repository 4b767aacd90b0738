/-!
# Ordered sets

A set is kept as the list of its elements in a strict order, each once. `ordered` makes one
from any list; it has the elements of the list (`mem_ordered`), each before all that are
greater (`pairwise_ordered`).
-/

namespace Bankflow

variable {α : Type} [DecidableEq α] {lt : α → α → Bool} {a b : α} {l : List α}

/-- An element put into an ordered list, unless it is there. -/
def insertOrdered (lt : α → α → Bool) (a : α) : List α → List α
  | [] => [a]
  | b :: rest =>
    if lt a b then a :: b :: rest
    else if a = b then b :: rest
    else b :: insertOrdered lt a rest

/-- The distinct elements of a list, in order. -/
def ordered (lt : α → α → Bool) : List α → List α
  | [] => []
  | a :: rest => insertOrdered lt a (ordered lt rest)

theorem mem_insertOrdered : b ∈ insertOrdered lt a l ↔ b = a ∨ b ∈ l := by
  induction l with
  | nil => simp [insertOrdered]
  | cons c l ih =>
    rw [insertOrdered]
    split
    · rw [List.mem_cons]
    · split
      · next h => simp [h]
      · rw [List.mem_cons, List.mem_cons, ih]
        exact or_left_comm

theorem mem_ordered : a ∈ ordered lt l ↔ a ∈ l := by
  induction l with
  | nil => rfl
  | cons b l ih => rw [ordered, mem_insertOrdered, List.mem_cons, ih]

/-- Elements can be compared with each other, and smaller ones come before greater ones. -/
structure StrictOrder (lt : α → α → Bool) : Prop where
  trans {a b c : α} : lt a b → lt b c → lt a c
  total {a b : α} : ¬ lt a b → a ≠ b → lt b a

theorem pairwise_insertOrdered (h : StrictOrder lt) (hl : l.Pairwise (lt · ·)) :
    (insertOrdered lt a l).Pairwise (lt · ·) := by
  induction l with
  | nil => exact List.pairwise_singleton _ _
  | cons b l ih =>
    obtain ⟨hb, hl'⟩ := List.pairwise_cons.mp hl
    rw [insertOrdered]
    split
    · next hlt =>
      refine List.pairwise_cons.mpr ⟨fun c hc => ?_, hl⟩
      rcases List.mem_cons.mp hc with rfl | hc
      · exact hlt
      · exact h.trans hlt (hb c hc)
    · next hlt =>
      split
      · exact hl
      · next hne =>
        refine List.pairwise_cons.mpr ⟨fun c hc => ?_, ih hl'⟩
        rcases mem_insertOrdered.mp hc with rfl | hc
        · exact h.total hlt hne
        · exact hb c hc

theorem pairwise_ordered (h : StrictOrder lt) (l : List α) :
    (ordered lt l).Pairwise (lt · ·) := by
  induction l with
  | nil => exact .nil
  | cons a l ih => exact pairwise_insertOrdered h ih

end Bankflow
