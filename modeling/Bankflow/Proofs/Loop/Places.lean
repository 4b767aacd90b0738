import Bankflow.Loop.Body
import Mathlib.Data.List.Lex

/-!
# Places in a loop body

A place is a list of numbers: which item of a body, then which item of that loop's body, and
so on down to an access or a loop (`Body.at?`). Program order is the lexicographic order of
places: a loop comes before what it contains, and all of that before what follows the loop.

`Body.places` lists all that stands in a body with its place. The list is complete
(`Body.mem_places`) and in order (`Body.pairwise_places`), and `accesses` and `last?` are read
off it: the accesses are those in the list (`Body.accesses_eq_map_placesOf`), and the last loop
of some kind is the last such loop in it (`Body.last?_eq_map_getLast?`).

From this, `last?` is said without a list: it finds the loop of that kind whose place comes
after the places of all others, and which has none of them in it
(`Body.last?_eq_some_iff_lastAt`).
-/

namespace Bankflow

namespace Body

variable {η α : Type}

/-- What stands at a place of a body. -/
inductive Item (η α : Type) where
  | access (a : α)
  | loop (head : η) (inner : Body η α)

namespace Item

def access? : Item η α → Option α
  | access a => some a
  | loop _ _ => none

def loop? : Item η α → Option (η × Body η α)
  | access _ => none
  | loop h inner => some (h, inner)

@[simp] theorem access?_access (a : α) : (access a : Item η α).access? = some a := rfl

@[simp] theorem access?_loop (h : η) (inner : Body η α) : (loop h inner).access? = none := rfl

@[simp] theorem loop?_access (a : α) : (access a : Item η α).loop? = none := rfl

@[simp] theorem loop?_loop (h : η) (inner : Body η α) : (loop h inner).loop? = some (h, inner) :=
  rfl

theorem access?_eq_some_iff {x : Item η α} {a : α} : x.access? = some a ↔ x = access a := by
  cases x <;> simp

theorem loop?_eq_some_iff {x : Item η α} {l : η × Body η α} :
    x.loop? = some l ↔ x = loop l.1 l.2 := by
  cases x <;> simp [Prod.ext_iff, eq_comm]

end Item

/-- The accesses and loops of a body, those in its loops left out. -/
def items : Body η α → List (Item η α)
  | done => []
  | access a rest => .access a :: rest.items
  | loop h inner rest => .loop h inner :: rest.items

/-- What stands at a place. -/
def at? (b : Body η α) : List Nat → Option (Item η α)
  | [] => none
  | [i] => b.items[i]?
  | i :: j :: p => do
    let x ← b.items[i]?
    let l ← x.loop?
    l.2.at? (j :: p)

/-- All that stands in a body with its place, the items of the body numbered from `i` on. -/
def placesFrom (i : Nat) : Body η α → List (List Nat × Item η α)
  | done => []
  | access a rest => ([i], .access a) :: rest.placesFrom (i + 1)
  | loop h inner rest =>
    ([i], .loop h inner) ::
      ((inner.placesFrom 0).map fun x => (i :: x.1, x.2)) ++ rest.placesFrom (i + 1)

/-- All that stands in a body with its place, in program order. -/
def places (b : Body η α) : List (List Nat × Item η α) := b.placesFrom 0

/-! ## Reading a place -/

@[simp] theorem at?_nil (b : Body η α) : b.at? [] = none := rfl

@[simp] theorem at?_done : ∀ p, (done : Body η α).at? p = none
  | [] => rfl
  | [_] => rfl
  | _ :: _ :: _ => rfl

/-- Past its first item a body is read like the rest. -/
theorem at?_succ {b rest : Body η α} {x : Item η α} (h : b.items = x :: rest.items) (i : Nat) :
    ∀ p, b.at? ((i + 1) :: p) = rest.at? (i :: p)
  | [] => by rw [at?, at?, h, List.getElem?_cons_succ]
  | j :: p => by rw [at?, at?, h, List.getElem?_cons_succ]

theorem at?_access_zero {a : α} {rest : Body η α} :
    ∀ {p : List Nat} {x : Item η α},
      (access a rest).at? (0 :: p) = some x ↔ p = [] ∧ x = .access a
  | [], x => by simp [at?, items, eq_comm]
  | j :: p, x => by simp [at?, items]

theorem at?_loop_zero {h : η} {inner rest : Body η α} :
    ∀ {p : List Nat} {x : Item η α}, (loop h inner rest).at? (0 :: p) = some x ↔
      p = [] ∧ x = .loop h inner ∨ inner.at? p = some x
  | [], x => by simp [at?, items, eq_comm]
  | j :: p, x => by simp [at?, items]

/-- A loop's body is read at the places that go on from the loop's. -/
theorem at?_append {h : η} {inner : Body η α} {q : List Nat} (hq : q ≠ []) :
    ∀ {p : List Nat} {b : Body η α}, b.at? p = some (.loop h inner) → b.at? (p ++ q) = inner.at? q
  | [], _, hp => by simp at hp
  | [i], b, hp => by
    obtain ⟨j, q, rfl⟩ := List.exists_cons_of_ne_nil hq
    rw [at?] at hp
    simp [at?, hp]
  | i :: j :: p, b, hp => by
    simp only [at?, Option.bind_eq_bind, Option.bind_eq_some_iff] at hp
    obtain ⟨x, hx, l, hl, hp⟩ := hp
    have ih := at?_append hq hp
    simp only [List.cons_append] at ih
    simp only [List.cons_append, at?, hx, hl, Option.bind_eq_bind, Option.bind_some, ih]

/-! ## The list of places -/

theorem exists_of_mem_placesFrom {x : List Nat × Item η α} :
    ∀ {b : Body η α} {i : Nat}, x ∈ b.placesFrom i → ∃ j p, x.1 = (i + j) :: p
  | .access a rest, i, h => by
    rw [placesFrom, List.mem_cons] at h
    rcases h with rfl | h
    · exact ⟨0, [], rfl⟩
    · obtain ⟨j, p, hp⟩ := exists_of_mem_placesFrom h
      exact ⟨j + 1, p, by rw [hp]; congr 1; omega⟩
  | .loop head inner rest, i, h => by
    rw [placesFrom, List.cons_append, List.mem_cons, List.mem_append, List.mem_map] at h
    rcases h with rfl | ⟨y, -, rfl⟩ | h
    · exact ⟨0, [], rfl⟩
    · exact ⟨0, y.1, rfl⟩
    · obtain ⟨j, p, hp⟩ := exists_of_mem_placesFrom h
      exact ⟨j + 1, p, by rw [hp]; congr 1; omega⟩

theorem nil_not_mem_placesFrom {b : Body η α} {i : Nat} {x : Item η α} :
    ([], x) ∉ b.placesFrom i := fun hmem => by
  obtain ⟨j, p, hp⟩ := exists_of_mem_placesFrom hmem
  simp at hp

theorem earlier_not_mem_placesFrom {b : Body η α} {i : Nat} {p : List Nat} {x : Item η α} :
    (i :: p, x) ∉ b.placesFrom (i + 1) := fun hmem => by
  obtain ⟨j, q, hq⟩ := exists_of_mem_placesFrom hmem
  simp only [List.cons.injEq] at hq
  omega

/-- What is listed at a place is what stands there. -/
theorem mem_placesFrom {x : Item η α} :
    ∀ {b : Body η α} {i j : Nat} {p : List Nat},
      ((i + j) :: p, x) ∈ b.placesFrom i ↔ b.at? (j :: p) = some x
  | .done, i, j, p => by simp [placesFrom]
  | .access a rest, i, 0, p => by
    simp [placesFrom, earlier_not_mem_placesFrom, at?_access_zero]
  | .access a rest, i, j + 1, p => by
    rw [placesFrom, List.mem_cons, at?_succ rfl, ← mem_placesFrom (b := rest) (i := i + 1),
      show i + 1 + j = i + (j + 1) by omega]
    simp
  | .loop head inner rest, i, 0, p => by
    have hinner : (p, x) ∈ inner.placesFrom 0 ↔ inner.at? p = some x := by
      cases p with
      | nil => simp [nil_not_mem_placesFrom]
      | cons j p => rw [← mem_placesFrom (b := inner) (i := 0), Nat.zero_add]
    simp [placesFrom, earlier_not_mem_placesFrom, at?_loop_zero, hinner]
  | .loop head inner rest, i, j + 1, p => by
    rw [placesFrom, List.cons_append, List.mem_cons, List.mem_append, List.mem_map, at?_succ rfl,
      ← mem_placesFrom (b := rest) (i := i + 1), show i + 1 + j = i + (j + 1) by omega]
    simp

theorem mem_places {b : Body η α} {p : List Nat} {x : Item η α} :
    (p, x) ∈ b.places ↔ b.at? p = some x := by
  cases p with
  | nil => simp [places, nil_not_mem_placesFrom]
  | cons j p => rw [← mem_placesFrom (i := 0), Nat.zero_add, places]

/-- All that is numbered from `i + 1` on comes after the item `i` and what is in it. -/
theorem lex_of_mem_placesFrom {b : Body η α} {i : Nat} {y : List Nat × Item η α}
    (hy : y ∈ b.placesFrom (i + 1)) (p : List Nat) : List.Lex (· < ·) (i :: p) y.1 := by
  obtain ⟨j, q, hq⟩ := exists_of_mem_placesFrom hy
  rw [hq]
  exact .rel (by omega)

/-- Places are listed in program order. -/
theorem pairwise_placesFrom :
    ∀ (b : Body η α) (i : Nat), (b.placesFrom i).Pairwise fun x y => List.Lex (· < ·) x.1 y.1
  | .done, _ => .nil
  | .access a rest, i =>
    List.pairwise_cons.mpr
      ⟨fun _ hy => lex_of_mem_placesFrom hy [], pairwise_placesFrom rest (i + 1)⟩
  | .loop head inner rest, i => by
    have hinner : ((inner.placesFrom 0).map fun x => (i :: x.1, x.2)).Pairwise
        fun x y => List.Lex (· < ·) x.1 y.1 :=
      List.pairwise_map.mpr ((pairwise_placesFrom inner 0).imp .cons)
    rw [placesFrom, List.cons_append, List.pairwise_cons, List.pairwise_append]
    refine ⟨fun y hy => ?_, hinner, pairwise_placesFrom rest (i + 1), fun x hx y hy => ?_⟩
    · rcases List.mem_append.mp hy with hy | hy
      · obtain ⟨z, hz, rfl⟩ := List.mem_map.mp hy
        obtain ⟨j, p, hp⟩ := exists_of_mem_placesFrom hz
        rw [hp]
        exact .cons .nil
      · exact lex_of_mem_placesFrom hy []
    · obtain ⟨z, -, rfl⟩ := List.mem_map.mp hx
      exact lex_of_mem_placesFrom hy z.1

theorem pairwise_places (b : Body η α) :
    b.places.Pairwise fun x y => List.Lex (· < ·) x.1 y.1 :=
  pairwise_placesFrom b 0

/-! ## Accesses and loops by place -/

section Parts

variable {β : Type} {f : Item η α → Option β}

/-- What is seen through `f` of all that stands in a body, with its places. -/
def placesOf (f : Item η α → Option β) (b : Body η α) : List (List Nat × β) :=
  b.places.filterMap fun x => (f x.2).map fun y => (x.1, y)

theorem mem_placesOf {b : Body η α} {p : List Nat} {y : β} :
    (p, y) ∈ b.placesOf f ↔ ∃ x, b.at? p = some x ∧ f x = some y := by
  simp only [placesOf, List.mem_filterMap, Option.map_eq_some_iff]
  constructor
  · rintro ⟨x, hx, z, hz, heq⟩
    cases heq
    exact ⟨x.2, mem_places.mp hx, hz⟩
  · rintro ⟨x, hx, hy⟩
    exact ⟨(p, x), mem_places.mpr hx, y, hy, rfl⟩

theorem pairwise_placesOf (b : Body η α) :
    (b.placesOf f).Pairwise fun x y => List.Lex (· < ·) x.1 y.1 := by
  refine List.pairwise_filterMap.mpr (b.pairwise_places.imp fun hlt x' hx y' hy => ?_)
  obtain ⟨a, -, rfl⟩ := Option.map_eq_some_iff.mp hx
  obtain ⟨c, -, rfl⟩ := Option.map_eq_some_iff.mp hy
  exact hlt

theorem map_snd_placesOf (b : Body η α) :
    (b.placesOf f).map (·.2) = b.places.filterMap fun x => f x.2 := by
  simp only [placesOf, List.map_filterMap, Option.map_map, Function.comp_def, Option.map_id']

end Parts

theorem filterMap_access?_placesFrom :
    ∀ (b : Body η α) (i : Nat), ((b.placesFrom i).filterMap fun x => x.2.access?) = b.accesses
  | .done, _ => rfl
  | .access a rest, i => by
    simp only [placesFrom, List.filterMap_cons, Item.access?_access,
      filterMap_access?_placesFrom rest (i + 1), accesses]
  | .loop head inner rest, i => by
    simp only [placesFrom, List.cons_append, List.filterMap_cons, Item.access?_loop,
      List.filterMap_append, List.filterMap_map, Function.comp_def,
      filterMap_access?_placesFrom inner 0, filterMap_access?_placesFrom rest (i + 1), accesses]

/-- The accesses of a body are those at its places, in order. -/
theorem accesses_eq_map_placesOf (b : Body η α) :
    b.accesses = (b.placesOf Item.access?).map (·.2) := by
  rw [map_snd_placesOf, places, filterMap_access?_placesFrom]

theorem mem_accesses {b : Body η α} {a : α} :
    a ∈ b.accesses ↔ ∃ place, b.at? place = some (.access a) := by
  rw [accesses_eq_map_placesOf, List.mem_map]
  constructor
  · rintro ⟨x, hx, rfl⟩
    obtain ⟨item, hat, hitem⟩ := mem_placesOf.mp hx
    exact ⟨x.1, Item.access?_eq_some_iff.mp hitem ▸ hat⟩
  · rintro ⟨place, hat⟩
    exact ⟨(place, a), mem_placesOf.mpr ⟨_, hat, Item.access?_access a⟩, rfl⟩

theorem last?_eq_getLast?_placesFrom (p : η → Bool) :
    ∀ (b : Body η α) (i : Nat), b.last? p =
      (((b.placesFrom i).filterMap fun x => x.2.loop?).filter fun l => p l.1).getLast?
  | .done, _ => rfl
  | .access a rest, i => by
    simp only [placesFrom, List.filterMap_cons, Item.loop?_access, last?,
      last?_eq_getLast?_placesFrom p rest (i + 1)]
  | .loop head inner rest, i => by
    have hhead : (if p head then some (head, inner) else none) =
        (([(head, inner)] : List (η × Body η α)).filter fun l => p l.1).getLast? := by
      cases hp : p head <;> simp [hp]
    rw [last?, hhead, last?_eq_getLast?_placesFrom p inner 0,
      last?_eq_getLast?_placesFrom p rest (i + 1), ← List.getLast?_append, ← List.getLast?_append,
      ← List.filter_append, ← List.filter_append]
    simp only [placesFrom, List.cons_append, List.filterMap_cons, Item.loop?_loop,
      List.filterMap_append, List.filterMap_map, Function.comp_def, List.nil_append]

/-- The last loop of some kind is the one at the last place. -/
theorem last?_eq_map_getLast? (p : η → Bool) (b : Body η α) :
    b.last? p = ((b.placesOf Item.loop?).filter fun x => p x.2.1).getLast?.map (·.2) := by
  have hfilter : ((b.placesOf Item.loop?).filter fun x => p x.2.1).map (·.2) =
      ((b.placesOf Item.loop?).map (·.2)).filter fun l => p l.1 := by
    rw [List.filter_map]
    rfl
  rw [← List.getLast?_map, hfilter, map_snd_placesOf]
  exact last?_eq_getLast?_placesFrom p b 0

/-! ## The last loop of some kind -/

/-- The loop at a place comes after all others of some kind, and has none of them in it. -/
structure LastAt (p : η → Bool) (b : Body η α) (place : List Nat) (head : η)
    (inner : Body η α) : Prop where
  at_place : b.at? place = some (.loop head inner)
  of_kind : p head = true
  comes_last : ∀ other h c, b.at? other = some (.loop h c) → p h = true → other ≠ place →
    List.Lex (· < ·) other place
  innermost : ∀ other h c, inner.at? other = some (.loop h c) → p h = false

theorem lex_append {p q : List Nat} (hq : q ≠ []) : List.Lex (· < ·) p (p ++ q) := by
  obtain ⟨j, q, rfl⟩ := List.exists_cons_of_ne_nil hq
  have := List.Lex.append_left (· < ·) (.nil : List.Lex (· < ·) [] (j :: q)) p
  rwa [List.append_nil] at this

section LastLoop

variable {p : η → Bool} {b inner : Body η α} {head : η}

theorem mem_filter_placesOf {place : List Nat} :
    (place, (head, inner)) ∈ ((b.placesOf Item.loop?).filter fun x => p x.2.1) ↔
      b.at? place = some (.loop head inner) ∧ p head = true := by
  rw [List.mem_filter, mem_placesOf]
  simp only [Item.loop?_eq_some_iff, exists_eq_right]

theorem last?_eq_none_iff : b.last? p = none ↔
    ∀ place head inner, b.at? place = some (.loop head inner) → p head = false := by
  rw [last?_eq_map_getLast?, Option.map_eq_none_iff, List.getLast?_eq_none_iff,
    List.eq_nil_iff_forall_not_mem]
  constructor
  · intro h place head inner hat
    have := h (place, (head, inner))
    rw [mem_filter_placesOf] at this
    cases hp : p head with
    | false => rfl
    | true => exact absurd ⟨hat, hp⟩ this
  · rintro h ⟨place, head, inner⟩ hmem
    obtain ⟨hat, hp⟩ := mem_filter_placesOf.mp hmem
    exact Bool.false_ne_true ((h place head inner hat).symm.trans hp)

/-- What is found comes after all others of its kind. -/
theorem lastAt_of_last? (h : b.last? p = some (head, inner)) :
    ∃ place, b.LastAt p place head inner := by
  rw [last?_eq_map_getLast?, Option.map_eq_some_iff] at h
  obtain ⟨⟨place, l⟩, hlast, rfl⟩ := h
  obtain ⟨earlier, hall⟩ := List.getLast?_eq_some_iff.mp hlast
  have horder := (b.pairwise_placesOf (f := Item.loop?)).filter fun x => p x.2.1
  rw [hall, List.pairwise_append] at horder
  have hlater : ∀ other h c, b.at? other = some (.loop h c) → p h = true → other ≠ place →
      List.Lex (· < ·) other place := by
    intro other h c hat hp hne
    have hmem := mem_filter_placesOf.mpr ⟨hat, hp⟩
    rw [hall, List.mem_append, List.mem_singleton] at hmem
    rcases hmem with hmem | hmem
    · exact horder.2.2 _ hmem _ List.mem_cons_self
    · exact absurd (congrArg Prod.fst hmem) hne
  have hmem := List.mem_append_right earlier (List.mem_singleton_self (place, (head, inner)))
  obtain ⟨hat, hp⟩ := mem_filter_placesOf.mp (hall ▸ hmem)
  refine ⟨place, hat, hp, hlater, fun other h c hother => ?_⟩
  -- a loop of this kind inside would stand at a later place
  by_contra hk
  have hne : other ≠ [] := fun e => by simp [e] at hother
  have hafter := lex_append hne (p := place)
  have hbefore := hlater (place ++ other) h c ((at?_append hne hat).trans hother)
    (Bool.not_eq_false _ |>.mp hk) (fun e => hne (List.self_eq_append_right.mp e.symm))
  exact List.lt_asymm (show place < place ++ other from hafter) hbefore

/-- The last loop of some kind is the one that comes after all others. -/
theorem last?_eq_some_iff_lastAt :
    b.last? p = some (head, inner) ↔ ∃ place, b.LastAt p place head inner := by
  refine ⟨lastAt_of_last?, fun ⟨place, h⟩ => ?_⟩
  cases hlast : b.last? p with
  | none =>
    have := last?_eq_none_iff.mp hlast place head inner h.at_place
    exact absurd h.of_kind (by rw [this]; exact Bool.false_ne_true)
  | some l =>
    obtain ⟨other, h'⟩ := lastAt_of_last? (hlast : b.last? p = some (l.1, l.2))
    by_cases heq : other = place
    · have hitem := h'.at_place
      rw [heq, h.at_place, Option.some.injEq, Item.loop.injEq] at hitem
      rw [Option.some.injEq]
      exact Prod.ext hitem.1.symm hitem.2.symm
    · have hbefore := h.comes_last other _ _ h'.at_place h'.of_kind heq
      have hafter := h'.comes_last place _ _ h.at_place h.of_kind (Ne.symm heq)
      exact absurd hafter (List.lt_asymm (show other < place from hbefore))

end LastLoop

end Body

end Bankflow
