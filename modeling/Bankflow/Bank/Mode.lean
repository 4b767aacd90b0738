import Bankflow.Bank.Layout
import Bankflow.Expr.Linear

/-!
# Banking modes

A dimension of an array is banked so that the indices used together in one
iteration fall into different banks. What decides is how many distinct indices
there are and how far apart they lie:

* `Mode.single`: no two indices are known to differ, and one bank is enough;
* `Mode.cyclic f`: the indices fill a run of `f` positions, and consecutive
  positions go round `f` banks;
* `Mode.block f b`: the indices leave gaps, and the dimension is cut into `f`
  banks of `b` consecutive positions.
-/

namespace Bankflow

/-- How one dimension is banked. -/
inductive Mode where
  | single
  | cyclic (factor : Nat)
  | block (factor size : Nat)
  deriving DecidableEq, Repr

namespace Mode

/-- The number of banks. -/
def banks : Mode → Nat
  | single => 1
  | cyclic f => f
  | block f _ => f

def text : Mode → String
  | single => "none"
  | cyclic f => "cyclic(factor=" ++ toString f ++ ")"
  | block f b => "block(factor=" ++ toString f ++ ", block=" ++ toString b ++ ")"

/-- The selector of the bank along dimension `d`. A factor or block size is taken
as a word and wraps if it does not fit. -/
def bank (d : Nat) : Mode → Expr
  | single => .const 0
  | cyclic f => .combine .mod (.dim d) (.const (Int64.ofNat f))
  | block _ b => .combine .floorDiv (.dim d) (.const (Int64.ofNat b))

/-- The selector of the offset within the bank along dimension `d`. -/
def offset (d : Nat) : Mode → Expr
  | single => .dim d
  | cyclic f => .combine .floorDiv (.dim d) (.const (Int64.ofNat f))
  | block _ b => .combine .mod (.dim d) (.const (Int64.ofNat b))

/-- Both selectors along the dimension that stands at place `d` of a shape. Expressions number
dimensions with 32 bits, and a place that does not fit wraps. -/
def selectors (d : Nat) (m : Mode) : Expr × Expr :=
  (m.bank (d % 4294967296), m.offset (d % 4294967296))

theorem selectors_of_lt {d : Nat} (h : d < 4294967296) (m : Mode) :
    m.selectors d = (m.bank d, m.offset d) := by
  rw [selectors, Nat.mod_eq_of_lt h]

end Mode

/-- The distinct elements of a list, each where it is seen first. -/
def firstSeen {α : Type} [DecidableEq α] : List α → List α
  | [] => []
  | a :: l => a :: (firstSeen l).filter (· ≠ a)

/-- How far apart two indices are, as far as their difference is a known
constant; `0` otherwise. -/
def gap (later earlier : Expr) : Nat :=
  match later.difference? earlier with
  | some k => k.toInt.natAbs
  | none => 0

/-- The largest of some numbers, `0` if there are none. -/
def largest : List Nat → Nat
  | [] => 0
  | n :: ns => max n (largest ns)

/-- The largest gap between an index of the list and one after it. -/
def spread : List Expr → Nat
  | [] => 0
  | a :: rest => max (largest (rest.map fun b => gap b a)) (spread rest)

/-- What was chosen for one dimension, and from what. -/
structure DimChoice where
  dim : Nat
  /-- How many distinct indices there are. -/
  distinct : Nat
  /-- The largest known gap between two of them. -/
  spread : Nat
  mode : Mode
  deriving DecidableEq, Repr

namespace DimChoice

/-- The number of consecutive positions that the indices span. -/
def distance (c : DimChoice) : Nat := c.spread + 1

/-- The mode for `distinct` indices over `distance` positions of a dimension of
the given size. -/
def modeFor (distinct distance size : Nat) : Mode :=
  if distance = 1 then .single
  else if distance ≤ distinct then .cyclic distance
  else .block distinct ((size + distinct - 1) / distinct)

/-- The choice for dimension `dim`, of the given size, from the indices used
there. -/
def of (indices : List Expr) (dim size : Nat) : DimChoice :=
  let seen := firstSeen indices
  let gap := Bankflow.spread seen
  ⟨dim, seen.length, gap, modeFor seen.length (gap + 1) size⟩

end DimChoice

end Bankflow
