import Bankflow.Expr.Text

/-!
# Layouts of banked arrays

A layout sends an index of an array to a bank and an offset for each dimension.
It holds one selector of the bank and one of the offset per dimension, written
over the dimensions of the array.
-/

namespace Bankflow

/-- Where the elements of an array are stored: the bank and the offset within
it, dimension by dimension. -/
structure Layout where
  banks : List Expr
  offsets : List Expr
  deriving DecidableEq, Repr

namespace Layout

/-- How many dimensions the layout banks. -/
def rank (l : Layout) : Nat := l.banks.length

/-- All selectors, banks first. -/
def selectors (l : Layout) : List Expr := l.banks ++ l.offsets

/-- The values of some expressions, if all have one. -/
def evalAll (index : List Int64) : List Expr → Option (List Int64)
  | [] => some []
  | e :: es => do
    let v ← e.eval index
    let vs ← evalAll index es
    some (v :: vs)

/-- The banks and then the offsets of an index. -/
def apply (l : Layout) (index : List Int64) : Option (List Int64) :=
  evalAll index l.selectors

/-- The layout as a map from the dimensions to the selectors. -/
def text (l : Layout) : String :=
  let dims := (List.range l.rank).map (Expr.dimText [])
  "(" ++ ", ".intercalate dims ++ ") -> (" ++ ", ".intercalate (l.selectors.map Expr.text) ++ ")"

end Layout

end Bankflow
