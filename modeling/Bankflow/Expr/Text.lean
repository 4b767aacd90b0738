import Bankflow.Expr.Basic

/-!
# Text of index expressions

Sums bind weaker than the other operators, all operators associate to the left,
and brackets stand only where the tree needs them. A sum whose right side is a
negative constant or a product with `-1` reads as a difference. A dimension is
written by its name, or as `d` and its position when it has none.
-/

namespace Bankflow

/-- The word between the operands of an operator. -/
def Op.symbol : Op → String
  | .add => "+"
  | .mul => "*"
  | .mod => "mod"
  | .floorDiv => "floordiv"
  | .ceilDiv => "ceildiv"

namespace Expr

/-- How tightly the place of an expression binds: anything may stand alone, no
sum to the right of a sum or under another operator, and no tree at all to the
right of another operator. -/
inductive Place where
  | alone
  | summand
  | factor
  | divisor
  deriving DecidableEq, Repr

/-- Whether a sum needs brackets at a place. -/
def Place.bracketsSum : Place → Bool
  | .alone | .summand => false
  | .factor | .divisor => true

/-- Whether a tree of another operator needs brackets at a place. -/
def Place.bracketsProduct : Place → Bool
  | .divisor => true
  | _ => false

def bracket (need : Bool) (s : String) : String :=
  if need then "(" ++ s ++ ")" else s

/-- The text of a dimension. -/
def dimText (names : List String) (k : Nat) : String :=
  match names[k]? with
  | some name => name
  | none => "d" ++ toString k

/-- The text of an expression at a place. -/
def textAt (names : List String) (place : Place) : Expr → String
  | const v => toString v.toInt
  | dim k => dimText names k
  | node .add l (const c) =>
    let right := if c < 0 then " - " ++ toString c.toInt.natAbs else " + " ++ toString c.toInt
    bracket place.bracketsSum (l.textAt names .summand ++ right)
  | node .add l (node .mul x (const c)) =>
    let right :=
      if c = -1 then " - " ++ x.textAt names .factor
      else " + " ++ (node .mul x (const c)).textAt names .factor
    bracket place.bracketsSum (l.textAt names .summand ++ right)
  | node .add l r =>
    bracket place.bracketsSum (l.textAt names .summand ++ " + " ++ r.textAt names .factor)
  | node op l r =>
    bracket place.bracketsProduct
      (l.textAt names .factor ++ " " ++ op.symbol ++ " " ++ r.textAt names .divisor)

/-- The text of an expression, its dimensions written by these names. -/
def textWith (names : List String) (e : Expr) : String := e.textAt names .alone

/-- The text of an expression over unnamed dimensions. -/
def text (e : Expr) : String := e.textWith []

end Expr

end Bankflow
