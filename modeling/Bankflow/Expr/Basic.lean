import Bankflow.Word

/-!
# Index expressions

An `Expr` is a tree of operators over word constants and numbered dimensions.
What a dimension stands for is left to its user: the variable of a loop in an
access, or a coordinate of an array in a layout.

* `Expr.combine` builds a tree and folds two constants into one where the
  operator is defined on them; `+`, `*`, `-` on expressions go through it.
  There is no operator for subtraction: `a - b` is `a + b * -1`.
* `Expr.eval` evaluates at one word per dimension.
* `Expr.compare` is a total order: constants, then dimensions, then trees.
-/

namespace Bankflow

/-- The operators of index arithmetic, in the order that `Expr.compare` uses. -/
inductive Op where
  | add
  | mul
  | mod
  | floorDiv
  | ceilDiv
  deriving DecidableEq, Repr

/-- The operator on words; `none` by a zero divisor or when a word overflows. -/
def Op.apply : Op → Int64 → Int64 → Option Int64
  | .add => Word.add
  | .mul => Word.mul
  | .mod => Word.mod
  | .floorDiv => Word.floorDiv
  | .ceilDiv => Word.ceilDiv

/-- The place of an operator in the order of operators. -/
def Op.rank : Op → Nat
  | .add => 0
  | .mul => 1
  | .mod => 2
  | .floorDiv => 3
  | .ceilDiv => 4

/-- An index expression over numbered dimensions. -/
inductive Expr where
  | const (value : Int64)
  | dim (position : Nat)
  | node (op : Op) (left right : Expr)
  deriving DecidableEq, Repr

namespace Expr

/-- The tree of `op` over `l` and `r`, or the constant it denotes when both are
constants and the operator is defined on them. -/
def combine (op : Op) (l r : Expr) : Expr :=
  match l, r with
  | const a, const b =>
    match op.apply a b with
    | some v => const v
    | none => node op l r
  | _, _ => node op l r

instance : Add Expr := ⟨combine .add⟩

instance : Mul Expr := ⟨combine .mul⟩

instance : Neg Expr := ⟨fun e => e * const (-1)⟩

instance : Sub Expr := ⟨fun a b => a + -b⟩

/-- The constant that an expression literally is. -/
def const? : Expr → Option Int64
  | const v => some v
  | _ => none

/-- The value at one word per dimension. There is none for a dimension without
a word, a zero divisor, or a result or a step towards it that does not fit. -/
def eval (dims : List Int64) : Expr → Option Int64
  | const v => some v
  | dim k => dims[k]?
  | node op l r => do
    let a ← l.eval dims
    let b ← r.eval dims
    op.apply a b

/-- The largest dimension that occurs. -/
def maxDim : Expr → Option Nat
  | const _ => none
  | dim k => some k
  | node _ l r =>
    match l.maxDim, r.maxDim with
    | some a, some b => some (max a b)
    | some a, none => some a
    | none, b => b

/-- Constants come before dimensions and these before trees; constants are
ordered by value, dimensions by position, trees by operator, then left, then
right. -/
def compare : Expr → Expr → Ordering
  | const a, const b => Ord.compare a.toInt b.toInt
  | const _, _ => .lt
  | dim _, const _ => .gt
  | dim a, dim b => Ord.compare a b
  | dim _, node .. => .lt
  | node o l r, node o' l' r' =>
    ((Ord.compare o.rank o'.rank).then (compare l l')).then (compare r r')
  | node .., _ => .gt

instance : Ord Expr := ⟨compare⟩

end Expr

end Bankflow
