import Bankflow.Expr.Basic

/-!
# Linear forms

A linear form is a constant plus a sum of coefficients times atoms. The atoms of
an expression are its dimensions and those of its subexpressions that are not
linear, told apart by structural equality alone.

* `Linear.of?` linearises an expression and fails as soon as a word overflows;
* `Expr.foldConst?` is the constant of a linear form without atoms;
* `Expr.difference?` is the constant by which two expressions differ wherever
  both have a value, found when their atoms cancel.
-/

namespace Bankflow

/-- A constant plus coefficients times atoms. The forms of `Linear.of?` list an
atom once and with a coefficient that is not zero. -/
structure Linear where
  terms : List (Expr × Int64)
  constant : Int64
  deriving DecidableEq, Repr

namespace Linear

def ofConst (v : Int64) : Linear := ⟨[], v⟩

def ofAtom (e : Expr) : Linear := ⟨[(e, 1)], 0⟩

/-- The constant that the form is, when it has no terms. -/
def const? (a : Linear) : Option Int64 :=
  if a.terms.isEmpty then some a.constant else none

/-- A list of terms with `c` times `atom` added. -/
def addTerm (atom : Expr) (c : Int64) : List (Expr × Int64) → Option (List (Expr × Int64))
  | [] => some [(atom, c)]
  | (e, d) :: rest =>
    if e = atom then (Word.add d c).map fun s => (e, s) :: rest
    else (addTerm atom c rest).map ((e, d) :: ·)

/-- Every term of the second list added to the first. -/
def addTerms (ts : List (Expr × Int64)) : List (Expr × Int64) → Option (List (Expr × Int64))
  | [] => some ts
  | (e, c) :: rest => do addTerms (← addTerm e c ts) rest

/-- Every coefficient multiplied by `k`. -/
def scaleTerms (k : Int64) : List (Expr × Int64) → Option (List (Expr × Int64))
  | [] => some []
  | (e, c) :: rest => do
    let d ← Word.mul c k
    let ds ← scaleTerms k rest
    some ((e, d) :: ds)

/-- The form with these terms, those with coefficient zero left out. -/
def ofTerms (terms : List (Expr × Int64)) (constant : Int64) : Linear :=
  ⟨terms.filter (·.2 ≠ 0), constant⟩

def add (a b : Linear) : Option Linear := do
  let constant ← Word.add a.constant b.constant
  let terms ← addTerms a.terms b.terms
  some (ofTerms terms constant)

def scale (a : Linear) (k : Int64) : Option Linear := do
  let constant ← Word.mul a.constant k
  let terms ← scaleTerms k a.terms
  some (ofTerms terms constant)

/-- The linear form of an expression. A product with a constant factor is
linear, operators on two constants are computed, and any other tree that is not
a sum is an atom. -/
def of? : Expr → Option Linear
  | .const v => some (ofConst v)
  | .dim k => some (ofAtom (.dim k))
  | .node .add l r => do
    let a ← of? l
    let b ← of? r
    a.add b
  | .node op l r => do
    let a ← of? l
    let b ← of? r
    match op, a.const?, b.const? with
    | _, some x, some y => (op.apply x y).map ofConst
    | .mul, some k, none => b.scale k
    | .mul, none, some k => a.scale k
    | _, _, _ => some (ofAtom (.node op l r))

end Linear

namespace Expr

/-- The constant that an expression denotes when its atoms cancel. -/
def foldConst? (e : Expr) : Option Int64 := do (← Linear.of? e).const?

/-- The constant `a - b`, when the atoms of both cancel. -/
def difference? (a b : Expr) : Option Int64 := (a - b).foldConst?

end Expr

end Bankflow
