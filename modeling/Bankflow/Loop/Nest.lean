import Bankflow.Expr.Basic
import Bankflow.Loop.Body
import Bankflow.Ordered

/-!
# Loop nests

A nest is an outermost loop with all it contains. Loops are numbered across a
design, and the variables of a nest by the order in which its loops begin; the
indices of accesses are expressions over these variables.

Of the pipelined loops of a nest, the last to begin is the one whose accesses
have to be served together (`Nest.pipelined?`).
-/

namespace Bankflow

structure Access where
  /-- The number of the array. -/
  array : Nat
  indices : List Expr
  kind : AccessKind
  deriving DecidableEq, Repr

/-- A loop without its body. -/
structure LoopHead where
  id : Nat
  /-- The number of its variable in the nest. -/
  var : Nat
  lower : Int64
  upper : Int64
  step : Int64
  pipeline : Bool
  deriving DecidableEq, Repr

abbrev LoopBody := Body LoopHead Access

structure Nest where
  head : LoopHead
  body : LoopBody
  /-- The names of the variables, by their number. -/
  vars : List String
  deriving DecidableEq, Repr

namespace Nest

/-- All loops, each before the loops in it. -/
def heads (n : Nest) : List LoopHead := n.head :: n.body.heads

def accesses (n : Nest) : List Access := n.body.accesses

/-- The last pipelined loop to begin, with its body. -/
def pipelined? (n : Nest) : Option (LoopHead × LoopBody) :=
  (n.body.last? LoopHead.pipeline).or
    (if n.head.pipeline then some (n.head, n.body) else none)

/-- The accesses that have to be served together. -/
def pipelinedAccesses (n : Nest) : List Access :=
  match n.pipelined? with
  | some (_, body) => body.accesses
  | none => []

/-- The name of the variable of a loop, by the loop's number. -/
def varOf? (n : Nest) (loop : Nat) : Option String :=
  match (n.heads.filter (·.id = loop)).getLast? with
  | some h => n.vars[h.var]?
  | none => none

end Nest

/-! ## Sites -/

/-- The distinct elements of a list, ascending. -/
def ascending (l : List Nat) : List Nat := ordered (fun m n => decide (m < n)) l

/-- The accesses of one kind to one array, in program order. -/
def sitesOf (kind : AccessKind) (array : Nat) (accesses : List Access) : List Access :=
  accesses.filter fun a => a.kind = kind && a.array = array

/-- The arrays accessed in one way, ascending. -/
def arraysOf (kind : AccessKind) (accesses : List Access) : List Nat :=
  ascending ((accesses.filter (·.kind = kind)).map (·.array))

/-- The accesses of one kind by array, the arrays ascending. -/
def groupByArray (kind : AccessKind) (accesses : List Access) : List (Nat × List Access) :=
  (arraysOf kind accesses).map fun array => (array, sitesOf kind array accesses)

end Bankflow
