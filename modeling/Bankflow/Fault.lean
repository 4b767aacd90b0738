/-!
# Faults

Parts of a design are named by number. A fault is a number that names nothing, or
arithmetic that has no result; it is the caller's mistake, and nothing is done.
-/

namespace Bankflow

inductive Fault where
  | noArray (id : Nat)
  | noDimension (array dim : Nat)
  | noNode (id : Nat)
  | noBuffer (id : Nat)
  | noRegion (id : Nat)
  /-- A node that would get a level twice in one run. -/
  | levelled (node : Nat)
  /-- A result that does not fit, where that is an error. -/
  | overflow
  deriving DecidableEq, Repr

/-- What arithmetic does where its result does not fit: it goes round, or it is a fault.
Programs can be built in both ways. -/
inductive Overflow where
  | wraps
  | stops
  deriving DecidableEq, Repr

end Bankflow
