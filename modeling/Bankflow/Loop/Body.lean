/-!
# Loop bodies

A loop body is a sequence of accesses and inner loops in program order. The type
is shared by the source tree and the design: `η` is what is known of a loop
apart from its body, and `α` what is known of an access.

* `Body.accesses` lists all accesses below, through inner loops;
* `Body.heads` lists all inner loops, outer ones before those they contain;
* `Body.last?` finds the last inner loop of some kind in that order.
-/

namespace Bankflow

/-- Whether an access reads or writes its array. -/
inductive AccessKind where
  | read
  | write
  deriving DecidableEq, Repr

def AccessKind.text : AccessKind → String
  | read => "read"
  | write => "write"

/-- A sequence of accesses and loops. -/
inductive Body (η α : Type) where
  | done
  | access (a : α) (rest : Body η α)
  | loop (head : η) (inner rest : Body η α)
  deriving DecidableEq, Repr

namespace Body

variable {η α : Type}

/-- All accesses in program order. -/
def accesses : Body η α → List α
  | done => []
  | access a rest => a :: rest.accesses
  | loop _ inner rest => inner.accesses ++ rest.accesses

/-- All loops, each before the loops in it. -/
def heads : Body η α → List η
  | done => []
  | access _ rest => rest.heads
  | loop h inner rest => h :: (inner.heads ++ rest.heads)

/-- The last loop whose head satisfies `p`, with its body, in the order of
`heads`. -/
def last? (p : η → Bool) : Body η α → Option (η × Body η α)
  | done => none
  | access _ rest => rest.last? p
  | loop h inner rest =>
    (rest.last? p).or ((inner.last? p).or (if p h then some (h, inner) else none))

end Body

end Bankflow
