import Bankflow.Fault

/-!
# Numbering

The parts of a design are numbered by kind, from zero, in the order in which they
come into being. Numbers have 32 bits. `Counters` hold the next number of each kind,
and `numbers` are those that are given out for some parts in turn.
-/

namespace Bankflow

inductive PartKind where
  | array
  | loop
  | node
  | buffer
  | region
  deriving DecidableEq, Repr

/-- The numbers of parts that come into being after some others. -/
def numbersAfter (earlier : List PartKind) : List PartKind → List Nat
  | [] => []
  | k :: rest => earlier.count k :: numbersAfter (k :: earlier) rest

/-- The numbers of the parts of a design in the order in which they come into
being. -/
def numbers (kinds : List PartKind) : List Nat := numbersAfter [] kinds

/-- The number after a number. -/
def Overflow.next (o : Overflow) (n : UInt32) : Except Fault UInt32 :=
  match o with
  | .wraps => .ok (n + 1)
  | .stops => if n = 4294967295 then .error .overflow else .ok (n + 1)

/-- The next numbers. -/
structure Counters where
  array : UInt32
  loop : UInt32
  node : UInt32
  buffer : UInt32
  region : UInt32
  deriving DecidableEq, Repr

namespace Counters

def zero : Counters := ⟨0, 0, 0, 0, 0⟩

/-- The next number of a kind. -/
def next (c : Counters) : PartKind → UInt32
  | .array => c.array
  | .loop => c.loop
  | .node => c.node
  | .buffer => c.buffer
  | .region => c.region

/-- The counters with another next number of a kind. -/
def set (c : Counters) (n : UInt32) : PartKind → Counters
  | .array => { c with array := n }
  | .loop => { c with loop := n }
  | .node => { c with node := n }
  | .buffer => { c with buffer := n }
  | .region => { c with region := n }

/-- Gives out a number. -/
def take (o : Overflow) (c : Counters) (kind : PartKind) : Except Fault (UInt32 × Counters) :=
  (o.next (c.next kind)).map fun n => (c.next kind, c.set n kind)

/-- Gives out a number for each of some parts in turn. -/
def takeAll (o : Overflow) (c : Counters) : List PartKind → Except Fault (List UInt32)
  | [] => .ok []
  | kind :: rest => do
    let (n, c) ← c.take o kind
    let ns ← c.takeAll o rest
    return n :: ns

end Counters

end Bankflow
