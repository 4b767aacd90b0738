import Bankflow.Bank.Plan
import Bankflow.Certificate

/-!
# Certificates of banking

After banking, the layouts of a design and the plan are checked:

* every layout has one bank selector per dimension and refers to no other
  dimensions;
* every layout has one offset selector per dimension;
* along every dimension of every decision, bank and offset give back the index.
  The first `roundTripLimit` indices are tried, with all others zero. The index is
  computed in words, and `Overflow` says what happens if a result does not fit.
-/

namespace Bankflow

/-- How many indices of a dimension are tried. -/
abbrev roundTripLimit : Nat := 4096

/-- Whether every selector refers to dimensions below `rank` only. -/
def Layout.within (l : Layout) (rank : Nat) : Bool :=
  l.selectors.all fun e =>
    match e.maxDim with
    | some k => k < rank
    | none => true

/-! ## Arithmetic on words -/

namespace Overflow

/-- The sum of two words. -/
def add (o : Overflow) (a b : Int64) : Except Fault Int64 :=
  match o with
  | .wraps => .ok (a + b)
  | .stops => (Word.add a b).elim (.error .overflow) .ok

/-- The product of two words. -/
def mul (o : Overflow) (a b : Int64) : Except Fault Int64 :=
  match o with
  | .wraps => .ok (a * b)
  | .stops => (Word.mul a b).elim (.error .overflow) .ok

/-- Whether a quotient and a remainder by `n` give back `i`. A remainder out of its bounds
is not tried. -/
def rebuilds (o : Overflow) (n quotient remainder i : Int64) : Except Fault Bool :=
  if 0 ≤ remainder ∧ remainder < n then do
    let multiple ← o.mul n quotient
    let sum ← o.add multiple remainder
    return sum = i
  else
    return false

end Overflow

/-! ## Round trips -/

/-- Whether a bank and an offset give back index `i`, with the part that is a
remainder in its bounds. A factor or block size is taken as a word and wraps if it
does not fit. -/
def Mode.restores (o : Overflow) (mode : Mode) (bank offset i : Int64) : Except Fault Bool :=
  match mode with
  | .single => return bank = 0 && offset = i
  | .cyclic f => o.rebuilds (Int64.ofNat f) offset bank i
  | .block _ b => o.rebuilds (Int64.ofNat b) bank offset i

/-- The index that is `i` along dimension `d` and zero elsewhere. -/
def unitIndex (rank d : Nat) (i : Int64) : List Int64 := (List.replicate rank 0).set d i

/-- Whether a layout gives back index `i` of a dimension. -/
def Layout.restoresAt (o : Overflow) (l : Layout) (c : DimChoice) (i : Nat) : Except Fault Bool :=
  match l.apply (unitIndex l.rank c.dim (Int64.ofNat i)) with
  | none => return false
  | some values =>
    match values[c.dim]?, values[l.rank + c.dim]? with
    | some bank, some offset => c.mode.restores o bank offset (Int64.ofNat i)
    | _, _ => return false

/-- Whether a layout gives back the indices of a dimension of some size, up to the first
that it does not. -/
def Layout.roundTrips (o : Overflow) (l : Layout) (c : DimChoice) (size : Nat) :
    Except Fault Bool :=
  if c.dim < l.rank then (List.range (min size roundTripLimit)).allM (l.restoresAt o c)
  else return false

namespace Design

/-- Whether a decision's layout gives back the indices of some dimensions. The
dimensions are taken in order up to the first that fails, and have to be there. -/
def dimsRoundTrip (o : Overflow) (array : Nat) (shape : List Nat) (l : Layout)
    (choices : List DimChoice) : Except Fault Bool :=
  choices.allM fun c =>
    match shape[c.dim]? with
    | none => .error (.noDimension array c.dim)
    | some size => l.roundTrips o c size

/-- Whether the layouts of decisions give back all indices. The decisions are taken
in order up to the first that fails, and their arrays have to be there. -/
def roundTrip (o : Overflow) (d : Design) (applied : List Applied) : Except Fault Bool :=
  applied.allM fun a =>
    match d.memories[a.decision.array]? with
    | none => .error (.noArray a.decision.array)
    | some m => dimsRoundTrip o a.decision.array m.shape a.decision.layout a.decision.dims

/-- Every layout has one bank selector per dimension, over these dimensions. -/
def bankArity (d : Design) : Bool :=
  d.memories.all fun m =>
    match m.layout with
    | some l => l.banks.length = m.rank && l.within m.rank
    | none => true

/-- Every layout has one offset selector per dimension. -/
def offsetArity (d : Design) : Bool :=
  d.memories.all fun m =>
    match m.layout with
    | some l => l.offsets.length = m.rank
    | none => true

/-- The obligations of banking, given how the round trip went. -/
def bankingObligations (d : Design) (roundTrip : Bool) : Certificate :=
  ⟨[("P1_partition_arity", d.bankArity),
    ("P2_address_arity", d.offsetArity),
    ("P3_round_trip", roundTrip)]⟩

/-- The certificate of a plan. Words wrap, and a plan for other arrays does not pass. -/
def certificate (d : Design) (p : Plan) : Certificate :=
  d.bankingObligations <|
    match d.roundTrip .wraps p.applied with
    | .ok passed => passed
    | .error _ => false

/-- The certificate of a plan whose arrays have to be there. -/
def certificate? (o : Overflow) (d : Design) (p : Plan) : Except Fault Certificate := do
  return d.bankingObligations (← d.roundTrip o p.applied)

end Design

end Bankflow
