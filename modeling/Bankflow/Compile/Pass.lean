/-!
# Passes

The passes that turn a program into a banked and scheduled design, what they need
and what they make. `Pass.required` lists the passes needed for some others, each
after those it needs.
-/

namespace Bankflow

inductive Pass where
  | resolve
  | bank
  | schedule
  | legality
  deriving DecidableEq, Repr

/-- What passes make. -/
inductive Artifact where
  | design
  | options
  | plan
  | schedule
  | legality
  deriving DecidableEq, Repr

namespace Pass

def name : Pass → String
  | resolve => "resolve"
  | bank => "array_partition"
  | schedule => "schedule_dataflow"
  | legality => "check_legality"

/-- The passes whose results a pass works on. -/
def inputs : Pass → List Pass
  | resolve => []
  | bank => [resolve]
  | schedule => [resolve]
  | legality => [schedule]

def outputs : Pass → List Artifact
  | resolve => [.design, .options]
  | bank => [.plan]
  | schedule => [.schedule]
  | legality => [.legality]

/-- What holds after a pass. -/
def invariants : Pass → String
  | resolve => "all names resolved, index counts match array ranks"
  | bank => "layouts carry rank partition and rank address results"
  | schedule => "levels write-once, producer above consumers"
  | legality => "legal iff every region node is leveled"

/-- How many passes deep a pass builds on others. -/
def depth : Pass → Nat
  | resolve => 0
  | bank => 1
  | schedule => 1
  | legality => 2

theorem depth_lt_of_mem_inputs {p q : Pass} (h : q ∈ p.inputs) : q.depth < p.depth := by
  cases p <;> cases q <;> simp_all [inputs, depth]

/-- A pass after all that it builds on. -/
def chain (p : Pass) : List Pass :=
  p.inputs.attach.flatMap (fun q => q.1.chain) ++ [p]
termination_by p.depth
decreasing_by exact depth_lt_of_mem_inputs q.2

/-- The passes of a list that are not in `before`, each once. -/
def addNew (before : List Pass) : List Pass → List Pass
  | [] => before
  | p :: rest => if p ∈ before then addNew before rest else addNew (before ++ [p]) rest

/-- The passes needed for some passes, in the order in which they can be run. -/
def required (terminals : List Pass) : List Pass := addNew [] (terminals.flatMap chain)

end Pass

end Bankflow
