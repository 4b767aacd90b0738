import Bankflow.Bank.Layout
import Bankflow.Dataflow.Graph
import Bankflow.Loop.Nest

/-!
# Designs

A design holds on-chip arrays, the loop nests that access them, and a dataflow
graph. Arrays are numbered in the order of their declaration, and their number is
their place in the design.
-/

namespace Bankflow

/-- An on-chip array. -/
structure Memory where
  name : String
  /-- The size of each dimension. -/
  shape : List Nat
  elementType : String
  /-- Where the elements are stored; element by element if there is no layout. -/
  layout : Option Layout
  space : Nat
  deriving DecidableEq, Repr

/-- The number of dimensions. -/
def Memory.rank (m : Memory) : Nat := m.shape.length

/-- The first array of a name. -/
def memoryNamed? (memories : List Memory) (name : String) : Option Nat :=
  memories.findIdx? (·.name = name)

structure Design where
  memories : List Memory
  nests : List Nest
  graph : Dataflow.Graph
  deriving DecidableEq, Repr

namespace Design

def empty : Design := ⟨[], [], .empty⟩

def arrayNamed? (d : Design) (name : String) : Option Nat := memoryNamed? d.memories name

/-- The design with a layout for one of its arrays. -/
def setLayout (d : Design) (array : Nat) (layout : Layout) : Design :=
  { d with memories := d.memories.modify array fun m => { m with layout := some layout } }

/-- Fails if there is no such array. -/
def memory? (d : Design) (array : Nat) : Except Fault Memory :=
  match d.memories[array]? with
  | some m => .ok m
  | none => .error (.noArray array)

/-- `setLayout` for an array that has to be there. -/
def setLayout? (d : Design) (array : Nat) (layout : Layout) : Except Fault Design := do
  discard <| d.memory? array
  return d.setLayout array layout

/-- Fails at the first access to an array that is not there. -/
def checkAccesses (d : Design) : List Access → Except Fault Unit
  | [] => .ok ()
  | a :: rest =>
    if a.array < d.memories.length then d.checkAccesses rest else .error (.noArray a.array)

end Design

end Bankflow
