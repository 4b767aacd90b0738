import Bankflow.Design.Basic

/-!
# Text of designs

A design is written in the source language, line by line, with what was found out
about it added: the layouts of arrays, the levels of nodes, and which regions are
legal.
-/

namespace Bankflow

/-- The text of some lines, each ended. -/
def unlines (ls : List String) : String := String.join (ls.map (· ++ "\n"))

def shapeText (shape : List Nat) : String := "[" ++ ", ".intercalate (shape.map toString) ++ "]"

def Memory.line (m : Memory) : String :=
  let space := if m.space = 0 then "" else " @ " ++ toString m.space
  let layout := match m.layout with
    | some l => " layout " ++ l.text
    | none => ""
  "array " ++ m.name ++ shapeText m.shape ++ " : " ++ m.elementType ++ space ++ layout

namespace Design

def indent (depth : Nat) : String := String.join (List.replicate depth "  ")

/-- The name of an array, `?` if there is none. -/
def arrayName (d : Design) (array : Nat) : String :=
  match d.memories[array]? with
  | some m => m.name
  | none => "?"

def accessLine (d : Design) (vars : List String) (depth : Nat) (a : Access) : String :=
  indent depth ++ a.kind.text ++ " " ++ d.arrayName a.array ++
    "[" ++ ", ".intercalate (a.indices.map (Expr.textWith vars)) ++ "]"

/-- The line that opens a loop. -/
def headLine (vars : List String) (depth : Nat) (h : LoopHead) : String :=
  indent depth ++ "loop " ++ vars[h.var]?.getD "?" ++ " = " ++ toString h.lower.toInt ++ " to " ++
    toString h.upper.toInt ++ " step " ++ toString h.step.toInt ++
    (if h.pipeline then " pipeline" else "") ++ " \x7b"

def bodyLines (d : Design) (vars : List String) (depth : Nat) : LoopBody → List String
  | .done => []
  | .access a rest => d.accessLine vars depth a :: d.bodyLines vars depth rest
  | .loop h inner rest =>
    headLine vars depth h :: d.bodyLines vars (depth + 1) inner ++
      (indent depth ++ "\x7d") :: d.bodyLines vars depth rest

def nestLines (d : Design) (n : Nest) : List String :=
  d.bodyLines n.vars 0 (.loop n.head n.body .done)

end Design

namespace Dataflow.Graph

/-- The name of a buffer, `?` if there is none. -/
def bufferName (g : Graph) (b : Nat) : String :=
  match g.buffers[b]? with
  | some buffer => buffer.name
  | none => "?"

def bufferList (g : Graph) (buffers : List Nat) : String :=
  "(" ++ ", ".intercalate (buffers.map g.bufferName) ++ ")"

def nodeLine (g : Graph) (n : Node) : String :=
  let outputs := if n.outputs.isEmpty then "" else " -> " ++ g.bufferList n.outputs
  let level := match n.level with
    | some l => " level " ++ toString l
    | none => ""
  "  node " ++ n.name ++ g.bufferList n.inputs ++ outputs ++ level

def regionLines (g : Graph) (r : Region) : List String :=
  ("region " ++ r.name ++ (if r.legal then " legal" else "") ++ " \x7b") ::
    (r.nodes.filterMap (g.nodes[·]?)).map g.nodeLine ++ ["\x7d"]

end Dataflow.Graph

namespace Design

def text (d : Design) : String :=
  unlines (d.memories.map Memory.line ++ d.nests.flatMap d.nestLines ++
    d.graph.regions.flatMap d.graph.regionLines)

/-- The text of a design whose accesses have to name arrays. -/
def text? (d : Design) : Except Fault String := do
  d.checkAccesses (d.nests.flatMap Nest.accesses)
  return d.text

end Design

end Bankflow
