import Bankflow.Design.Basic
import Bankflow.Issue
import Bankflow.Options
import Bankflow.Source.Tree

/-!
# From programs to designs

Names become numbers, and everything that does not fit is reported. The result
is a usable design for any program: what cannot be understood is left out or
replaced by the nearest thing that can.

* Arrays are known everywhere, wherever they are declared. Of several declarations
  of an array, a region, or a node within a region, the first one counts.
* An index may use the variables of the loops around it; of two of the same name
  the inner one is meant. An access is left out if its array is unknown, if it has
  the wrong number of indices, or if an index uses an unknown variable. The
  indices are looked at one by one, and the first one with unknown variables is
  the only one reported.
* Buffers come into being where they are named, and are shared by all regions.

`Design.ofProgram`, `Options.ofProgram` and `findings` are separate functions of
the program. Each part of a design depends only on the statements of its kind.
-/

namespace Bankflow

open Source (Ident Number Index IndexOp ArrayDecl SettingValue Statement Program)

/-- The elements whose key does not occur before them. -/
def firstBy {α : Type} (key : α → String) (seen : List String) : List α → List α
  | [] => []
  | a :: rest =>
    if key a ∈ seen then firstBy key seen rest else a :: firstBy key (key a :: seen) rest

/-! ## Settings -/

/-- The truth value that a setting is set to. -/
def Source.SettingValue.bool? : SettingValue → Option Bool
  | .int n => if n.value = 0 then some false else if n.value = 1 then some true else none
  | .ident x => if x.name = "false" then some false else if x.name = "true" then some true else none

def Options.set (o : Options) : Ident × SettingValue → Options
  | (name, value) =>
    if name.name = "ignore_violations" then
      match value.bool? with
      | some b => { o with ignoreViolations := b }
      | none => o
    else o

def settingFindings (name : Ident) (value : SettingValue) : List Finding :=
  if name.name = "ignore_violations" then
    if value.bool?.isSome then [] else [⟨.notBoolean name.name, value.span⟩]
  else [⟨.unknownSetting name.name, name.span⟩]

/-- The options that the settings of a program amount to. -/
def Options.ofProgram (p : Program) : Options :=
  (p.statements.filterMap (·.setting?)).foldl Options.set {}

/-! ## Arrays -/

/-- The size of a dimension, at least one. -/
def dimensionSize (n : Number) : Nat := (max n.value.toInt 1).toNat

/-- Whether a number can name a memory space. -/
def isSpace (n : Number) : Bool := 0 ≤ n.value.toInt && n.value.toInt ≤ 4294967295

def spaceOf : Option Number → Nat
  | some n => if isSpace n then n.value.toInt.toNat else 0
  | none => 0

def Memory.ofDecl (d : ArrayDecl) : Memory :=
  ⟨d.name.name, d.shape.map dimensionSize, d.elementType.name, none, spaceOf d.memorySpace⟩

def shapeFindings (d : ArrayDecl) : List Finding :=
  d.shape.filterMap fun n =>
    if n.value.toInt ≤ 0 then some ⟨.emptyDimension d.name.name, n.span⟩ else none

def spaceFindings (d : ArrayDecl) : List Finding :=
  match d.memorySpace with
  | some n => if isSpace n then [] else [⟨.spaceOutOfRange n.value.toInt, n.span⟩]
  | none => []

def arrayFindings (seen : List String) : List ArrayDecl → List Finding
  | [] => []
  | d :: rest =>
    if d.name.name ∈ seen then
      ⟨.duplicateArray d.name.name, d.name.span⟩ :: arrayFindings seen rest
    else shapeFindings d ++ spaceFindings d ++ arrayFindings (d.name.name :: seen) rest

def memoriesOf (decls : List ArrayDecl) : List Memory :=
  (firstBy (·.name.name) [] decls).map Memory.ofDecl

/-! ## Indices -/

/-- The variables in scope and their numbers, innermost first. -/
abbrev Scope := List (String × Nat)

/-- The number of a variable. -/
def Scope.find? (scope : Scope) (name : String) : Option Nat :=
  (List.find? (·.1 = name) scope).map (·.2)

/-- The expression of an operator between two expressions. -/
def Source.IndexOp.build : IndexOp → Expr → Expr → Expr
  | .add => (· + ·)
  | .sub => (· - ·)
  | .mul => (· * ·)
  | .mod => Expr.combine .mod
  | .floorDiv => Expr.combine .floorDiv
  | .ceilDiv => Expr.combine .ceilDiv

namespace Source.Index

/-- The expression of an index whose variables are all in scope. -/
def lower? (scope : Scope) : Index → Option Expr
  | int n => some (.const n.value)
  | var x => (scope.find? x.name).map .dim
  | neg e _ => (e.lower? scope).map (- ·)
  | binary op l r => do
    let a ← l.lower? scope
    let b ← r.lower? scope
    some (op.build a b)

/-- The variables that are not in scope, from left to right. -/
def unknowns (scope : Scope) : Index → List Ident
  | int _ => []
  | var x => if (scope.find? x.name).isSome then [] else [x]
  | neg e _ => e.unknowns scope
  | binary _ l r => l.unknowns scope ++ r.unknowns scope

end Source.Index

/-- The expressions of some indices. -/
def lowerAll? (scope : Scope) : List Index → Option (List Expr)
  | [] => some []
  | e :: rest => do
    let a ← e.lower? scope
    let as ← lowerAll? scope rest
    some (a :: as)

/-- The unknown variables of the first index that has any. -/
def firstUnknowns (scope : Scope) : List Index → List Ident
  | [] => []
  | e :: rest => if e.unknowns scope = [] then firstUnknowns scope rest else e.unknowns scope

/-! ## Accesses and loops -/

/-- The access that a statement means, unless something is wrong with it. -/
def Access.ofSource? (memories : List Memory) (scope : Scope) (a : Source.Access) :
    Option Access := do
  let array ← memoryNamed? memories a.array.name
  let m ← memories[array]?
  if a.indices.length = m.rank then
    some ⟨array, ← lowerAll? scope a.indices, a.kind⟩
  else none

def accessFindings (memories : List Memory) (scope : Scope) (a : Source.Access) : List Finding :=
  match (memoryNamed? memories a.array.name).bind (memories[·]?) with
  | none => [⟨.unknownArray a.array.name, a.array.span⟩]
  | some m =>
    if a.indices.length = m.rank then
      (firstUnknowns scope a.indices).map fun x => ⟨.unknownVariable x.name, x.span⟩
    else [⟨.wrongRank a.array.name m.rank a.indices.length, a.span⟩]

/-- The step of a loop, `1` if none or zero is given. -/
def Source.LoopHead.stepOf (h : Source.LoopHead) : Int64 :=
  match h.step with
  | some n => if n.value = 0 then 1 else n.value
  | none => 1

/-- A loop with its number and the number of its variable. -/
def LoopHead.ofSource (id var : Nat) (h : Source.LoopHead) : LoopHead :=
  ⟨id, var, h.lower, h.upper, h.stepOf, h.pipeline⟩

/-- The body of a loop. The next loop to begin has number `id`, and its variable
number `var`. -/
def lowerBody (memories : List Memory) (scope : Scope) (id var : Nat) :
    Source.LoopBody → LoopBody
  | .done => .done
  | .access a rest =>
    match Access.ofSource? memories scope a with
    | some x => .access x (lowerBody memories scope id var rest)
    | none => lowerBody memories scope id var rest
  | .loop h inner rest =>
    let count := inner.heads.length
    .loop (.ofSource id var h)
      (lowerBody memories ((h.var.name, var) :: scope) (id + 1) (var + 1) inner)
      (lowerBody memories scope (id + 1 + count) (var + 1 + count) rest)

def shadowFindings (scope : Scope) (x : Ident) : List Finding :=
  if (scope.find? x.name).isSome then [⟨.shadowedVariable x.name, x.span⟩] else []

def stepFindings : Option Number → List Finding
  | some n => if n.value = 0 then [⟨.zeroStep, n.span⟩] else []
  | none => []

def headFindings (scope : Scope) (h : Source.LoopHead) : List Finding :=
  shadowFindings scope h.var ++ stepFindings h.step

/-- What is wrong in a body. The numbers in the scope do not matter here, and
every variable gets `0`. -/
def bodyFindings (memories : List Memory) (scope : Scope) : Source.LoopBody → List Finding
  | .done => []
  | .access a rest => accessFindings memories scope a ++ bodyFindings memories scope rest
  | .loop h inner rest =>
    headFindings scope h ++ bodyFindings memories ((h.var.name, 0) :: scope) inner ++
      bodyFindings memories scope rest

/-- The nest of an outermost loop with number `id`. -/
def Nest.ofSource (memories : List Memory) (id : Nat) (h : Source.LoopHead)
    (body : Source.LoopBody) : Nest :=
  ⟨.ofSource id 0 h, lowerBody memories [(h.var.name, 0)] (id + 1) 1 body,
    (h :: body.heads).map (·.var.name)⟩

/-- The nests of outermost loops, the first one with number `id`. -/
def nestsOf (memories : List Memory) (id : Nat) :
    List (Source.LoopHead × Source.LoopBody) → List Nest
  | [] => []
  | (h, body) :: rest =>
    .ofSource memories id h body :: nestsOf memories (id + 1 + body.heads.length) rest

/-! ## Regions -/

/-- The graph with one more node in a region, and with its buffers. -/
def Dataflow.Graph.addSourceNode (region : Nat) (g : Dataflow.Graph) (n : Source.Node) :
    Dataflow.Graph :=
  let (g, inputs) := g.internBuffers (n.inputs.map (·.name))
  let (g, outputs) := g.internBuffers (n.outputs.map (·.name))
  (g.addNode region n.name.name inputs outputs n.span).1

/-- The graph with one more region and its nodes. -/
def Dataflow.Graph.addSourceRegion (g : Dataflow.Graph) (r : Ident × List Source.Node) :
    Dataflow.Graph :=
  let (g, region) := g.addRegion r.1.name r.1.span
  (firstBy (·.name.name) [] r.2).foldl (addSourceNode region) g

def graphOf (regions : List (Ident × List Source.Node)) : Dataflow.Graph :=
  (firstBy (·.1.name) [] regions).foldl Dataflow.Graph.addSourceRegion .empty

/-- The nodes of a region whose name was used before. The names before them are
given with the offset of the first use. -/
def nodeFindings (region : String) (seen : List (String × Nat)) : List Source.Node → List Finding
  | [] => []
  | n :: rest =>
    match seen.find? (·.1 = n.name.name) with
    | some (_, first) =>
      ⟨.duplicateNode n.name.name region first, n.name.span⟩ :: nodeFindings region seen rest
    | none => nodeFindings region ((n.name.name, n.name.span.start) :: seen) rest

/-! ## Programs -/

def Design.ofProgram (p : Program) : Design :=
  let memories := memoriesOf (p.statements.filterMap (·.array?))
  { memories
    nests := nestsOf memories 0 (p.statements.filterMap (·.loop?))
    graph := graphOf (p.statements.filterMap (·.region?)) }

/-- What is wrong in statements other than declarations of arrays, after regions
of some names. -/
def statementFindings (memories : List Memory) (regions : List String) :
    List Statement → List Finding
  | [] => []
  | s :: rest =>
    match s.decl with
    | .array _ => statementFindings memories regions rest
    | .setting name value => settingFindings name value ++ statementFindings memories regions rest
    | .loop h body =>
      headFindings [] h ++ bodyFindings memories [(h.var.name, 0)] body ++
        statementFindings memories regions rest
    | .region name nodes =>
      if name.name ∈ regions then
        ⟨.duplicateRegion name.name, name.span⟩ :: statementFindings memories regions rest
      else
        nodeFindings name.name [] nodes ++
          statementFindings memories (name.name :: regions) rest

/-- All that is wrong with a program: its arrays first, then the other statements
in order. -/
def findings (p : Program) : List Finding :=
  let decls := p.statements.filterMap (·.array?)
  arrayFindings [] decls ++ statementFindings (memoriesOf decls) [] p.statements

end Bankflow
