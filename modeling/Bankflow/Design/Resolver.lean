import Bankflow.Dataflow.Store
import Bankflow.Design.OfProgram

/-!
# Resolvers

A resolver goes through a program twice, first for the arrays and then for everything else,
and keeps one state throughout: the design as far as it has been built, the options, what
was found wrong, the next numbers, and the numbers of the arrays by their names. Findings
are noted where they come up. Numbers are given out by counters, so every part carries the
one that it got.

`resolve` gives what `Design.ofProgram`, `Options.ofProgram` and `findings` say of a program
at once.
-/

namespace Bankflow

open Source (Ident Number Index ArrayDecl SettingValue Statement Program)

/-- An array with its number. -/
structure StoredMemory where
  id : UInt32
  memory : Memory
  deriving DecidableEq, Repr

/-- A design as it is kept in memory. -/
structure StoredDesign where
  memories : List StoredMemory
  nests : List Nest
  flow : Dataflow.Store
  deriving DecidableEq, Repr

/-- The design that is kept. -/
def StoredDesign.design (d : StoredDesign) : Design :=
  ⟨d.memories.map (·.memory), d.nests, d.flow.graph⟩

structure Resolver where
  stored : StoredDesign
  options : Options
  findings : List Finding
  /-- The next numbers of arrays and loops. Those of nodes, buffers and regions are in the
  store. -/
  ids : Counters
  /-- The numbers of the arrays by their names, latest first. -/
  arrays : List (String × UInt32)
  deriving DecidableEq, Repr

/-- The variables of the nest that is looked at. -/
structure NestScope where
  /-- All of them, in the order of their loops. -/
  names : List String
  /-- Those in scope with their numbers, innermost first. -/
  visible : List (String × UInt32)
  deriving DecidableEq, Repr

namespace NestScope

def empty : NestScope := ⟨[], []⟩

/-- The scope in a loop. The variable gets the next number. -/
def enter (s : NestScope) (name : String) : NestScope :=
  ⟨s.names ++ [name], (name, .ofNat s.names.length) :: s.visible⟩

/-- The scope after a loop. -/
def leave (s : NestScope) : NestScope := { s with visible := s.visible.tail }

end NestScope

namespace Resolver

def empty : Resolver := ⟨⟨[], [], .empty⟩, {}, [], .zero, []⟩

def report (r : Resolver) (f : Finding) : Resolver := { r with findings := r.findings ++ [f] }

/-! ## Arrays -/

/-- The sizes of some dimensions of an array. -/
def collectShape (r : Resolver) (name : String) : List Number → Resolver × List Nat
  | [] => (r, [])
  | n :: rest =>
    let r := if n.value ≤ 0 then r.report ⟨.emptyDimension name, n.span⟩ else r
    let (r, sizes) := r.collectShape name rest
    (r, dimensionSize n :: sizes)

def collectSpace (r : Resolver) : Option Number → Resolver × Nat
  | none => (r, 0)
  | some n =>
    if isSpace n then (r, n.value.toInt.toNat)
    else (r.report ⟨.spaceOutOfRange n.value.toInt, n.span⟩, 0)

def collectArray (o : Overflow) (r : Resolver) (d : ArrayDecl) : Except Fault Resolver :=
  match r.arrays.lookup d.name.name with
  | some _ => return r.report ⟨.duplicateArray d.name.name, d.name.span⟩
  | none => do
    let (r, shape) := r.collectShape d.name.name d.shape
    let (r, space) := r.collectSpace d.memorySpace
    let (id, ids) ← r.ids.take o .array
    let memory : Memory := ⟨d.name.name, shape, d.elementType.name, none, space⟩
    return { r with stored := { r.stored with memories := r.stored.memories ++ [⟨id, memory⟩] }
                    ids
                    arrays := (d.name.name, id) :: r.arrays }

/-- The first pass: the arrays of some statements. -/
def collectArrays (o : Overflow) (r : Resolver) : List Statement → Except Fault Resolver
  | [] => .ok r
  | s :: rest =>
    match s.decl with
    | .array d => do
      let r ← r.collectArray o d
      r.collectArrays o rest
    | _ => r.collectArrays o rest

/-! ## Settings -/

def resolveSetting (r : Resolver) (name : Ident) (value : SettingValue) : Resolver :=
  if name.name = "ignore_violations" then
    match value.bool? with
    | some b => { r with options := { r.options with ignoreViolations := b } }
    | none => r.report ⟨.notBoolean name.name, value.span⟩
  else r.report ⟨.unknownSetting name.name, name.span⟩

/-! ## Loops -/

/-- The expression of an index. Both sides of an operator are looked at, so that all unknown
variables of an index are reported. -/
def lowerIndex (r : Resolver) (scope : NestScope) : Index → Resolver × Option Expr
  | .int n => (r, some (.const n.value))
  | .var x =>
    match scope.visible.lookup x.name with
    | some var => (r, some (.dim var.toNat))
    | none => (r.report ⟨.unknownVariable x.name, x.span⟩, none)
  | .neg e _ =>
    let (r, a) := r.lowerIndex scope e
    (r, a.map (- ·))
  | .binary op left right =>
    let (r, a) := r.lowerIndex scope left
    let (r, b) := r.lowerIndex scope right
    (r, do some (op.build (← a) (← b)))

/-- The expressions of some indices, up to the first one with unknown variables. -/
def lowerIndices (r : Resolver) (scope : NestScope) : List Index → Resolver × Option (List Expr)
  | [] => (r, some [])
  | e :: rest =>
    match r.lowerIndex scope e with
    | (r, none) => (r, none)
    | (r, some a) =>
      let (r, as) := r.lowerIndices scope rest
      (r, as.map (a :: ·))

def resolveAccess (r : Resolver) (scope : NestScope) (a : Source.Access) :
    Except Fault (Resolver × Option Access) :=
  match r.arrays.lookup a.array.name with
  | none => return (r.report ⟨.unknownArray a.array.name, a.array.span⟩, none)
  | some id =>
    match r.stored.memories[id.toNat]? with
    | none => .error (.noArray id.toNat)
    | some m =>
      if a.indices.length = m.memory.rank then
        let (r, indices) := r.lowerIndices scope a.indices
        return (r, indices.map fun indices => ⟨id.toNat, indices, a.kind⟩)
      else
        let rank := m.memory.rank
        return (r.report ⟨.wrongRank a.array.name rank a.indices.length, a.span⟩, none)

/-- The step of a loop. -/
def resolveStep (r : Resolver) : Option Number → Resolver × Int64
  | none => (r, 1)
  | some n => if n.value = 0 then (r.report ⟨.zeroStep, n.span⟩, 1) else (r, n.value)

/-- A loop without its body, and the scope in it. -/
def resolveHead (o : Overflow) (r : Resolver) (scope : NestScope) (h : Source.LoopHead) :
    Except Fault (Resolver × NestScope × LoopHead) := do
  let r :=
    if (scope.visible.lookup h.var.name).isSome then
      r.report ⟨.shadowedVariable h.var.name, h.var.span⟩
    else r
  let (r, step) := r.resolveStep h.step
  let var := UInt32.ofNat scope.names.length
  let (id, ids) ← r.ids.take o .loop
  return ({ r with ids }, scope.enter h.var.name,
    ⟨id.toNat, var.toNat, h.lower, h.upper, step, h.pipeline⟩)

def resolveBody (o : Overflow) (r : Resolver) (scope : NestScope) : Source.LoopBody →
    Except Fault (Resolver × NestScope × LoopBody)
  | .done => .ok (r, scope, .done)
  | .access a rest => do
    let (r, x) ← r.resolveAccess scope a
    let (r, scope, body) ← r.resolveBody o scope rest
    return (r, scope, x.elim body fun x => .access x body)
  | .loop h inner rest => do
    let (r, scope, head) ← r.resolveHead o scope h
    let (r, scope, body) ← r.resolveBody o scope inner
    let (r, scope, later) ← r.resolveBody o scope.leave rest
    return (r, scope, .loop head body later)

def resolveNest (o : Overflow) (r : Resolver) (h : Source.LoopHead) (body : Source.LoopBody) :
    Except Fault Resolver := do
  let (r, scope, head) ← r.resolveHead o .empty h
  let (r, scope, body) ← r.resolveBody o scope body
  return { r with
    stored := { r.stored with nests := r.stored.nests ++ [⟨head, body, scope.names⟩] } }

/-! ## Regions -/

/-- The store with one more node in a region, and with its buffers. -/
def addNode (o : Overflow) (flow : Dataflow.Store) (region : UInt32) (n : Source.Node) :
    Except Fault Dataflow.Store := do
  let (flow, inputs) ← flow.internBuffers o (n.inputs.map (·.name))
  let (flow, outputs) ← flow.internBuffers o (n.outputs.map (·.name))
  let (flow, _) ← flow.addNode o region n.name.name inputs outputs n.span
  return flow

/-- Adds some nodes to a region, after others of some names. -/
def resolveNodes (o : Overflow) (region : Ident) (id : UInt32) (r : Resolver)
    (seen : List (String × Span)) : List Source.Node → Except Fault Resolver
  | [] => .ok r
  | n :: rest =>
    match seen.lookup n.name.name with
    | some first =>
      resolveNodes o region id
        (r.report ⟨.duplicateNode n.name.name region.name first.start, n.name.span⟩) seen rest
    | none => do
      let flow ← addNode o r.stored.flow id n
      resolveNodes o region id { r with stored := { r.stored with flow } }
        ((n.name.name, n.name.span) :: seen) rest

def resolveRegion (o : Overflow) (r : Resolver) (name : Ident) (nodes : List Source.Node) :
    Except Fault Resolver :=
  if r.stored.flow.regions.any (·.name = name.name) then
    return r.report ⟨.duplicateRegion name.name, name.span⟩
  else do
    let (flow, id) ← r.stored.flow.addRegion o name.name name.span
    resolveNodes o name id { r with stored := { r.stored with flow } } [] nodes

/-! ## Programs -/

def resolveStatement (o : Overflow) (r : Resolver) (s : Statement) : Except Fault Resolver :=
  match s.decl with
  | .setting name value => return r.resolveSetting name value
  | .array _ => return r
  | .loop h body => r.resolveNest o h body
  | .region name nodes => r.resolveRegion o name nodes

/-- The second pass: everything but the arrays. -/
def resolveStatements (o : Overflow) (r : Resolver) : List Statement → Except Fault Resolver
  | [] => .ok r
  | s :: rest => do
    let r ← r.resolveStatement o s
    r.resolveStatements o rest

end Resolver

/-- Goes through a program. -/
def resolve (o : Overflow) (p : Program) : Except Fault Resolver := do
  let r ← Resolver.empty.collectArrays o p.statements
  r.resolveStatements o p.statements

end Bankflow
