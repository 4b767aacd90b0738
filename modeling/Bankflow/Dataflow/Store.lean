import Bankflow.Dataflow.Legality
import Bankflow.Numbering

/-!
# Stores

A store is a graph as it is kept in memory. Every part carries its number, counters hold
the numbers that come next, and a table gives the number of a buffer from its name. A node
is noted with the buffers of its ports one port after the other.

In a `Graph` the number of a part is its place, so it has all of this by itself
(`Store.graph`); in a store the copies have to be kept in step. Where a number is used to
find a part, there is a fault if the part is not there.
-/

namespace Bankflow.Dataflow

structure StoredNode where
  id : UInt32
  name : String
  region : UInt32
  inputs : List UInt32
  outputs : List UInt32
  span : Span
  level : Option UInt32
  deriving DecidableEq, Repr

structure StoredBuffer where
  id : UInt32
  name : String
  producers : List UInt32
  consumers : List UInt32
  deriving DecidableEq, Repr

structure StoredRegion where
  id : UInt32
  name : String
  nodes : List UInt32
  legal : Bool
  span : Span
  deriving DecidableEq, Repr

structure Store where
  nodes : List StoredNode
  buffers : List StoredBuffer
  regions : List StoredRegion
  /-- The numbers of the buffers by their names, latest first. -/
  names : List (String × UInt32)
  ids : Counters
  deriving DecidableEq, Repr

def StoredBuffer.isShared (b : StoredBuffer) : Bool :=
  1 < b.consumers.length || 1 < b.producers.length

/-- The node with a level, unless it already has one. -/
def StoredNode.assign (n : StoredNode) (level : UInt32) : StoredNode :=
  match n.level with
  | some _ => n
  | none => { n with level := some level }

/-- The numbers with one more at the end, unless it is there. -/
def withNumber (id : UInt32) (ids : List UInt32) : List UInt32 :=
  if id ∈ ids then ids else ids ++ [id]

def StoredBuffer.addConsumer (id : UInt32) (b : StoredBuffer) : StoredBuffer :=
  { b with consumers := withNumber id b.consumers }

def StoredBuffer.addProducer (id : UInt32) (b : StoredBuffer) : StoredBuffer :=
  { b with producers := withNumber id b.producers }

/-- The elements that pass a test, which can be a fault. -/
def filterChecked {α : Type} (test : α → Except Fault Bool) : List α → Except Fault (List α)
  | [] => .ok []
  | a :: rest => do
    let passed ← test a
    let later ← filterChecked test rest
    return if passed then a :: later else later

namespace Store

def empty : Store := ⟨[], [], [], [], .zero⟩

/-! ## Looking up -/

def node (s : Store) (id : UInt32) : Except Fault StoredNode :=
  match s.nodes[id.toNat]? with
  | some n => .ok n
  | none => .error (.noNode id.toNat)

def buffer (s : Store) (id : UInt32) : Except Fault StoredBuffer :=
  match s.buffers[id.toNat]? with
  | some b => .ok b
  | none => .error (.noBuffer id.toNat)

def isLevelled (s : Store) (id : UInt32) : Except Fault Bool := do
  let n ← s.node id
  return n.level.isSome

/-! ## Building -/

def addRegion (o : Overflow) (s : Store) (name : String) (span : Span) :
    Except Fault (Store × UInt32) := do
  let (id, ids) ← s.ids.take o .region
  return ({ s with regions := s.regions ++ [⟨id, name, [], false, span⟩], ids }, id)

/-- The store with a buffer of this name, and its number. -/
def internBuffer (o : Overflow) (s : Store) (name : String) : Except Fault (Store × UInt32) :=
  match s.names.lookup name with
  | some id => return (s, id)
  | none => do
    let (id, ids) ← s.ids.take o .buffer
    return ({ s with buffers := s.buffers ++ [⟨id, name, [], []⟩]
                     names := (name, id) :: s.names
                     ids }, id)

def internBuffers (o : Overflow) (s : Store) : List String → Except Fault (Store × List UInt32)
  | [] => .ok (s, [])
  | name :: rest => do
    let (s, b) ← s.internBuffer o name
    let (s, bs) ← s.internBuffers o rest
    return (s, b :: bs)

/-- Changes the buffers of some ports, one port after the other. -/
def atPorts (change : StoredBuffer → StoredBuffer) (buffers : List StoredBuffer) :
    List UInt32 → Except Fault (List StoredBuffer)
  | [] => .ok buffers
  | b :: ports =>
    match buffers[b.toNat]? with
    | none => .error (.noBuffer b.toNat)
    | some buffer => atPorts change (buffers.set b.toNat (change buffer)) ports

def addNode (o : Overflow) (s : Store) (region : UInt32) (name : String)
    (inputs outputs : List UInt32) (span : Span) : Except Fault (Store × UInt32) := do
  let (id, ids) ← s.ids.take o .node
  let buffers ← atPorts (·.addConsumer id) s.buffers inputs
  let buffers ← atPorts (·.addProducer id) buffers outputs
  match s.regions[region.toNat]? with
  | none => .error (.noRegion region.toNat)
  | some r =>
    return ({ s with nodes := s.nodes ++ [⟨id, name, region, inputs, outputs, span, none⟩]
                     buffers
                     regions := s.regions.set region.toNat { r with nodes := r.nodes ++ [id] }
                     ids }, id)

/-- The store with a level for a node, unless the node already has one. -/
def assignLevel (s : Store) (id level : UInt32) : Except Fault Store := do
  let n ← s.node id
  return { s with nodes := s.nodes.set id.toNat (n.assign level) }

/-! ## Scheduling -/

/-- What a round finds out about a node without a level. -/
inductive Readiness where
  | ready (level : UInt32)
  /-- It writes these shared buffers. -/
  | blocked (buffers : List UInt32)
  /-- One of its consumers has no level. -/
  | waiting
  deriving DecidableEq, Repr

/-- The level above a level, as far as levels are counted. -/
def levelAfter (l : UInt32) : UInt32 := if l = 4294967295 then l else l + 1

/-- A level, raised above those of some nodes; none if one of them has none. -/
def raise (s : Store) (level : UInt32) : List UInt32 → Except Fault (Option UInt32)
  | [] => .ok (some level)
  | id :: rest => do
    let n ← s.node id
    match n.level with
    | none => return none
    | some l => s.raise (max level (levelAfter l)) rest

/-- A level, raised above those of the consumers of some buffers. -/
def raiseAll (s : Store) (level : UInt32) : List UInt32 → Except Fault (Option UInt32)
  | [] => .ok (some level)
  | id :: rest => do
    let b ← s.buffer id
    match ← s.raise level b.consumers with
    | none => return none
    | some level => s.raiseAll level rest

/-- The shared buffers that a node writes, unless these are ignored. -/
def sharedOutputs (s : Store) (options : Options) (n : StoredNode) :
    Except Fault (List UInt32) :=
  if options.ignoreViolations then return []
  else filterChecked (fun id => return (← s.buffer id).isShared) n.outputs

def readiness (s : Store) (options : Options) (n : StoredNode) : Except Fault Readiness := do
  let shared ← s.sharedOutputs options n
  if shared.isEmpty then
    match ← s.raiseAll 0 n.outputs with
    | some level => return .ready level
    | none => return .waiting
  else
    return .blocked shared

/-- What a round finds: nodes with the levels that they get, and blocked nodes with the
buffers that block them. -/
structure Scan where
  ready : List (UInt32 × UInt32)
  blocked : List (Nat × Nat)
  deriving DecidableEq, Repr

/-- What a round finds among some nodes. -/
def scan (s : Store) (options : Options) : List StoredNode → Except Fault Scan
  | [] => .ok ⟨[], []⟩
  | n :: rest =>
    if n.level.isSome then s.scan options rest
    else do
      let readiness ← s.readiness options n
      let later ← s.scan options rest
      match readiness with
      | .ready level => return { later with ready := (n.id, level) :: later.ready }
      | .blocked buffers =>
        let pairs := buffers.map fun b => (n.id.toNat, b.toNat)
        return { later with blocked := pairs ++ later.blocked }
      | .waiting => return later

/-- Levels the nodes that a round found ready. None of them has a level. -/
def commit (s : Store) : List (UInt32 × UInt32) → Except Fault Store
  | [] => .ok s
  | (id, level) :: rest =>
    match s.nodes[id.toNat]? with
    | none => .error (.noNode id.toNat)
    | some n =>
      if n.level.isSome then .error (.levelled id.toNat)
      else commit { s with nodes := s.nodes.set id.toNat (n.assign level) } rest

/-- How many nodes have no level. -/
def pendingCount (s : Store) : Nat := s.nodes.countP fun n => n.level.isNone

theorem pendingCount_commit {s' : Store} :
    ∀ {ready : List (UInt32 × UInt32)} {s : Store}, s.commit ready = .ok s' →
      s'.pendingCount + ready.length = s.pendingCount
  | [], s, h => by
    cases h
    rfl
  | (id, level) :: ready, s, h => by
    rw [commit] at h
    split at h
    · cases h
    · next n hn =>
      split at h
      · cases h
      · next hlevel =>
        obtain ⟨hid, rfl⟩ := List.getElem?_eq_some_iff.mp hn
        have hnone : s.nodes[id.toNat].level = none := by simpa using hlevel
        have hset := List.countP_set (p := fun n : StoredNode => n.level.isNone)
          (a := s.nodes[id.toNat].assign level) hid
        have hpos : 0 < s.nodes.countP fun n => n.level.isNone :=
          List.countP_pos_iff.mpr ⟨_, List.getElem_mem hid, by simp [hnone]⟩
        have hrest := pendingCount_commit h
        simp only [StoredNode.assign, hnone, Option.isNone_some, Option.isNone_none, if_true,
          Bool.false_eq_true, if_false] at hset
        rw [List.length_cons]
        simp only [pendingCount, StoredNode.assign, hnone] at hrest ⊢
        omega

/-- What the rounds of a run did. -/
structure Rounds where
  store : Store
  count : UInt32
  assigned : List Nat
  blocked : List (Nat × Nat)
  deriving DecidableEq, Repr

/-- Rounds until one finds no node ready, after `count` others. -/
def rounds (o : Overflow) (options : Options) (s : Store) (count : UInt32) :
    Except Fault Rounds :=
  match o.next count with
  | .error f => .error f
  | .ok count =>
    match s.scan options s.nodes with
    | .error f => .error f
    | .ok found =>
      if found.ready = [] then .ok ⟨s, count, [], found.blocked⟩
      else
        match _h : s.commit found.ready with
        | .error f => .error f
        | .ok s' =>
          (s'.rounds o options count).map fun r =>
            { r with assigned := found.ready.length :: r.assigned
                     blocked := found.blocked ++ r.blocked }
termination_by s.pendingCount
decreasing_by
  have hcount := pendingCount_commit _h
  have hready := List.length_pos_iff.mpr ‹found.ready ≠ []›
  omega

/-- Levels the nodes. Levels that are there are kept. -/
def schedule (o : Overflow) (s : Store) (options : Options) : Except Fault (Store × Schedule) := do
  let r ← s.rounds o options 0
  let violations ← filterChecked
    (fun v => return !(← r.store.isLevelled (UInt32.ofNat v.1))) (distinctPairs r.blocked)
  return (r.store,
    { rounds := r.count.toNat
      assigned := r.assigned
      unscheduled := (r.store.nodes.filter fun n => n.level.isNone).map fun n => n.id.toNat
      violations })

/-! ## Legality -/

/-- Whether every node of a region has a level. -/
def isLegal (s : Store) (r : StoredRegion) : Except Fault Bool := r.nodes.allM s.isLevelled

/-- Marks every region. When violations are ignored the marks stay as they are. -/
def checkLegality (s : Store) (options : Options) : Except Fault (Store × Legality) :=
  if options.ignoreViolations then return (s, ⟨false, []⟩)
  else do
    let marks ← s.regions.mapM s.isLegal
    let regions := s.regions.zipWith (fun r legal => { r with legal }) marks
    return ({ s with regions },
      ⟨true, (regions.filter fun r => !r.legal).map fun r => r.id.toNat⟩)

/-! ## The graph of a store -/

/-- The graph that a store keeps. -/
def graph (s : Store) : Graph where
  nodes := s.nodes.map fun n =>
    ⟨n.name, n.region.toNat, n.inputs.map (·.toNat), n.outputs.map (·.toNat), n.span,
      n.level.map (·.toNat)⟩
  buffers := s.buffers.map fun b => ⟨b.name, b.producers.map (·.toNat), b.consumers.map (·.toNat)⟩
  regions := s.regions.map fun r => ⟨r.name, r.nodes.map (·.toNat), r.legal, r.span⟩

end Store

end Bankflow.Dataflow
