import Bankflow.Loop.Body
import Bankflow.Span

/-!
# The source tree

What a source says, as written: names are not looked up yet, and every part
keeps its span for messages.
-/

namespace Bankflow.Source

/-- A name where it is used. -/
structure Ident where
  name : String
  span : Span
  deriving DecidableEq, Repr

/-- A number where it is written. -/
structure Number where
  value : Int64
  span : Span
  deriving DecidableEq, Repr

/-- The operators of index expressions. -/
inductive IndexOp where
  | add
  | sub
  | mul
  | mod
  | floorDiv
  | ceilDiv
  deriving DecidableEq, Repr

/-- An index expression over loop variables. -/
inductive Index where
  | int (n : Number)
  | var (x : Ident)
  | neg (e : Index) (span : Span)
  | binary (op : IndexOp) (left right : Index)
  deriving DecidableEq, Repr

/-- From the first operand's start to the last one's end. Brackets around an
expression are not part of it. -/
def Index.span : Index → Span
  | int n => n.span
  | var x => x.span
  | neg _ s => s
  | binary _ l r => ⟨l.span.start, r.span.stop⟩

structure Access where
  kind : AccessKind
  array : Ident
  indices : List Index
  span : Span
  deriving DecidableEq, Repr

/-- A loop without its body. -/
structure LoopHead where
  var : Ident
  lower : Int64
  upper : Int64
  step : Option Number
  pipeline : Bool
  span : Span
  deriving DecidableEq, Repr

abbrev LoopBody := Body LoopHead Access

structure Node where
  name : Ident
  inputs : List Ident
  outputs : List Ident
  span : Span
  deriving DecidableEq, Repr

/-- What a setting is set to. -/
inductive SettingValue where
  | int (n : Number)
  | ident (x : Ident)
  deriving DecidableEq, Repr

def SettingValue.span : SettingValue → Span
  | int n => n.span
  | ident x => x.span

structure ArrayDecl where
  name : Ident
  shape : List Number
  elementType : Ident
  memorySpace : Option Number
  deriving DecidableEq, Repr

inductive Decl where
  | setting (name : Ident) (value : SettingValue)
  | array (decl : ArrayDecl)
  | loop (head : LoopHead) (body : LoopBody)
  | region (name : Ident) (nodes : List Node)
  deriving DecidableEq, Repr

structure Statement where
  decl : Decl
  span : Span
  deriving DecidableEq, Repr

structure Program where
  statements : List Statement
  span : Span
  deriving DecidableEq, Repr

/-! ## Statements by kind -/

namespace Statement

def array? (s : Statement) : Option ArrayDecl :=
  match s.decl with
  | .array d => some d
  | _ => none

def setting? (s : Statement) : Option (Ident × SettingValue) :=
  match s.decl with
  | .setting name value => some (name, value)
  | _ => none

def loop? (s : Statement) : Option (LoopHead × LoopBody) :=
  match s.decl with
  | .loop head body => some (head, body)
  | _ => none

def region? (s : Statement) : Option (Ident × List Node) :=
  match s.decl with
  | .region name nodes => some (name, nodes)
  | _ => none

end Statement

end Bankflow.Source
