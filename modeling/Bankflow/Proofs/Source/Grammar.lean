import Bankflow.Source.Parser

/-!
# The grammar

A phrase is a derivation of one part of the grammar: a tree with a branch for each part of
the rule that was used, down to the single tokens, of which it keeps the span. `tokens`
are the tokens of a phrase from left to right, and `tree` is what it says.

    program   nl* lines(statement)
    statement setting | array | loop | region
    setting   "set" name "=" (number | name)
    array     "array" name "[" number ("," number)* "]" ":" name ("@" number)?
    loop      "loop" name "=" signed "to" signed ("step" number)? "pipeline"?
              "{" nl* lines(loop | access) "}"
    access    ("read" | "write") name "[" expr ("," expr)* "]"
    region    "region" name "{" nl* lines(node) "}"
    node      "node" name names ("->" names)?
    names     "(" (name ("," name)*)? ")"
    signed    "-"? number
    expr      term (("+" | "-") term)*
    term      unary (("*" | "mod" | "floordiv" | "ceildiv") unary)*
    unary     "-" unary | number | name | "(" expr ")"
    lines(x)  (x nl nl*)* x?

A line break is one newline or more, and the last line may do without it. Each run of
newlines has one place in a phrase, so phrases do not differ by how newlines are grouped.
-/

namespace Bankflow.Source

/-! ## Single tokens -/

def Keyword.lexeme (k : Keyword) (span : Span) : Lexeme := ⟨.keyword k, span⟩

def Symbol.lexeme (y : Symbol) (span : Span) : Lexeme := ⟨.symbol y, span⟩

def Ident.lexeme (x : Ident) : Lexeme := ⟨.ident x.name, x.span⟩

def Number.lexeme (n : Number) : Lexeme := ⟨.int n.value, n.span⟩

def newline (span : Span) : Lexeme := ⟨.newline, span⟩

namespace Phrase

/-- From the first token of a phrase to its last. -/
def extent (tokens : List Lexeme) : Span := tokensSpan tokens 0

/-! ## Lists -/

/-- One item or more, with commas between them. -/
structure CommaList (α : Type) where
  first : α
  /-- Each with the comma before it. -/
  more : List (Span × α)

namespace CommaList

variable {α β : Type}

def tokens (item : α → List Lexeme) (l : CommaList α) : List Lexeme :=
  item l.first ++ l.more.flatMap fun (comma, a) => Symbol.comma.lexeme comma :: item a

def tree (item : α → β) (l : CommaList α) : List β :=
  item l.first :: l.more.map fun (_, a) => item a

end CommaList

/-- Items on lines of their own. -/
inductive Lines (α : Type) where
  | done
  /-- An item without a line break after it. -/
  | last (item : α)
  /-- An item, one newline, perhaps more of them, and the lines after that. -/
  | next (item : α) (first : Span) (blank : List Span) (rest : Lines α)

namespace Lines

variable {α β : Type}

def tokens (item : α → List Lexeme) : Lines α → List Lexeme
  | done => []
  | last a => item a
  | next a first blank rest =>
    item a ++ newline first :: (blank.map newline ++ rest.tokens item)

def tree (item : α → β) : Lines α → List β
  | done => []
  | last a => [item a]
  | next a _ _ rest => item a :: rest.tree item

end Lines

/-! ## Index expressions -/

inductive SumSign where
  | plus
  | minus

namespace SumSign

def token : SumSign → Token
  | plus => .symbol .plus
  | minus => .symbol .minus

def op : SumSign → IndexOp
  | plus => .add
  | minus => .sub

end SumSign

inductive ProductSign where
  | star
  | mod
  | floorDiv
  | ceilDiv

namespace ProductSign

def token : ProductSign → Token
  | star => .symbol .star
  | mod => .keyword .mod
  | floorDiv => .keyword .floorDiv
  | ceilDiv => .keyword .ceilDiv

def op : ProductSign → IndexOp
  | star => .mul
  | mod => .mod
  | floorDiv => .floorDiv
  | ceilDiv => .ceilDiv

end ProductSign

mutual

inductive Unary where
  | neg (minus : Span) (operand : Unary)
  | int (n : Number)
  | var (x : Ident)
  | brackets (left : Span) (inner : Expr) (right : Span)

/-- More factors, each after a sign. -/
inductive Factors where
  | done
  | more (sign : ProductSign) (span : Span) (factor : Unary) (rest : Factors)

inductive Term where
  | mk (first : Unary) (rest : Factors)

/-- More summands, each after a sign. -/
inductive Summands where
  | done
  | more (sign : SumSign) (span : Span) (summand : Term) (rest : Summands)

inductive Expr where
  | mk (first : Term) (rest : Summands)

end

mutual

def Unary.tokens : Unary → List Lexeme
  | .neg minus e => Symbol.minus.lexeme minus :: e.tokens
  | .int n => [n.lexeme]
  | .var x => [x.lexeme]
  | .brackets left e right =>
    Symbol.lparen.lexeme left :: (e.tokens ++ [Symbol.rparen.lexeme right])

def Factors.tokens : Factors → List Lexeme
  | .done => []
  | .more sign span u rest => ⟨sign.token, span⟩ :: (u.tokens ++ rest.tokens)

def Term.tokens : Term → List Lexeme
  | .mk u rest => u.tokens ++ rest.tokens

def Summands.tokens : Summands → List Lexeme
  | .done => []
  | .more sign span t rest => ⟨sign.token, span⟩ :: (t.tokens ++ rest.tokens)

def Expr.tokens : Expr → List Lexeme
  | .mk t rest => t.tokens ++ rest.tokens

end

mutual

def Unary.tree : Unary → Index
  | .neg minus e => .neg e.tree (extent (Symbol.minus.lexeme minus :: e.tokens))
  | .int n => .int n
  | .var x => .var x
  | .brackets _ e _ => e.tree

/-- All operators associate to the left: what stands before a sign is its left operand. -/
def Factors.tree (left : Index) : Factors → Index
  | .done => left
  | .more sign _ u rest => rest.tree (.binary sign.op left u.tree)

def Term.tree : Term → Index
  | .mk u rest => rest.tree u.tree

def Summands.tree (left : Index) : Summands → Index
  | .done => left
  | .more sign _ t rest => rest.tree (.binary sign.op left t.tree)

def Expr.tree : Expr → Index
  | .mk t rest => rest.tree t.tree

end

/-- `i - -j * k - i` -/
example (i j k : Ident) (at₀ : Span) : (Expr.mk (.mk (.var i) .done)
      (.more .minus at₀ (.mk (.neg at₀ (.var j)) (.more .star at₀ (.var k) .done))
        (.more .minus at₀ (.mk (.var i) .done) .done))).tree =
    .binary .sub (.binary .sub (.var i)
      (.binary .mul (.neg (.var j) ⟨at₀.start, j.span.stop⟩) (.var k))) (.var i) :=
  rfl

/-! ## Loops -/

structure Signed where
  minus : Option Span
  number : Number

namespace Signed

def tokens (n : Signed) : List Lexeme :=
  (n.minus.elim [] fun span => [Symbol.minus.lexeme span]) ++ [n.number.lexeme]

def tree (n : Signed) : Int64 := if n.minus.isSome then -n.number.value else n.number.value

end Signed

def accessKeyword : AccessKind → Keyword
  | .read => .read
  | .write => .write

structure Access where
  kind : AccessKind
  keyword : Span
  array : Ident
  left : Span
  indices : CommaList Expr
  right : Span

namespace Access

def tokens (a : Access) : List Lexeme :=
  (accessKeyword a.kind).lexeme a.keyword :: a.array.lexeme :: Symbol.lbracket.lexeme a.left ::
    (a.indices.tokens Expr.tokens ++ [Symbol.rbracket.lexeme a.right])

def tree (a : Access) : Source.Access :=
  ⟨a.kind, a.array, a.indices.tree Expr.tree, extent a.tokens⟩

end Access

/-- A loop from its variable to the first of its lines. -/
structure Head where
  var : Ident
  equals : Span
  lower : Signed
  upTo : Span
  upper : Signed
  step : Option (Span × Number)
  pipeline : Option Span
  left : Span
  blank : List Span

namespace Head

def tokens (h : Head) : List Lexeme :=
  h.var.lexeme :: Symbol.equals.lexeme h.equals ::
    (h.lower.tokens ++ Keyword.upTo.lexeme h.upTo ::
      (h.upper.tokens ++
        ((h.step.elim [] fun (span, n) => [Keyword.step.lexeme span, n.lexeme]) ++
          ((h.pipeline.elim [] fun span => [Keyword.pipeline.lexeme span]) ++
            Symbol.lbrace.lexeme h.left :: h.blank.map newline))))

/-- The head of a loop with this extent. -/
def tree (h : Head) (span : Span) : LoopHead :=
  ⟨h.var, h.lower.tree, h.upper.tree, h.step.map (·.2), h.pipeline.isSome, span⟩

end Head

mutual

inductive Loop where
  | mk (keyword : Span) (head : Head) (items : Lines Item) (right : Span)

inductive Item where
  | loop (l : Loop)
  | access (a : Access)

end

/-- The lines of a loop. -/
abbrev Items := Lines Item

mutual

def Loop.tokens : Loop → List Lexeme
  | .mk keyword head items right =>
    Keyword.loop.lexeme keyword ::
      (head.tokens ++ (Items.tokens items ++ [Symbol.rbrace.lexeme right]))

def Item.tokens : Item → List Lexeme
  | .loop l => l.tokens
  | .access a => a.tokens

def Items.tokens : Items → List Lexeme
  | .done => []
  | .last i => i.tokens
  | .next i first blank rest =>
    i.tokens ++ newline first :: (blank.map newline ++ Items.tokens rest)

end

mutual

def Loop.tree : Loop → LoopHead × LoopBody
  | .mk keyword head items right =>
    (head.tree (extent (Loop.mk keyword head items right).tokens), Items.tree items)

/-- An item before the rest of a body. -/
def Item.tree : Item → LoopBody → LoopBody
  | .loop l => .loop l.tree.1 l.tree.2
  | .access a => .access a.tree

def Items.tree : Items → LoopBody
  | .done => .done
  | .last i => i.tree .done
  | .next i _ _ rest => i.tree (Items.tree rest)

end

theorem Items.tokens_eq (i : Items) : i.tokens = Lines.tokens Item.tokens i := by
  induction i with
  | done => rw [Items.tokens, Lines.tokens]
  | last i => rw [Items.tokens, Lines.tokens]
  | next i first blank rest ih => rw [Items.tokens, Lines.tokens, ih]

/-- The body that items make up one after the other. -/
def bodyOf (items : List (LoopBody → LoopBody)) : LoopBody :=
  items.foldr (fun item rest => item rest) .done

theorem Items.tree_eq (i : Items) : i.tree = bodyOf (Lines.tree Item.tree i) := by
  induction i with
  | done => rfl
  | last i => rfl
  | next i first blank rest ih => rw [Items.tree, ih, Lines.tree, bodyOf, bodyOf, List.foldr_cons]

/-! ## Statements -/

structure Setting where
  keyword : Span
  name : Ident
  equals : Span
  value : SettingValue

namespace Setting

def tokens (s : Setting) : List Lexeme :=
  [Keyword.set.lexeme s.keyword, s.name.lexeme, Symbol.equals.lexeme s.equals,
    match s.value with
    | .int n => n.lexeme
    | .ident x => x.lexeme]

def tree (s : Setting) : Decl := .setting s.name s.value

end Setting

structure Array where
  keyword : Span
  name : Ident
  left : Span
  shape : CommaList Number
  right : Span
  colon : Span
  elementType : Ident
  space : Option (Span × Number)

namespace Array

def tokens (a : Array) : List Lexeme :=
  Keyword.array.lexeme a.keyword :: a.name.lexeme :: Symbol.lbracket.lexeme a.left ::
    (a.shape.tokens (fun n => [n.lexeme]) ++ Symbol.rbracket.lexeme a.right ::
      Symbol.colon.lexeme a.colon :: a.elementType.lexeme ::
        a.space.elim [] fun (span, n) => [Symbol.atSign.lexeme span, n.lexeme])

def tree (a : Array) : Decl :=
  .array ⟨a.name, a.shape.tree id, a.elementType, a.space.map (·.2)⟩

end Array

structure Names where
  left : Span
  all : Option (CommaList Ident)
  right : Span

namespace Names

def tokens (n : Names) : List Lexeme :=
  Symbol.lparen.lexeme n.left ::
    ((n.all.elim [] fun l => l.tokens fun x => [x.lexeme]) ++ [Symbol.rparen.lexeme n.right])

def tree (n : Names) : List Ident := n.all.elim [] fun l => l.tree id

end Names

structure Node where
  keyword : Span
  name : Ident
  inputs : Names
  outputs : Option (Span × Names)

namespace Node

def tokens (n : Node) : List Lexeme :=
  Keyword.node.lexeme n.keyword :: n.name.lexeme ::
    (n.inputs.tokens ++ n.outputs.elim [] fun (span, l) => Symbol.arrow.lexeme span :: l.tokens)

def tree (n : Node) : Source.Node :=
  ⟨n.name, n.inputs.tree, n.outputs.elim [] fun (_, l) => l.tree, extent n.tokens⟩

end Node

structure Region where
  keyword : Span
  name : Ident
  left : Span
  blank : List Span
  nodes : Lines Node
  right : Span

namespace Region

def tokens (r : Region) : List Lexeme :=
  Keyword.region.lexeme r.keyword :: r.name.lexeme ::
    (Symbol.lbrace.lexeme r.left :: r.blank.map newline ++
      (r.nodes.tokens Node.tokens ++ [Symbol.rbrace.lexeme r.right]))

def tree (r : Region) : Decl := .region r.name (r.nodes.tree Node.tree)

end Region

inductive Statement where
  | setting (s : Setting)
  | array (a : Array)
  | loop (l : Loop)
  | region (r : Region)

namespace Statement

def tokens : Statement → List Lexeme
  | setting s => s.tokens
  | array a => a.tokens
  | loop l => l.tokens
  | region r => r.tokens

def decl : Statement → Decl
  | setting s => s.tree
  | array a => a.tree
  | loop l => .loop l.tree.1 l.tree.2
  | region r => r.tree

def tree (s : Statement) : Source.Statement := ⟨s.decl, extent s.tokens⟩

end Statement

structure Program where
  blank : List Span
  statements : Lines Statement

namespace Program

def tokens (p : Program) : List Lexeme :=
  p.blank.map newline ++ p.statements.tokens Statement.tokens

/-- The program in a source of this many bytes. -/
def tree (p : Program) (length : Nat) : Source.Program :=
  ⟨p.statements.tree Statement.tree, tokensSpan p.tokens length⟩

end Program

end Phrase

end Bankflow.Source
