import Bankflow.Source.Cursor
import Bankflow.Source.Lexer

/-!
# Parsing

The grammar, with `nl` for any number of newlines and `lines x` for items `x` on
lines of their own:

    program   nl, lines statement, nl, end
    statement set | array | loop | region
    set       "set" name "=" (number | name)
    array     "array" name "[" number ("," number)* "]" ":" name ("@" number)?
    loop      "loop" name "=" signed "to" signed ("step" number)? "pipeline"?
              block(loop | access)
    access    ("read" | "write") name "[" expr ("," expr)* "]"
    region    "region" name block(node)
    node      "node" name names ("->" names)?
    names     "(" (name ("," name)*)? ")"
    signed    "-"? number
    expr      term (("+" | "-") term)*
    term      unary (("*" | "mod" | "floordiv" | "ceildiv") unary)*
    unary     "-" unary | number | name | "(" expr ")"

where `block(x)` is `lines x` between braces, with newlines around them. All
operators associate to the left.

`parse` reads a source. Stray characters are reported and read over, so a source
can have errors and a program at once; a syntax error leaves no program.
-/

namespace Bankflow.Source

/-! ## Index expressions -/

def sumOp : Token → Option IndexOp
  | .symbol .plus => some .add
  | .symbol .minus => some .sub
  | _ => none

def productOp : Token → Option IndexOp
  | .symbol .star => some .mul
  | .keyword .mod => some .mod
  | .keyword .floorDiv => some .floorDiv
  | .keyword .ceilDiv => some .ceilDiv
  | _ => none

mutual

/-- `"-" unary | number | name | "(" expr ")"` -/
def unary (s : Cursor) : Except Failure (Parsed s Index) :=
  match s.take? (exactly (.symbol .minus)) with
  | some t =>
    match unary t.next with
    | .error e => .error e
    | .ok a => .ok (t.after ⟨.neg a.value ⟨t.span.start, a.next.stop⟩, a.next, a.le⟩)
  | none =>
    match s.take? intValue with
    | some t => .ok ⟨.int ⟨t.value, t.span⟩, t.next, Nat.le_of_lt t.lt⟩
    | none =>
      match s.take? identName with
      | some t => .ok ⟨.var ⟨t.value, t.span⟩, t.next, Nat.le_of_lt t.lt⟩
      | none =>
        match s.take? (exactly (.symbol .lparen)) with
        | none =>
          let tried := [.symbol .minus, .something, .ident, .symbol .lparen]
          .error ⟨s.rest, (tried.foldl Cursor.miss s).missed⟩
        | some t =>
          match expr t.next with
          | .error e => .error e
          | .ok a =>
            match symbol .rparen a.next with
            | .error e => .error e
            | .ok c => .ok (t.after (a.after ⟨a.value, c.next, c.le⟩))
termination_by 3 * s.size
decreasing_by all_goals have := t.lt; omega

/-- More factors after `left`, each after an operator. -/
def products (left : Index) (s : Cursor) : Except Failure (Parsed s Index) :=
  match s.take? productOp with
  | none => .ok ⟨left, s.miss .something, Nat.le_refl _⟩
  | some t =>
    match unary t.next with
    | .error e => .error e
    | .ok a =>
      match products (.binary t.value left a.value) a.next with
      | .error e => .error e
      | .ok r => .ok (t.after (a.after r))
termination_by 3 * s.size
decreasing_by
  · have := t.lt; omega
  · have := t.lt; have := a.le; omega

/-- `unary (productOp unary)*` -/
def term (s : Cursor) : Except Failure (Parsed s Index) :=
  match unary s with
  | .error e => .error e
  | .ok a =>
    match products a.value a.next with
    | .error e => .error e
    | .ok r => .ok (a.after r)
termination_by 3 * s.size + 1
decreasing_by
  · omega
  · have := a.le; omega

/-- More summands after `left`, each after a sign. -/
def sums (left : Index) (s : Cursor) : Except Failure (Parsed s Index) :=
  match s.take? sumOp with
  | none => .ok ⟨left, s.miss .something, Nat.le_refl _⟩
  | some t =>
    match term t.next with
    | .error e => .error e
    | .ok a =>
      match sums (.binary t.value left a.value) a.next with
      | .error e => .error e
      | .ok r => .ok (t.after (a.after r))
termination_by 3 * s.size
decreasing_by
  · have := t.lt; omega
  · have := t.lt; have := a.le; omega

/-- `term (sumOp term)*` -/
def expr (s : Cursor) : Except Failure (Parsed s Index) :=
  match term s with
  | .error e => .error e
  | .ok a =>
    match sums a.value a.next with
    | .error e => .error e
    | .ok r => .ok (a.after r)
termination_by 3 * s.size + 2
decreasing_by
  · omega
  · have := a.le; omega

end

/-! ## Loops -/

/-- `"-"? number` -/
def signed : Rule Int64 := do
  let minus ← symbol? .minus
  let n ← int
  return if minus.isSome then -n.value else n.value

/-- A step, if there is one. -/
def stepPart : Rule (Option Number) := do
  match ← keyword? .step with
  | some _ => some <$> int
  | none => return none

/-- The opening brace of a block and the newlines after it. -/
def openBlock : Rule Unit := do
  discard <| symbol .lbrace
  newlines

/-- The newlines before the closing brace of a block, and the brace. -/
def closeBlock : Rule Unit := do
  newlines
  discard <| symbol .rbrace

/-- A loop from its variable to its body, with the span left open: `start` is
where its first token starts. -/
def loopHead (start : Nat) : Rule LoopHead := do
  let var ← ident
  discard <| symbol .equals
  let lower ← signed
  discard <| keyword .upTo
  let upper ← signed
  let step ← stepPart
  let pipeline ← keyword? .pipeline
  openBlock
  return ⟨var, lower, upper, step, pipeline.isSome, ⟨start, start⟩⟩

/-- The kind of an access and where it starts, if there is one. -/
def accessKind? : Rule (Option (AccessKind × Span)) := do
  match ← keyword? .read with
  | some span => return some (.read, span)
  | none =>
    match ← keyword? .write with
    | some span => return some (.write, span)
    | none => return none

/-- `("read" | "write") name "[" expr ("," expr)* "]"`, if there is one. -/
def access? : Rule (Option Access) := do
  match ← accessKind? with
  | none => return none
  | some (kind, span) =>
    let array ← ident
    discard <| symbol .lbracket
    let indices ← commaList expr
    discard <| symbol .rbracket
    let stop ← Rule.here
    return some ⟨kind, array, indices, ⟨span.start, stop⟩⟩

mutual

/-- A loop with its body, if there is one. -/
def loop? (s : Cursor) : Except Failure (Parsed s (Option (LoopHead × LoopBody))) :=
  match s.take? (exactly (.keyword .loop)) with
  | none => .ok ⟨none, s.miss (.keyword .loop), Nat.le_refl _⟩
  | some t =>
    match loopHead t.span.start t.next with
    | .error e => .error e
    | .ok h =>
      match body h.next with
      | .error e => .error e
      | .ok b =>
        match closeBlock b.next with
        | .error e => .error e
        | .ok c =>
          let head := { h.value with span := ⟨t.span.start, c.next.stop⟩ }
          .ok (t.after (h.after (b.after ⟨some (head, b.value), c.next, c.le⟩)))
termination_by 3 * s.size
decreasing_by have := t.lt; have := h.le; omega

/-- The loop or access at the cursor, put before the rest of a body. -/
def item? (s : Cursor) : Except Failure (Parsed s (Option (LoopBody → LoopBody))) :=
  match loop? s with
  | .error e => .error e
  | .ok l =>
    match l.value with
    | some (head, inner) => .ok ⟨some (.loop head inner), l.next, l.le⟩
    | none =>
      match access? l.next with
      | .error e => .error e
      | .ok a => .ok (l.after ⟨a.value.map .access, a.next, a.le⟩)
termination_by 3 * s.size + 1

/-- Loops and accesses on lines of their own. -/
def body (s : Cursor) : Except Failure (Parsed s LoopBody) :=
  match item? s with
  | .error e => .error e
  | .ok a =>
    match a.value with
    | none => .ok ⟨.done, a.next, a.le⟩
    | some item =>
      match a.next.take? (exactly .newline) with
      | none => .ok ⟨item .done, a.next.miss .newline, a.le⟩
      | some t =>
        match newlines t.next with
        | .error e => .error e
        | .ok n =>
          match body n.next with
          | .error e => .error e
          | .ok r => .ok (a.after (t.after (n.after ⟨item r.value, r.next, r.le⟩)))
termination_by 3 * s.size + 2
decreasing_by
  · omega
  · have := t.lt; have := n.le; have := a.le; omega

end

/-! ## Statements -/

/-- `"set" name "=" (number | name)`, if there is one. -/
def set? : Rule (Option Statement) := do
  match ← keyword? .set with
  | none => return none
  | some span =>
    let name ← ident
    discard <| symbol .equals
    let value : SettingValue ←
      match ← int? with
      | some n => pure (.int n)
      | none => .ident <$> ident
    return some ⟨.setting name value, ⟨span.start, ← Rule.here⟩⟩

/-- `"array" name "[" number ("," number)* "]" ":" name ("@" number)?`, if there
is one. -/
def array? : Rule (Option Statement) := do
  match ← keyword? .array with
  | none => return none
  | some span =>
    let name ← ident
    discard <| symbol .lbracket
    let shape ← commaList int
    discard <| symbol .rbracket
    discard <| symbol .colon
    let elementType ← ident
    let memorySpace : Option Number ←
      match ← symbol? .atSign with
      | some _ => some <$> int
      | none => pure none
    let stop ← Rule.here
    return some ⟨.array ⟨name, shape, elementType, memorySpace⟩, ⟨span.start, stop⟩⟩

/-- `"(" (name ("," name)*)? ")"` -/
def names : Rule (List Ident) := do
  discard <| symbol .lparen
  let all : List Ident ←
    match ← ident? with
    | some x => (x :: ·) <$> moreItems ident
    | none => pure []
  discard <| symbol .rparen
  return all

/-- `"node" name names ("->" names)?`, if there is one. -/
def node? : Rule (Option Node) := do
  match ← keyword? .node with
  | none => return none
  | some span =>
    let name ← ident
    let inputs ← names
    let outputs : List Ident ←
      match ← symbol? .arrow with
      | some _ => names
      | none => pure []
    return some ⟨name, inputs, outputs, ⟨span.start, ← Rule.here⟩⟩

/-- `"region" name block(node)`, if there is one. -/
def region? : Rule (Option Statement) := do
  match ← keyword? .region with
  | none => return none
  | some span =>
    let name ← ident
    openBlock
    let nodes ← lines node?
    closeBlock
    return some ⟨.region name nodes, ⟨span.start, ← Rule.here⟩⟩

/-- A loop as a statement, if there is one. -/
def loopStatement? : Rule (Option Statement) := do
  match ← loop? with
  | none => return none
  | some (head, body) => return some ⟨.loop head body, head.span⟩

/-- The first of two rules that finds something. -/
def Rule.orElse {α : Type} (a b : Rule (Option α)) : Rule (Option α) := do
  match ← a with
  | some x => return some x
  | none => b

def statement? : Rule (Option Statement) :=
  set?.orElse (array?.orElse (loopStatement?.orElse region?))

/-- Nothing more. -/
def endOfInput : Rule Unit := fun s =>
  match s.rest with
  | [] => (pure () : Rule Unit) s
  | _ :: _ => .error ⟨s.rest, (s.miss .endOfInput).missed⟩

def statements : Rule (List Statement) := do
  newlines
  let all ← lines statement?
  newlines
  endOfInput
  return all

/-! ## Whole sources -/

/-- From the first token to the last; the end of the source without tokens. -/
def tokensSpan (tokens : List Lexeme) (length : Nat) : Span :=
  match tokens.head?, tokens.getLast? with
  | some a, some b => ⟨a.span.start, b.span.stop⟩
  | _, _ => ⟨length, length⟩

/-- The syntax error of a failure in a source of this many bytes. -/
def Failure.error (f : Failure) (length : Nat) : SyntaxError :=
  match f.rest with
  | l :: _ => ⟨l.span, .unexpected (some l.token) f.expected⟩
  | [] => ⟨⟨length, length⟩, .unexpected none f.expected⟩

/-- The program that tokens make up, in a source of this many bytes. -/
def programOf (tokens : List Lexeme) (length : Nat) : Except SyntaxError Program :=
  match statements ⟨tokens, 0, []⟩ with
  | .error f => .error (f.error length)
  | .ok r => .ok ⟨r.value, tokensSpan tokens length⟩

/-- A parsed source. -/
structure Result where
  program : Option Program
  errors : List SyntaxError
  deriving DecidableEq, Repr

def parse (source : String) : Result :=
  let lexed := lex source
  match programOf lexed.tokens source.utf8ByteSize with
  | .ok p => ⟨some p, lexed.errors⟩
  | .error e => ⟨none, lexed.errors ++ [e]⟩

end Bankflow.Source
