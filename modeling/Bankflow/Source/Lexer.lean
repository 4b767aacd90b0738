import Bankflow.Source.SyntaxError
import Bankflow.Word

/-!
# Cutting a source into tokens

The source is cut into pieces from left to right. Each piece is as long as its
kind allows: blanks and comments separate, everything else is a token or stray.

* `scan` gives the pieces of a text with their spans;
* `lex` sorts them into tokens and errors. A stray piece is left out of the
  tokens and stops nothing.
-/

namespace Bankflow.Source

/-- A blank that is not a line end. -/
def isBlank (c : Char) : Bool := c = ' ' || c = '\t' || c = '\r'

/-- A character that may start a name. -/
def startsName (c : Char) : Bool := c.isAlpha || c = '_'

/-- A character that may stand in a name. -/
def continuesName (c : Char) : Bool := c.isAlphanum || c = '_'

/-- The number that a run of digits denotes. -/
def decimal (digits : List Char) : Nat :=
  digits.foldl (fun n c => 10 * n + (c.toNat - '0'.toNat)) 0

/-- What a stretch of source text is. -/
inductive PieceKind where
  /-- Blanks or a comment. -/
  | separator
  | token (t : Token)
  | stray
  deriving DecidableEq, Repr

/-- The token of a run of digits, unless its number is too large. -/
def numberPiece (digits : List Char) : PieceKind :=
  match Word.ofInt? (decimal digits) with
  | some v => .token (.int v)
  | none => .stray

/-- The token of a word. -/
def wordPiece (word : List Char) : PieceKind :=
  let name := String.ofList word
  match Keyword.ofText? name with
  | some k => .token (.keyword k)
  | none => .token (.ident name)

/-- What the piece at the head of `c :: rest` is, and how many characters of
`rest` belong to it. -/
def piece (c : Char) (rest : List Char) : PieceKind × Nat :=
  if isBlank c then (.separator, (rest.takeWhile isBlank).length)
  else if c = '#' then (.separator, (rest.takeWhile (· ≠ '\n')).length)
  else if c = '\n' then (.token .newline, (rest.takeWhile (· = '\n')).length)
  else if c.isDigit then
    let digits := rest.takeWhile Char.isDigit
    (numberPiece (c :: digits), digits.length)
  else if startsName c then
    let tail := rest.takeWhile continuesName
    (wordPiece (c :: tail), tail.length)
  else if c = '-' ∧ rest.head? = some '>' then (.token (.symbol .arrow), 1)
  else match Symbol.ofChar? c with
    | some s => (.token (.symbol s), 0)
    | none => (.stray, 0)

/-- The number of bytes that characters take. -/
def width (cs : List Char) : Nat := cs.foldr (fun c n => c.utf8Size + n) 0

/-- A stretch of source text: what it is, where, and its characters. -/
structure Piece where
  kind : PieceKind
  span : Span
  chars : List Char
  deriving DecidableEq, Repr

/-- The pieces of a text that starts at offset `pos`. The first `covered`
characters belong to the piece before them. -/
def scan (pos covered : Nat) : List Char → List Piece
  | [] => []
  | c :: rest =>
    match covered with
    | k + 1 => scan (pos + c.utf8Size) k rest
    | 0 =>
      let (kind, more) := piece c rest
      let chars := c :: rest.take more
      ⟨kind, ⟨pos, pos + width chars⟩, chars⟩ :: scan (pos + c.utf8Size) more rest

def Piece.lexeme? (p : Piece) : Option Lexeme :=
  match p.kind with
  | .token t => some ⟨t, p.span⟩
  | _ => none

def Piece.error? (p : Piece) : Option SyntaxError :=
  match p.kind with
  | .stray => some ⟨p.span, .stray (String.ofList p.chars)⟩
  | _ => none

/-- The tokens of a source, and the errors met on the way. -/
structure Lexed where
  tokens : List Lexeme
  errors : List SyntaxError
  deriving DecidableEq, Repr

def lex (source : String) : Lexed :=
  let pieces := scan 0 0 source.toList
  ⟨pieces.filterMap Piece.lexeme?, pieces.filterMap Piece.error?⟩

end Bankflow.Source
