import Bankflow.Span

/-!
# Tokens

The words and signs of the source language. A newline is a token: statements,
the items of a loop and the nodes of a region stand on lines of their own.
-/

namespace Bankflow.Source

/-- The reserved words. -/
inductive Keyword where
  | set
  | array
  | loop
  | upTo
  | step
  | pipeline
  | read
  | write
  | region
  | node
  | mod
  | floorDiv
  | ceilDiv
  deriving DecidableEq, Repr

namespace Keyword

def text : Keyword → String
  | set => "set"
  | array => "array"
  | loop => "loop"
  | upTo => "to"
  | step => "step"
  | pipeline => "pipeline"
  | read => "read"
  | write => "write"
  | region => "region"
  | node => "node"
  | mod => "mod"
  | floorDiv => "floordiv"
  | ceilDiv => "ceildiv"

def all : List Keyword :=
  [set, array, loop, upTo, step, pipeline, read, write, region, node, mod, floorDiv, ceilDiv]

/-- The keyword that a word is. -/
def ofText? (s : String) : Option Keyword := all.find? (·.text = s)

end Keyword

/-- The signs. -/
inductive Symbol where
  | arrow
  | atSign
  | colon
  | lparen
  | rparen
  | lbrace
  | rbrace
  | lbracket
  | rbracket
  | comma
  | equals
  | plus
  | minus
  | star
  deriving DecidableEq, Repr

namespace Symbol

def text : Symbol → String
  | arrow => "->"
  | atSign => "@"
  | colon => ":"
  | lparen => "("
  | rparen => ")"
  | lbrace => "\x7b"
  | rbrace => "\x7d"
  | lbracket => "["
  | rbracket => "]"
  | comma => ","
  | equals => "="
  | plus => "+"
  | minus => "-"
  | star => "*"

/-- The sign that is a single character. -/
def ofChar? : Char → Option Symbol
  | '@' => some atSign
  | ':' => some colon
  | '(' => some lparen
  | ')' => some rparen
  | '\x7b' => some lbrace
  | '\x7d' => some rbrace
  | '[' => some lbracket
  | ']' => some rbracket
  | ',' => some comma
  | '=' => some equals
  | '+' => some plus
  | '-' => some minus
  | '*' => some star
  | _ => none

end Symbol

inductive Token where
  | keyword (k : Keyword)
  | symbol (s : Symbol)
  /-- A number without sign. -/
  | int (value : Int64)
  | ident (name : String)
  /-- A run of line ends. -/
  | newline
  deriving DecidableEq, Repr

/-- How a token is named in a message. -/
def Token.text : Token → String
  | keyword k => k.text
  | symbol s => s.text
  | int v => toString v.toInt
  | ident _ => "<ident>"
  | newline => "<newline>"

/-- A token and where it stands. -/
structure Lexeme where
  token : Token
  span : Span
  deriving DecidableEq, Repr

end Bankflow.Source
