import Bankflow.Source.Token
import Bankflow.Text.Quoted

/-!
# Errors of lexing and parsing
-/

namespace Bankflow.Source

/-- What the parser would have taken at some place. -/
inductive Expected where
  | keyword (k : Keyword)
  | symbol (s : Symbol)
  | ident
  | newline
  /-- A number or one of several operators. -/
  | something
  | endOfInput
  deriving DecidableEq, Repr

def Expected.text : Expected → String
  | keyword k => "'" ++ k.text ++ "'"
  | symbol s => "'" ++ s.text ++ "'"
  | ident => "'<ident>'"
  | newline => "'<newline>'"
  | something => "something else"
  | endOfInput => "end of input"

/-- A list of alternatives: commas between them, and `or` before the last. -/
def alternatives : List String → String
  | [] => ""
  | [a] => a
  | [a, b] => a ++ ", or " ++ b
  | a :: rest => a ++ ", " ++ alternatives rest

/-- What is wrong with the source. -/
inductive SyntaxProblem where
  /-- A character that starts no token, or a number that is too large. -/
  | stray (slice : String)
  /-- A token, or the end of the source, where something else belongs. -/
  | unexpected (found : Option Token) (expected : List Expected)
  deriving DecidableEq, Repr

def SyntaxProblem.message : SyntaxProblem → String
  | stray slice => "unexpected character: " ++ Text.quote slice
  | unexpected found expected =>
    let what := match found with
      | some t => "'" ++ t.text ++ "'"
      | none => "end of input"
    "found " ++ what ++ " expected " ++ alternatives (expected.map Expected.text)

structure SyntaxError where
  span : Span
  problem : SyntaxProblem
  deriving DecidableEq, Repr

def SyntaxError.message (e : SyntaxError) : String := e.problem.message

end Bankflow.Source
