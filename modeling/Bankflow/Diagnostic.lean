import Bankflow.Span

/-!
# Diagnostics
-/

namespace Bankflow

inductive Severity where
  | error
  | warning
  deriving DecidableEq, Repr

def Severity.text : Severity → String
  | error => "error"
  | warning => "warning"

/-- A message about a stretch of the source. -/
structure Diagnostic where
  severity : Severity
  /-- A stable code, by which messages of one kind can be recognised. -/
  code : Option String
  span : Span
  message : String
  hint : Option String
  deriving DecidableEq, Repr

namespace Diagnostic

def isError (d : Diagnostic) : Bool := d.severity = .error

def text (d : Diagnostic) : String :=
  let code := match d.code with
    | some c => "[" ++ c ++ "]"
    | none => ""
  let hint := match d.hint with
    | some h => "\n  hint: " ++ h
    | none => ""
  d.severity.text ++ code ++ ": " ++ d.message ++ hint

end Diagnostic

end Bankflow
