import Bankflow.Diagnostic
import Bankflow.Source.SyntaxError

/-!
# Issues

Everything that can be reported about a source, as causes: an `Issue` says what
is the matter and a `Finding` also where. How an issue is graded, coded and worded
stands here, once.
-/

namespace Bankflow

inductive Issue where
  | badSyntax (problem : Source.SyntaxProblem)
  | unknownArray (name : String)
  | unknownVariable (name : String)
  | duplicateArray (name : String)
  | shadowedVariable (name : String)
  | duplicateRegion (name : String)
  | wrongRank (array : String) (rank found : Nat)
  | emptyDimension (array : String)
  | zeroStep
  /-- A node of a region has the name of an earlier one, at offset `first`. -/
  | duplicateNode (node region : String) (first : Nat)
  | notBoolean (setting : String)
  | spaceOutOfRange (space : Int)
  | unknownSetting (name : String)
  | blockedNode (node buffer : String) (producers consumers : Nat)
  | illegalRegion (region : String) (pending total : Nat)
  | uncertifiedBanking (failures : List String)
  | uncertifiedSchedule (failures : List String)
  /-- A pass was run before there was a design. -/
  | noDesign (pass : String)
  deriving DecidableEq, Repr

/-- The settings that a source may set. -/
def knownSettings : List String := ["ignore_violations"]

def quoted (name : String) : String := "'" ++ name ++ "'"

namespace Issue

def severity : Issue → Severity
  | unknownSetting _ | blockedNode .. | illegalRegion .. => .warning
  | _ => .error

def code : Issue → Option String
  | badSyntax _ => some "E0001"
  | unknownArray _ => some "E0100"
  | unknownVariable _ => some "E0101"
  | duplicateArray _ | shadowedVariable _ | duplicateRegion _ => some "E0102"
  | wrongRank .. => some "E0103"
  | emptyDimension _ => some "E0104"
  | zeroStep => some "E0105"
  | duplicateNode .. => some "E0106"
  | notBoolean _ => some "E0107"
  | spaceOutOfRange _ => some "E0108"
  | unknownSetting _ => some "W0100"
  | blockedNode .. => some "W0200"
  | illegalRegion .. => some "W0201"
  | uncertifiedBanking _ => some "E0600"
  | uncertifiedSchedule _ => some "E0601"
  | noDesign _ => none

def message : Issue → String
  | badSyntax p => p.message
  | unknownArray x => "unknown array " ++ quoted x
  | unknownVariable x => "unknown induction variable " ++ quoted x
  | duplicateArray x => "duplicate array " ++ quoted x
  | shadowedVariable x => "induction variable " ++ quoted x ++ " shadows an enclosing loop"
  | duplicateRegion x => "duplicate region " ++ quoted x
  | wrongRank x rank found =>
    "expected " ++ toString rank ++ " indices for " ++ quoted x ++ ", found " ++ toString found
  | emptyDimension x => "array " ++ quoted x ++ " has a zero-sized dimension"
  | zeroStep => "loop step must be non-zero"
  | duplicateNode n r _ => "node " ++ quoted n ++ " declared twice in region " ++ quoted r
  | notBoolean x => quoted x ++ " expects a boolean"
  | spaceOutOfRange k => "memory space " ++ toString k ++ " is out of range"
  | unknownSetting x => "unknown setting " ++ quoted x ++ " ignored"
  | blockedNode n b p c =>
    "node " ++ quoted n ++ " not scheduled: buffer " ++ quoted b ++ " has " ++ toString p ++
      " producer(s) and " ++ toString c ++ " consumer(s)"
  | illegalRegion r pending total =>
    "region " ++ quoted r ++ " is not legal: " ++ toString pending ++ " of " ++ toString total ++
      " node(s) unscheduled"
  | uncertifiedBanking fs => "partition verification failed: " ++ ", ".intercalate fs
  | uncertifiedSchedule fs => "schedule verification failed: " ++ ", ".intercalate fs
  | noDesign p => "internal: " ++ p ++ " ran before resolve"

def hint : Issue → Option String
  | wrongRank x rank _ => some ("array " ++ quoted x ++ " has rank " ++ toString rank)
  | emptyDimension _ => some "every dimension must be at least 1"
  | duplicateNode _ _ first => some ("first declared at offset " ++ toString first)
  | notBoolean _ => some "use true, false, 1 or 0"
  | unknownSetting _ => some ("known settings: " ++ ", ".intercalate knownSettings)
  | blockedNode .. => some "set ignore_violations = true to schedule through it"
  | uncertifiedBanking _ | uncertifiedSchedule _ => some "this is an optimizer bug"
  | _ => none

end Issue

/-- An issue and where it is. -/
structure Finding where
  issue : Issue
  span : Span
  deriving DecidableEq, Repr

namespace Finding

def isError (f : Finding) : Bool := f.issue.severity = .error

def diagnostic (f : Finding) : Diagnostic :=
  ⟨f.issue.severity, f.issue.code, f.span, f.issue.message, f.issue.hint⟩

end Finding

end Bankflow
