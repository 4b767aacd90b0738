import Bankflow.Design.Text
import Bankflow.Report.Basic

/-!
# Text of reports
-/

namespace Bankflow

namespace ArrayReport

def dimLine (c : DimChoice) : String :=
  "  dim " ++ toString c.dim ++ ": " ++ c.mode.text ++ " (unique " ++ toString c.distinct ++
    ", distance " ++ toString c.distance ++ ")"

/-- Where the banking of an array comes from. -/
def origin (a : ArrayReport) : String :=
  match a.applied, a.overwritten with
  | none, _ => "not partitioned"
  | some kind, none => "from " ++ kind.text ++ "s"
  | some kind, some old => "from " ++ kind.text ++ "s (overwrote " ++ old.text ++ "s)"

def lines (a : ArrayReport) : List String :=
  (a.name ++ shapeText a.shape ++ ": " ++ a.origin) :: a.dims.map dimLine ++
    match a.layout with
    | some l => ["  layout " ++ l]
    | none => []

end ArrayReport

def BankReport.lines (b : BankReport) : List String := b.arrays.flatMap ArrayReport.lines

namespace ScheduleReport

def nodeLine (n : NodeReport) : String :=
  match n.level with
  | some l => "  " ++ n.name ++ " level " ++ toString l
  | none => "  " ++ n.name ++ " unscheduled"

def legalText : Option Bool → String
  | some true => "legal"
  | some false => "illegal"
  | none => "unchecked"

/-- The line of a region and those of the nodes that name it. -/
def regionLines (s : ScheduleReport) (r : RegionReport) : List String :=
  ("region " ++ r.name ++ " (" ++ legalText r.legal ++ ")") ::
    (s.nodes.filter (·.region = r.name)).map nodeLine

def lines (s : ScheduleReport) : List String :=
  s.regions.flatMap s.regionLines ++
    [toString s.rounds ++ " round(s), " ++
      (if s.complete then "all nodes scheduled" else "some nodes unscheduled")]

end ScheduleReport

namespace Report

/-- The text of the section on arrays. -/
def layoutText (r : Report) : String :=
  match r.banking with
  | some b => unlines b.lines
  | none => ""

/-- The text of the section on levels. -/
def levelsText (r : Report) : String :=
  match r.schedule with
  | some s => unlines s.lines
  | none => ""

def boolText (b : Bool) : String := if b then "true" else "false"

def text (r : Report) : String :=
  let banking := match r.banking with
    | some b => unlines (["", "== array partition =="] ++ b.lines)
    | none => ""
  let schedule := match r.schedule with
    | some s => unlines (["", "== dataflow schedule =="] ++ s.lines)
    | none => ""
  "ignore_violations = " ++ boolText r.options.ignoreViolations ++ "\n" ++ banking ++ schedule

end Report

end Bankflow
