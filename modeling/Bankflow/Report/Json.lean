import Bankflow.Json.Value
import Bankflow.Report.Basic

/-!
# Reports as JSON
-/

namespace Bankflow

open Json (Value)

def AccessKind.json (k : AccessKind) : Value := .str k.text

/-- The members that describe a mode. -/
def Mode.members : Mode → List (String × Value)
  | single => [("mode", .str "none")]
  | cyclic f => [("mode", .str "cyclic"), ("factor", .nat f)]
  | block f b => [("mode", .str "block"), ("factor", .nat f), ("block_size", .nat b)]

def DimChoice.json (c : DimChoice) : Value :=
  .obj ([
    ("dim", .nat c.dim),
    ("unique_indices", .nat c.distinct),
    ("max_distance", .nat c.spread)] ++ c.mode.members)

def ArrayReport.json (a : ArrayReport) : Value :=
  .obj [
    ("name", .str a.name),
    ("shape", .ofList .nat a.shape),
    ("element_type", .str a.elementType),
    ("memory_space", .nat a.space),
    ("layout", .ofOption .str a.layout),
    ("applied", .ofOption AccessKind.json a.applied),
    ("overwritten", .ofOption AccessKind.json a.overwritten),
    ("dims", .ofList DimChoice.json a.dims)]

def BankReport.json (b : BankReport) : Value :=
  .obj [
    ("nests", .ofList (.ofOption .str) b.nests),
    ("arrays", .ofList ArrayReport.json b.arrays)]

def NodeReport.json (n : NodeReport) : Value :=
  .obj [("name", .str n.name), ("region", .str n.region), ("level", .ofOption .nat n.level)]

def RegionReport.json (r : RegionReport) : Value :=
  .obj [("name", .str r.name), ("legal", .ofOption .bool r.legal), ("nodes", .ofList .str r.nodes)]

def ViolationReport.json (v : ViolationReport) : Value :=
  .obj [
    ("node", .str v.node),
    ("buffer", .str v.buffer),
    ("producers", .nat v.producers),
    ("consumers", .nat v.consumers)]

def ScheduleReport.json (s : ScheduleReport) : Value :=
  .obj [
    ("ignore_violations", .bool s.ignoreViolations),
    ("rounds", .nat s.rounds),
    ("assigned_per_round", .ofList .nat s.assigned),
    ("complete", .bool s.complete),
    ("nodes", .ofList NodeReport.json s.nodes),
    ("regions", .ofList RegionReport.json s.regions),
    ("violations", .ofList ViolationReport.json s.violations)]

def Diagnostic.json (d : Diagnostic) : Value :=
  .obj [
    ("level", .str d.severity.text),
    ("code", .ofOption .str d.code),
    ("message", .str d.message),
    ("start", .nat d.span.start),
    ("end", .nat d.span.stop)]

def Report.json (r : Report) : Value :=
  .obj [
    ("options", .obj [("ignore_violations", .bool r.options.ignoreViolations)]),
    ("partition", .ofOption BankReport.json r.banking),
    ("schedule", .ofOption ScheduleReport.json r.schedule),
    ("diagnostics", .ofList Diagnostic.json r.diagnostics)]

end Bankflow
