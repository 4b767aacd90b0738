import Bankflow.Bank.Certificate
import Bankflow.Bank.Layout
import Bankflow.Bank.Mode
import Bankflow.Bank.Plan
import Bankflow.Certificate
import Bankflow.CommandLine.Arguments
import Bankflow.CommandLine.Command
import Bankflow.CommandLine.FileSystem
import Bankflow.CommandLine.Files
import Bankflow.Compile.Pass
import Bankflow.Compile.State
import Bankflow.Dataflow.Graph
import Bankflow.Dataflow.Legality
import Bankflow.Dataflow.Schedule
import Bankflow.Design.Basic
import Bankflow.Design.OfProgram
import Bankflow.Design.Text
import Bankflow.Diagnostic
import Bankflow.Expr.Basic
import Bankflow.Expr.Linear
import Bankflow.Expr.Text
import Bankflow.Fault
import Bankflow.Issue
import Bankflow.Json.Value
import Bankflow.Loop.Body
import Bankflow.Loop.Nest
import Bankflow.Main
import Bankflow.Numbering
import Bankflow.Options
import Bankflow.Proofs.Bank.Certificate
import Bankflow.Proofs.Bank.Layout
import Bankflow.Proofs.Bank.Mode
import Bankflow.Proofs.Bank.Plan
import Bankflow.Proofs.Compile.Legality
import Bankflow.Proofs.Compile.Order
import Bankflow.Proofs.Dataflow.Certificate
import Bankflow.Proofs.Dataflow.Graph
import Bankflow.Proofs.Dataflow.Legality
import Bankflow.Proofs.Dataflow.Levels
import Bankflow.Proofs.Dataflow.Reach
import Bankflow.Proofs.Design.Findings
import Bankflow.Proofs.Design.OfProgram
import Bankflow.Proofs.Expr.Linear
import Bankflow.Proofs.Expr.Value
import Bankflow.Proofs.Source.Size
import Bankflow.Report.Basic
import Bankflow.Report.Json
import Bankflow.Report.Text
import Bankflow.Source.Cursor
import Bankflow.Source.Lexer
import Bankflow.Source.Parser
import Bankflow.Source.SyntaxError
import Bankflow.Source.Token
import Bankflow.Source.Tree
import Bankflow.Span
import Bankflow.Text.Printable
import Bankflow.Text.Quoted
import Bankflow.Word
import Bankflow.Proofs.Compile.Run
import Bankflow.Proofs.Design.Meaning
import Bankflow.Proofs.Source.Grammar
import Bankflow.Proofs.Source.Derivable
import Bankflow.Proofs.Source.Reading
import Bankflow.Proofs.Source.Unique
import Bankflow.Proofs.Design.LoopText
import Bankflow.Proofs.Design.RegionText
import Bankflow.Proofs.Design.Text
import Bankflow.Proofs.Dataflow.History
import Bankflow.Proofs.Dataflow.Sweeps
import Bankflow.Proofs.Dataflow.Due
import Bankflow.Proofs.Dataflow.Violations
import Bankflow.Proofs.Design.InOrder
import Bankflow.Proofs.Design.Resolved
import Bankflow.Proofs.Compile.Record
import Bankflow.Proofs.Compile.Independence
import Bankflow.Proofs.CommandLine.Agreement
import Bankflow.Proofs.Expr.Affine
import Bankflow.Proofs.Expr.ReadBack
import Bankflow.Proofs.Bank.Choice
import Bankflow.Proofs.Bank.Reordering
import Bankflow.Proofs.Dataflow.Confluence
import Bankflow.Proofs.Dataflow.Rounds
import Bankflow.Proofs.Dataflow.Reruns
import Bankflow.Proofs.Bank.InTurn
import Bankflow.Proofs.Bank.Interference
import Bankflow.Proofs.Source.Pieces
import Bankflow.Proofs.Source.FirstError
import Bankflow.Proofs.Bank.Restoring
import Bankflow.Proofs.Design.Unbound
import Bankflow.Proofs.Bank.Offsets
import Bankflow.Proofs.Compile.Frame
import Bankflow.Proofs.Design.Kinds
import Bankflow.Proofs.Design.Spans
import Bankflow.Proofs.Report.Blocks
import Bankflow.Proofs.Compile.Diagnostics
import Bankflow.Proofs.Expr.Failure
