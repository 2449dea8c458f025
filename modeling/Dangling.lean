import Dangling.Analysis.CallCycles
import Dangling.Analysis.Session
import Dangling.Cli.Command
import Dangling.Cli.Page
import Dangling.Cli.Request
import Dangling.Cli.Switch
import Dangling.Constant.Term
import Dangling.Disk.Disk
import Dangling.Disk.FileTree
import Dangling.Disk.Pattern
import Dangling.Disk.Route
import Dangling.Finding.Finding
import Dangling.Finding.Ledger
import Dangling.Graph.Colouring
import Dangling.Graph.Components
import Dangling.Graph.Digraph
import Dangling.Graph.FunctionGraph
import Dangling.Graph.Nodes
import Dangling.Json.Reader
import Dangling.Json.Value
import Dangling.Json.Writer
import Dangling.Library.Callee
import Dangling.Library.Model
import Dangling.Library.Standard
import Dangling.Main
import Dangling.Mir.Body
import Dangling.Mir.Document
import Dangling.Mir.Document.Fault
import Dangling.Mir.Instruction
import Dangling.Mir.Location
import Dangling.Mir.Operand
import Dangling.Mir.Operand.Reader
import Dangling.Mir.Place
import Dangling.Mir.Place.Reader
import Dangling.Mir.Program
import Dangling.Mir.Rvalue
import Dangling.Mir.Ty
import Dangling.Mir.Ty.Fault
import Dangling.Mir.Ty.Reader
import Dangling.Number.Binary64
import Dangling.Order.Distinct
import Dangling.Order.Sorted
import Dangling.Path.Assign
import Dangling.Path.Call
import Dangling.Path.Progress
import Dangling.Path.State
import Dangling.Proofs.Analysis.CallCycles
import Dangling.Proofs.Analysis.Intervention
import Dangling.Proofs.Analysis.Lockstep
import Dangling.Proofs.Analysis.Nesting
import Dangling.Proofs.Analysis.RequestOrder
import Dangling.Proofs.Analysis.Stack
import Dangling.Proofs.Analysis.WalkedCalls
import Dangling.Proofs.Graph.Components
import Dangling.Proofs.Graph.FunctionGraph
import Dangling.Proofs.Graph.Nodes
import Dangling.Proofs.Graph.Search
import Dangling.Proofs.Order.Sorted
import Dangling.Proofs.Path.Alarms
import Dangling.Proofs.Path.Classes
import Dangling.Proofs.Path.Coherence
import Dangling.Proofs.Path.Course
import Dangling.Proofs.Path.Footprint
import Dangling.Proofs.Path.Released
import Dangling.Proofs.Path.State
import Dangling.Proofs.Path.Untainted
import Dangling.Proofs.Path.Values
import Dangling.Proofs.Summary.Cache
import Dangling.Proofs.Walk.AllNames
import Dangling.Proofs.Walk.Budget
import Dangling.Proofs.Walk.Dialogue
import Dangling.Proofs.Walk.Explore
import Dangling.Proofs.Walk.History
import Dangling.Proofs.Walk.Pathwise
import Dangling.Proofs.Walk.Questions
import Dangling.Proofs.Walk.Quiet
import Dangling.Proofs.Walk.SecondOwner
import Dangling.Proofs.Walk.Tally
import Dangling.Proofs.Walk.Unrolling
import Dangling.Scan.Result
import Dangling.Scan.Sarif
import Dangling.Scan.Scanner
import Dangling.Summary.Cache
import Dangling.Summary.Report
import Dangling.Summary.Summary
import Dangling.Text.Blank
import Dangling.Text.Digit
import Dangling.Text.Numeral
import Dangling.Text.Quoted
import Dangling.Text.Range
import Dangling.Text.Utf8
import Dangling.Text.Visible
import Dangling.Text.Word
import Dangling.Walk.Run
import Dangling.Walk.Visit
import Dangling.Proofs.Analysis.Replay
import Dangling.Proofs.Analysis.Recursion
import Dangling.Proofs.Walk.Limits
import Dangling.Proofs.Analysis.Memo
import Dangling.Proofs.Analysis.Journal
import Dangling.Proofs.Analysis.Once
import Dangling.Proofs.Analysis.BudgetGrowth
import Dangling.Proofs.Graph.Condensation
import Dangling.Proofs.Path.Writes
import Dangling.Proofs.Graph.Locals
import Dangling.Proofs.Guarded.Access
import Dangling.Proofs.Guarded.Assign
import Dangling.Proofs.Guarded.Call
import Dangling.Proofs.Guarded.Walk
import Dangling.Proofs.Walk.Unfailing
import Dangling.Proofs.Analysis.Unfailing
import Dangling.Proofs.Path.MovedOut
import Dangling.Proofs.Walk.Constants
import Dangling.Proofs.Mir.TypeScan
import Dangling.Proofs.Mir.Declared
import Dangling.Proofs.Mir.Entries
import Dangling.Proofs.Mir.Containment
import Dangling.Proofs.Constant.Folding
import Dangling.Proofs.Constant.Words
import Dangling.Proofs.Constant.Widths
import Dangling.Proofs.Text.Blank
import Dangling.Proofs.Text.Numeral
import Dangling.Proofs.Path.Frame
import Dangling.Proofs.Path.Sources
import Dangling.Proofs.Walk.Provenance
import Dangling.Proofs.Walk.Conduct
import Dangling.Proofs.Walk.Parameters
import Dangling.Proofs.Walk.DeclaredTypes
import Dangling.Proofs.Mir.TypeTexts
import Dangling.Proofs.Mir.PlaceTexts
import Dangling.Proofs.Mir.OperandTexts
import Dangling.Proofs.Graph.Headers
import Dangling.Proofs.Mir.Histories
import Dangling.Proofs.Library.Generics
import Dangling.Proofs.Mir.Descent
import Dangling.Proofs.Mir.Finishing
import Dangling.Proofs.Graph.Colouring
import Dangling.Proofs.Analysis.CycleHeads
import Dangling.Proofs.Graph.Flattening
import Dangling.Proofs.Graph.Forest
import Dangling.Proofs.Graph.Addresses
import Dangling.Proofs.Path.Joins
import Dangling.Proofs.Path.Overwriting
import Dangling.Proofs.Library.NormalForm
