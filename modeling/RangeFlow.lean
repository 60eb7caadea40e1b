import RangeFlow.Calls.Answers
import RangeFlow.Calls.Graph
import RangeFlow.Calls.Resolver
import RangeFlow.Cbor.Date
import RangeFlow.Cbor.Item
import RangeFlow.Cbor.Quantity
import RangeFlow.Cbor.Reader
import RangeFlow.Cbor.Slots
import RangeFlow.Cbor.Tag
import RangeFlow.Cbor.Writer
import RangeFlow.Check
import RangeFlow.Checker
import RangeFlow.Command.Folder
import RangeFlow.Command.Options
import RangeFlow.Command.Run
import RangeFlow.Comparison.Basic
import RangeFlow.Comparison.Named
import RangeFlow.Comparison.Region
import RangeFlow.Diagnose
import RangeFlow.Fault
import RangeFlow.Flow.Availability
import RangeFlow.Flow.BackEdge
import RangeFlow.Flow.Cache
import RangeFlow.Flow.Graph
import RangeFlow.Flow.Producer
import RangeFlow.Location
import RangeFlow.Log
import RangeFlow.Main
import RangeFlow.Notice
import RangeFlow.Ordered.Map
import RangeFlow.Ordered.Set
import RangeFlow.Program.Basic
import RangeFlow.Program.Constant
import RangeFlow.Program.Instr
import RangeFlow.Program.Lookup
import RangeFlow.Program.Operand
import RangeFlow.Program.Text
import RangeFlow.Program.Ty
import RangeFlow.Program.Writable
import RangeFlow.Range.Arith
import RangeFlow.Range.Avoid
import RangeFlow.Range.Basic
import RangeFlow.Range.Checked
import RangeFlow.Range.Conform
import RangeFlow.Range.Lattice
import RangeFlow.Range.Resize
import RangeFlow.Settings
import RangeFlow.Source.Build
import RangeFlow.Source.Grammar
import RangeFlow.Source.Reader
import RangeFlow.Source.Token
import RangeFlow.Source.Tree
import RangeFlow.Sweep.Facts
import RangeFlow.Sweep.Refine
import RangeFlow.Sweep.Run
import RangeFlow.Sweep.Seed
import RangeFlow.Sweep.State
import RangeFlow.Sweep.Transfer
import RangeFlow.Symbolic.Expr
import RangeFlow.Symbolic.Oracle
import RangeFlow.Table.Basic
import RangeFlow.Table.Binary
import RangeFlow.Table.Sheet
import RangeFlow.Table.Text
import RangeFlow.Text.Escaped
import RangeFlow.Text.Hex
import RangeFlow.Text.Integer
import RangeFlow.Text.Invisible
import RangeFlow.Text.Quoted
import RangeFlow.Width
import RangeFlow.Proofs.Calls.Backtrace
import RangeFlow.Proofs.Calls.Resolver
import RangeFlow.Proofs.Cbor.RoundTrip
import RangeFlow.Proofs.Check.Assignment
import RangeFlow.Proofs.Check.Definition
import RangeFlow.Proofs.Check.Lookup
import RangeFlow.Proofs.Check.Rearranged
import RangeFlow.Proofs.Check.Typing
import RangeFlow.Proofs.Comparison.Exact
import RangeFlow.Proofs.Comparison.Region
import RangeFlow.Proofs.Flow.Availability
import RangeFlow.Proofs.Flow.Forward
import RangeFlow.Proofs.Flow.Graph
import RangeFlow.Proofs.Flow.Loops
import RangeFlow.Proofs.Flow.Worklist
import RangeFlow.Proofs.Machine
import RangeFlow.Proofs.Ordered.Map
import RangeFlow.Proofs.Program.Addresses
import RangeFlow.Proofs.Program.Analysable
import RangeFlow.Proofs.Program.Locations
import RangeFlow.Proofs.Program.LoopFree
import RangeFlow.Proofs.Program.Rearranged
import RangeFlow.Proofs.Range.Arith
import RangeFlow.Proofs.Range.Attained
import RangeFlow.Proofs.Range.Avoid
import RangeFlow.Proofs.Range.Exact
import RangeFlow.Proofs.Range.Extend
import RangeFlow.Proofs.Range.Inhabited
import RangeFlow.Proofs.Range.Lattice
import RangeFlow.Proofs.Range.Member
import RangeFlow.Proofs.Range.Monotone
import RangeFlow.Proofs.Range.Outside
import RangeFlow.Proofs.Range.Queries
import RangeFlow.Proofs.Range.Resize
import RangeFlow.Proofs.Range.Smallest
import RangeFlow.Proofs.Source.Built
import RangeFlow.Proofs.Source.Given
import RangeFlow.Proofs.Source.Items
import RangeFlow.Proofs.Source.Lexeme
import RangeFlow.Proofs.Source.Phrases
import RangeFlow.Proofs.Source.Reading
import RangeFlow.Proofs.Source.Rebuilt
import RangeFlow.Proofs.Source.Reparse
import RangeFlow.Proofs.Source.Spelled
import RangeFlow.Proofs.Source.Spelling
import RangeFlow.Proofs.Source.Stable
import RangeFlow.Proofs.Sweep.Alike
import RangeFlow.Proofs.Sweep.Arrival
import RangeFlow.Proofs.Sweep.Carried
import RangeFlow.Proofs.Sweep.Composed
import RangeFlow.Proofs.Sweep.Edges
import RangeFlow.Proofs.Sweep.Fixpoint
import RangeFlow.Proofs.Sweep.Found
import RangeFlow.Proofs.Sweep.Gives
import RangeFlow.Proofs.Sweep.Known
import RangeFlow.Proofs.Sweep.Layout
import RangeFlow.Proofs.Sweep.Merge
import RangeFlow.Proofs.Sweep.Moments
import RangeFlow.Proofs.Sweep.Monad
import RangeFlow.Proofs.Sweep.Rearranged
import RangeFlow.Proofs.Sweep.Refine
import RangeFlow.Proofs.Sweep.Report
import RangeFlow.Proofs.Sweep.Returns
import RangeFlow.Proofs.Sweep.Rounds
import RangeFlow.Proofs.Sweep.Sees
import RangeFlow.Proofs.Sweep.Seed
import RangeFlow.Proofs.Sweep.Settles
import RangeFlow.Proofs.Sweep.Soundness
import RangeFlow.Proofs.Sweep.Told
import RangeFlow.Proofs.Sweep.Transfer
import RangeFlow.Proofs.Sweep.Widths
import RangeFlow.Proofs.Sweep.Yields
import RangeFlow.Proofs.Symbolic.Describe
import RangeFlow.Proofs.Symbolic.Value
import RangeFlow.Proofs.Symbolic.Verdict
import RangeFlow.Proofs.Table.Binary
import RangeFlow.Proofs.Table.Growth
import RangeFlow.Proofs.Table.History
import RangeFlow.Proofs.Width
