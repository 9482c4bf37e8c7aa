import CartFlow.Address
import CartFlow.Cartridge.Cursor
import CartFlow.Cartridge.Header
import CartFlow.Cartridge.Mapping
import CartFlow.Cartridge.PointerTable
import CartFlow.Command.Action
import CartFlow.Command.Basic
import CartFlow.Command.Batch
import CartFlow.Command.Console
import CartFlow.Command.Options
import CartFlow.Command.Run
import CartFlow.Command.Session
import CartFlow.Command.ValueList
import CartFlow.Counting
import CartFlow.Distinct
import CartFlow.Failure
import CartFlow.Files.FileSystem
import CartFlow.Files.Path
import CartFlow.Files.Pattern
import CartFlow.Flow.Block
import CartFlow.Flow.BlockGraph
import CartFlow.Flow.Stages
import CartFlow.Graph.Basic
import CartFlow.Graph.Dominators
import CartFlow.Graph.Loops
import CartFlow.Graph.NodeSet
import CartFlow.Graph.Outline
import CartFlow.Graph.Search
import CartFlow.Log
import CartFlow.Main
import CartFlow.Output.Document
import CartFlow.Output.Drawing
import CartFlow.Output.Json
import CartFlow.Output.Listing
import CartFlow.Processor.Attributes
import CartFlow.Processor.Catalogue
import CartFlow.Processor.Flags
import CartFlow.Processor.Mode
import CartFlow.Processor.Opcode
import CartFlow.Processor.Operand
import CartFlow.Proofs.Graph.Consistency
import CartFlow.Proofs.Graph.Dominance
import CartFlow.Proofs.Graph.Ways
import CartFlow.Quicksort
import CartFlow.Report.Analysis
import CartFlow.Report.Basic
import CartFlow.Report.CallGraph
import CartFlow.Report.Handler
import CartFlow.Report.Profile
import CartFlow.Report.Text
import CartFlow.Routine.Basic
import CartFlow.Routine.Decode
import CartFlow.Routine.Instruction
import CartFlow.Routine.Reader
import CartFlow.Settings.AddressText
import CartFlow.Settings.Basic
import CartFlow.Settings.Json
import CartFlow.Settings.Schema
import CartFlow.Text.Blank
import CartFlow.Text.Columns
import CartFlow.Text.Hex
import CartFlow.Text.Lowercase
import CartFlow.Text.Numeral
import CartFlow.Text.Printable
import CartFlow.Text.Quoted
import CartFlow.Text.Similar
import CartFlow.Text.Split
import CartFlow.Text.Utf8
import CartFlow.Proofs.Graph.DominatorTree
import CartFlow.Proofs.Routine.ReaderSteps
import CartFlow.Proofs.Routine.Coverage
import CartFlow.Proofs.Graph.Outline
import CartFlow.Proofs.Flow.BlockWalk
import CartFlow.Proofs.Report.Inversion
import CartFlow.Proofs.Flow.ControlFlow
import CartFlow.Proofs.Graph.Loops
import CartFlow.Proofs.Report.Verdict
import CartFlow.Proofs.Cartridge.Mapping
import CartFlow.Proofs.Processor.OpcodeTable
import CartFlow.Proofs.Routine.Decoding
import CartFlow.Proofs.Routine.Evaluation
import CartFlow.Proofs.Routine.Completeness
import CartFlow.Proofs.Routine.FlagTracking
import CartFlow.Proofs.Routine.OrderIndependence
import CartFlow.Proofs.Flow.Sketch
import CartFlow.Proofs.Flow.Layout
import CartFlow.Proofs.Flow.BlockRuns
import CartFlow.Proofs.Flow.BasicBlocks
import CartFlow.Proofs.Flow.Transfers
import CartFlow.Proofs.Flow.ShownFlow
import CartFlow.Proofs.Flow.Structure
import CartFlow.Proofs.Graph.NaturalLoops
import CartFlow.Proofs.Report.LaterStages
import CartFlow.Proofs.Graph.Operations
import CartFlow.Proofs.Routine.Encoding
import CartFlow.Proofs.Report.CallClosure
import CartFlow.Proofs.Report.Uncancelled
import CartFlow.Proofs.Report.Covered
import CartFlow.Proofs.Report.Generation
import CartFlow.Proofs.Graph.PassLimit
import CartFlow.Proofs.Report.ConditionalCalls
import CartFlow.Proofs.Routine.RecordedCalls
import CartFlow.Proofs.Report.Evaluation
import CartFlow.Proofs.Report.CallsInLoops
import CartFlow.Proofs.Report.CallsOnce
import CartFlow.Proofs.Report.CallDepth
import CartFlow.Proofs.Graph.Distances
import CartFlow.Proofs.Text.Hexadecimal
import CartFlow.Proofs.Routine.AssemblyText
import CartFlow.Proofs.Output.RoutineListing
import CartFlow.Proofs.Output.TreeListing
import CartFlow.Proofs.Cartridge.Requests
import CartFlow.Proofs.Routine.FallThrough
import CartFlow.Proofs.Routine.FirstCalls
import CartFlow.Proofs.Report.CallProfile
import CartFlow.Proofs.Processor.TableConflicts
import CartFlow.Proofs.Text.Numerals
import CartFlow.Proofs.Settings.AddressText
import CartFlow.Proofs.Flow.BlockNames
import CartFlow.Proofs.Output.LoopListing
import CartFlow.Proofs.Cartridge.PointerTable
import CartFlow.Proofs.Files.Places
import CartFlow.Proofs.Command.Actions
import CartFlow.Proofs.Command.Reports
import CartFlow.Proofs.Command.BatchRuns
import CartFlow.Proofs.Command.BatchFiles
