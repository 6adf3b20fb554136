import Lisplet.Builtin.Arithmetic
import Lisplet.Builtin.Collection
import Lisplet.Builtin.Comparison
import Lisplet.Builtin.Conversion
import Lisplet.CallStack
import Lisplet.Command
import Lisplet.Command.FileTree
import Lisplet.Command.Options
import Lisplet.Command.SelfCheck
import Lisplet.Datum
import Lisplet.Diagnostic
import Lisplet.Eval.Error
import Lisplet.Eval.Interpreter
import Lisplet.Eval.Load
import Lisplet.Eval.Machine
import Lisplet.Eval.Step
import Lisplet.Heap
import Lisplet.Heap.Outline
import Lisplet.Keyword
import Lisplet.Log
import Lisplet.Main
import Lisplet.Names
import Lisplet.Number.Decimal
import Lisplet.Number.Integer
import Lisplet.Number.Quanta
import Lisplet.Piece
import Lisplet.Program
import Lisplet.Program.Fault
import Lisplet.Program.Narration
import Lisplet.Program.Resolve
import Lisplet.Proofs.Agreement
import Lisplet.Proofs.Bare.Interpreter
import Lisplet.Proofs.Bare.Lexer
import Lisplet.Proofs.Bare.Operations
import Lisplet.Proofs.Bare.Reader
import Lisplet.Proofs.Bare.Resolver
import Lisplet.Proofs.Contents
import Lisplet.Proofs.Definedness
import Lisplet.Proofs.Encoding
import Lisplet.Proofs.Equations
import Lisplet.Proofs.Layout
import Lisplet.Proofs.Leaves
import Lisplet.Proofs.Linking
import Lisplet.Proofs.Meaning
import Lisplet.Proofs.Named
import Lisplet.Proofs.Names
import Lisplet.Proofs.Resolution
import Lisplet.Proofs.Scanning
import Lisplet.Proofs.Shape
import Lisplet.Proofs.StackDiscipline
import Lisplet.Proofs.Unfailing
import Lisplet.Session
import Lisplet.Sink
import Lisplet.Span
import Lisplet.Table
import Lisplet.Text.Blank
import Lisplet.Text.Character
import Lisplet.Text.Occurrence
import Lisplet.Text.Quoted
import Lisplet.Text.Utf8
import Lisplet.Token
import Lisplet.Token.Lexer
import Lisplet.Tree
import Lisplet.Tree.Dump
import Lisplet.Tree.Reader
import Lisplet.Value
import Lisplet.Proofs.Balance
import Lisplet.Proofs.Positions
import Lisplet.Proofs.Blame
import Lisplet.Proofs.Slots
import Lisplet.Proofs.Views
import Lisplet.Proofs.ReadBack
import Lisplet.Proofs.Congruence
import Lisplet.Proofs.Cutoff
import Lisplet.Proofs.Handover
import Lisplet.Proofs.Ownership
import Lisplet.Proofs.Reclaim
import Lisplet.Proofs.Renaming
import Lisplet.Proofs.Lockstep
import Lisplet.Proofs.Acceptance
import Lisplet.Proofs.Reordering
import Lisplet.Proofs.DepthLimit
import Lisplet.Proofs.SingleLine
import Lisplet.Proofs.Logging
import Lisplet.Proofs.Ordered
import Lisplet.Proofs.Termination
import Lisplet.Proofs.FormFaults
import Lisplet.Proofs.FaultOrder
import Lisplet.Proofs.Rerun
import Lisplet.Proofs.Relocation
import Lisplet.Proofs.RelocatedRuns
import Lisplet.Proofs.LineEndings
import Lisplet.Proofs.CutSources
import Lisplet.Proofs.IntegerLiterals
import Lisplet.Proofs.Fuel
import Lisplet.Proofs.Grouping
import Lisplet.Proofs.Overlooked
import Lisplet.Proofs.IndexLoop
import Lisplet.Proofs.Characters
import Lisplet.Proofs.TableMap
import Lisplet.Proofs.Division
import Lisplet.Proofs.Stores
import Lisplet.Proofs.FloatLine
import Lisplet.Proofs.Widening
import Lisplet.Proofs.Comparing
import Lisplet.Proofs.Dumping
import Lisplet.Proofs.Numbering
import Lisplet.Proofs.Traversals
import Lisplet.Proofs.Writing
import Lisplet.Proofs.SourceFiles
