import FormulaMap.Command.Arguments
import FormulaMap.Command.Instrument
import FormulaMap.Command.Surface
import FormulaMap.Disk.Basic
import FormulaMap.Disk.Location
import FormulaMap.Disk.Stream
import FormulaMap.Engine.Client
import FormulaMap.Engine.Request
import FormulaMap.Engine.Result
import FormulaMap.Fields
import FormulaMap.Formula.Annotate
import FormulaMap.Formula.Data
import FormulaMap.Formula.Descriptor
import FormulaMap.Formula.Expr
import FormulaMap.Formula.Instrumented
import FormulaMap.Formula.Markup
import FormulaMap.Formula.Operator
import FormulaMap.Formula.Parser
import FormulaMap.Formula.Path
import FormulaMap.Formula.Token
import FormulaMap.Formula.Value
import FormulaMap.Geometry.Box
import FormulaMap.Geometry.Coordinate
import FormulaMap.Geometry.Data
import FormulaMap.Geometry.Tolerances
import FormulaMap.Json.Basic
import FormulaMap.Json.Reader
import FormulaMap.Json.Writer
import FormulaMap.Layout.Data
import FormulaMap.Layout.Element
import FormulaMap.Main
import FormulaMap.Number.Base36
import FormulaMap.Number.Binary64
import FormulaMap.Number.Expansion
import FormulaMap.Number.FloatText
import FormulaMap.Number.IntText
import FormulaMap.Number.Numeral
import FormulaMap.Number.Shortest
import FormulaMap.Order
import FormulaMap.Record.Field
import FormulaMap.Record.Problem
import FormulaMap.Session
import FormulaMap.Surface.Attributes
import FormulaMap.Surface.Build
import FormulaMap.Surface.Category
import FormulaMap.Surface.Data
import FormulaMap.Surface.Enhance
import FormulaMap.Surface.Hit
import FormulaMap.Surface.Join
import FormulaMap.Surface.Kind
import FormulaMap.Surface.Node
import FormulaMap.Surface.Operands
import FormulaMap.Surface.ReadingOrder
import FormulaMap.Text.Blank
import FormulaMap.Text.CharSet
import FormulaMap.Text.Digit
import FormulaMap.Text.Letter
import FormulaMap.Text.Lines
import FormulaMap.Text.Printable
import FormulaMap.Text.Quoted
import FormulaMap.Trace.Event
import FormulaMap.Trace.Log
import FormulaMap.Trace.Rebuild
import FormulaMap.Tree
import FormulaMap.Proofs.Session.Latest
import FormulaMap.Proofs.Engine.Requests
import FormulaMap.Proofs.Formula.Addresses
import FormulaMap.Proofs.Formula.Descriptors
import FormulaMap.Proofs.Formula.Grammar
import FormulaMap.Proofs.Formula.Instrumenting
import FormulaMap.Proofs.Formula.Yield
import FormulaMap.Proofs.Session.Soundness
import FormulaMap.Proofs.Session.Replay
import FormulaMap.Proofs.Surface.Fractions
import FormulaMap.Proofs.Surface.JoinedRows
import FormulaMap.Proofs.Formula.Derivations
import FormulaMap.Proofs.Formula.PathLanguage
import FormulaMap.Proofs.Surface.Identifiers
import FormulaMap.Proofs.Surface.OnePass
import FormulaMap.Proofs.Surface.WellFormed
import FormulaMap.Proofs.Surface.Contents
import FormulaMap.Proofs.Surface.Translation
import FormulaMap.Proofs.Surface.WalkedOnce
import FormulaMap.Proofs.Surface.Wholes
import FormulaMap.Proofs.Surface.Rerunning
import FormulaMap.Proofs.Surface.Idempotence
import FormulaMap.Proofs.Formula.Respelling
import FormulaMap.Proofs.Surface.Recovering
import FormulaMap.Proofs.Trace.ReadBack
import FormulaMap.Proofs.Formula.Totality
import FormulaMap.Proofs.Formula.Inventory
import FormulaMap.Proofs.Formula.Notes
import FormulaMap.Proofs.Surface.DocumentOrder
import FormulaMap.Proofs.Surface.Buckets
import FormulaMap.Proofs.Surface.JoinSteps
import FormulaMap.Proofs.Surface.Rejoining
import FormulaMap.Proofs.Surface.MixedNumbers
import FormulaMap.Proofs.Surface.OwnFraction
import FormulaMap.Proofs.Surface.Adjacency
import FormulaMap.Proofs.Surface.Predecessors
import FormulaMap.Proofs.Surface.SinglePasses
import FormulaMap.Proofs.Surface.Slots
import FormulaMap.Proofs.Surface.OperandPairs
import FormulaMap.Proofs.Number.Rounding
import FormulaMap.Proofs.Number.Values
import FormulaMap.Proofs.Number.Packing
import FormulaMap.Proofs.Number.Operations
import FormulaMap.Proofs.Surface.Clicks
import FormulaMap.Proofs.Surface.CutElements
import FormulaMap.Proofs.Surface.Segments
import FormulaMap.Proofs.Formula.Evaluation
import FormulaMap.Proofs.Formula.Valuations
import FormulaMap.Proofs.Formula.Representations
import FormulaMap.Proofs.Layout.RoundTrip
import FormulaMap.Proofs.Engine.Calls
import FormulaMap.Proofs.Trace.BestEffort
import FormulaMap.Proofs.Surface.RecoveredPaths
import FormulaMap.Proofs.Formula.EmbeddedPaths
import FormulaMap.Proofs.Formula.Progress
import FormulaMap.Proofs.Command.Outcomes
