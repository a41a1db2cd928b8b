import GraphQL.CommandLine.Program
import GraphQL.CommandLine.Report
import GraphQL.CommandLine.Settings
import GraphQL.CommandLine.Usage
import GraphQL.Decimal
import GraphQL.Decimal.Reading
import GraphQL.Diagnostic
import GraphQL.Document
import GraphQL.Document.Executable
import GraphQL.Document.Literal
import GraphQL.Document.Printer
import GraphQL.Document.Selections
import GraphQL.Document.TypeSystem
import GraphQL.Execution.Accessors
import GraphQL.Execution.Arguments
import GraphQL.Execution.Batch
import GraphQL.Execution.Coercion
import GraphQL.Execution.Completion
import GraphQL.Execution.Error
import GraphQL.Execution.Executor
import GraphQL.Execution.Forcing
import GraphQL.Execution.Host
import GraphQL.Execution.Resolver
import GraphQL.Execution.Response
import GraphQL.Execution.Session
import GraphQL.Execution.Settling
import GraphQL.Execution.Tree
import GraphQL.Interner
import GraphQL.Json
import GraphQL.Json.Conversion
import GraphQL.Json.Printer
import GraphQL.Json.Reader
import GraphQL.Json.Records
import GraphQL.Main
import GraphQL.OrderedMap
import GraphQL.Parsing.Basic
import GraphQL.Parsing.Document
import GraphQL.Parsing.Executable
import GraphQL.Parsing.Literal
import GraphQL.Parsing.TypeSystem
import GraphQL.Plan
import GraphQL.Plan.Appearance
import GraphQL.Plan.Building
import GraphQL.Plan.Interchange
import GraphQL.Schema
import GraphQL.Schema.Definition
import GraphQL.Schema.Error
import GraphQL.Schema.Interchange
import GraphQL.Schema.Printer
import GraphQL.Schema.Type
import GraphQL.Source
import GraphQL.Text.Block
import GraphQL.Text.Casing
import GraphQL.Text.Inspection
import GraphQL.Text.Quoted
import GraphQL.Text.WhiteSpace
import GraphQL.Token
import GraphQL.Token.Scanner
import GraphQL.Validation
import GraphQL.Validation.Event
import GraphQL.Validation.Fields
import GraphQL.Validation.Fragments
import GraphQL.Validation.Merging
import GraphQL.Validation.Rule
import GraphQL.Validation.Variables
import GraphQL.Validation.Walk
import GraphQL.Proofs.Merging.Expansion
import GraphQL.Proofs.Merging.Grouping
import GraphQL.Proofs.Merging.Search
import GraphQL.Proofs.Merging.Exploration
import GraphQL.Proofs.Merging.Coverage
import GraphQL.Proofs.Merging.Correctness
import GraphQL.Proofs.Schema.Definition
import GraphQL.Proofs.Plan.Appearance
import GraphQL.Proofs.Plan.Groups
import GraphQL.Proofs.Plan.Typing
import GraphQL.Proofs.Plan.Collection
import GraphQL.Proofs.Plan.Levels
import GraphQL.Proofs.Decimal.Interval
import GraphQL.Proofs.Decimal.Shortest
import GraphQL.Proofs.Decimal.Rounding
import GraphQL.Proofs.Decimal.Packing
import GraphQL.Proofs.Decimal.Nearest
import GraphQL.Proofs.Decimal.Numbers
import GraphQL.Proofs.Decimal.Positional
import GraphQL.Proofs.Document.Printer
import GraphQL.Proofs.Plan.Arguments
import GraphQL.Proofs.Plan.Agreement
import GraphQL.Proofs.Execution.Positions
import GraphQL.Proofs.Execution.Agreement
import GraphQL.Proofs.Execution.Simulation
import GraphQL.Proofs.Execution.Completing
import GraphQL.Proofs.Execution.Settling
import GraphQL.Proofs.Execution.Operation
import GraphQL.Proofs.Execution.PureHost
import GraphQL.Proofs.Execution.Correctness
import GraphQL.Proofs.Token.Scanner
import GraphQL.Proofs.Parsing.Ahead
import GraphQL.Proofs.Parsing.Keeping
import GraphQL.Proofs.Parsing.Numbering
import GraphQL.Proofs.Validation.Termination
import GraphQL.Proofs.Plan.Termination
import GraphQL.Proofs.Plan.Texts
import GraphQL.Proofs.Merging.Termination
import GraphQL.Proofs.Execution.Views
import GraphQL.Proofs.Execution.Trace
import GraphQL.Proofs.Execution.Laziness
import GraphQL.Proofs.Execution.Sight
import GraphQL.Proofs.Execution.Shape
import GraphQL.Proofs.Execution.Making
import GraphQL.Proofs.Execution.Shaping
import GraphQL.Proofs.Execution.Rounds
import GraphQL.Proofs.Execution.Outcome
import GraphQL.Proofs.Execution.Conformance
import GraphQL.Proofs.Execution.Causes
import GraphQL.Proofs.Execution.Order
import GraphQL.Proofs.Execution.Histories
import GraphQL.Proofs.Execution.Batches
import GraphQL.Proofs.Execution.Journals
import GraphQL.Proofs.Execution.Sharing
import GraphQL.Proofs.Execution.Lookups
import GraphQL.Proofs.Execution.Verdicts
import GraphQL.Proofs.Execution.Scope
import GraphQL.Proofs.Execution.Arena
import GraphQL.Proofs.Execution.Shown
import GraphQL.Proofs.Execution.Machine
import GraphQL.Proofs.Execution.Mirroring
import GraphQL.Proofs.Execution.Filling
import GraphQL.Proofs.Execution.Ending
import GraphQL.Proofs.Plan.Completeness
import GraphQL.Proofs.Plan.Variables
import GraphQL.Proofs.Plan.Cycles
import GraphQL.Proofs.Plan.Operations
import GraphQL.Proofs.Plan.Nesting
import GraphQL.Proofs.Parsing.Grammar
import GraphQL.Proofs.Parsing.Reading
import GraphQL.Proofs.Parsing.Soundness
import GraphQL.Proofs.Parsing.Taking
import GraphQL.Proofs.Parsing.Completeness
import GraphQL.Proofs.Parsing.Correctness
import GraphQL.Proofs.Document.Spelling
import GraphQL.Proofs.Document.RoundTrip
import GraphQL.Proofs.Parsing.Yielding
import GraphQL.Proofs.Text.Rereading
import GraphQL.Proofs.Schema.Content
import GraphQL.Proofs.Schema.Defaults
import GraphQL.Proofs.Schema.Describing
import GraphQL.Proofs.Schema.Descriptions
import GraphQL.Proofs.Schema.Grammar
import GraphQL.Proofs.Schema.Lines
import GraphQL.Proofs.Schema.Origin
import GraphQL.Proofs.Schema.Owning
import GraphQL.Proofs.Schema.Possible
import GraphQL.Proofs.Schema.Rereading
import GraphQL.Proofs.Schema.RoundTrip
import GraphQL.Proofs.Schema.Taking
import GraphQL.Proofs.Schema.Writing
import GraphQL.Proofs.Parsing.Faults
import GraphQL.Proofs.Validation.Interleaving
import GraphQL.Proofs.Validation.Independence
import GraphQL.Proofs.Token.Rescanning
import GraphQL.Proofs.Token.Layout
import GraphQL.Proofs.Parsing.Places
import GraphQL.Proofs.Parsing.Layout
import GraphQL.Proofs.Coercion.Relating
import GraphQL.Proofs.Coercion.Termination
import GraphQL.Proofs.Coercion.Conformance
import GraphQL.Proofs.Schema.References
import GraphQL.Proofs.Validation.NodeLimit
import GraphQL.Proofs.Token.Tiling
import GraphQL.Proofs.Parsing.Unbounded
import GraphQL.Proofs.Parsing.Advancing
import GraphQL.Proofs.Parsing.Mirrors
import GraphQL.Proofs.Parsing.Progress
import GraphQL.Proofs.Document.Outline
import GraphQL.Proofs.Parsing.Outlining
import GraphQL.Proofs.Parsing.Outlines
import GraphQL.Proofs.Text.BlockValue
import GraphQL.Proofs.Execution.Ancestry
import GraphQL.Proofs.Execution.Forcing
import GraphQL.Proofs.Location
import GraphQL.Proofs.Merging.Requests
