import ShapeCompiler.Assoc
import ShapeCompiler.Catalog.Programs
import ShapeCompiler.Catalog.Shapes
import ShapeCompiler.Code
import ShapeCompiler.Code.Listing
import ShapeCompiler.Compiled
import ShapeCompiler.Compiled.Decode
import ShapeCompiler.Compiled.Encode
import ShapeCompiler.Engine
import ShapeCompiler.Engine.Run
import ShapeCompiler.Error
import ShapeCompiler.Execution
import ShapeCompiler.Function
import ShapeCompiler.Ident
import ShapeCompiler.Interpreter
import ShapeCompiler.Lowering
import ShapeCompiler.Machine
import ShapeCompiler.Native
import ShapeCompiler.Operator
import ShapeCompiler.Operator.Arithmetic
import ShapeCompiler.Options
import ShapeCompiler.Program
import ShapeCompiler.Proofs.Acceptance
import ShapeCompiler.Proofs.Agreement
import ShapeCompiler.Proofs.Answers
import ShapeCompiler.Proofs.Arguments
import ShapeCompiler.Proofs.Arithmetic
import ShapeCompiler.Proofs.Artifacts
import ShapeCompiler.Proofs.Assoc
import ShapeCompiler.Proofs.CallResults
import ShapeCompiler.Proofs.Calls
import ShapeCompiler.Proofs.Canonical
import ShapeCompiler.Proofs.Constructors
import ShapeCompiler.Proofs.Conversions
import ShapeCompiler.Proofs.Declarations
import ShapeCompiler.Proofs.Decoration
import ShapeCompiler.Proofs.Dispatch
import ShapeCompiler.Proofs.Engine.Coherence
import ShapeCompiler.Proofs.Engine.Descent
import ShapeCompiler.Proofs.Engine.Growth
import ShapeCompiler.Proofs.Engine.History
import ShapeCompiler.Proofs.Engine.Logs
import ShapeCompiler.Proofs.Engine.Registrations
import ShapeCompiler.Proofs.Engine.Requests
import ShapeCompiler.Proofs.Engine.Runs
import ShapeCompiler.Proofs.Engine.Sessions
import ShapeCompiler.Proofs.Engine.Steps
import ShapeCompiler.Proofs.Equality
import ShapeCompiler.Proofs.Faults
import ShapeCompiler.Proofs.FieldAccess
import ShapeCompiler.Proofs.Foresight
import ShapeCompiler.Proofs.Homes
import ShapeCompiler.Proofs.Independence.Histories
import ShapeCompiler.Proofs.Inference
import ShapeCompiler.Proofs.Interpretation
import ShapeCompiler.Proofs.Limit.Moments
import ShapeCompiler.Proofs.Limit.Runs
import ShapeCompiler.Proofs.Lists
import ShapeCompiler.Proofs.Lowering.Arities
import ShapeCompiler.Proofs.Lowering.Artifact
import ShapeCompiler.Proofs.Lowering.Completeness
import ShapeCompiler.Proofs.Lowering.Flow
import ShapeCompiler.Proofs.Lowering.Layout
import ShapeCompiler.Proofs.Lowering.Paths
import ShapeCompiler.Proofs.Lowering.Pools
import ShapeCompiler.Proofs.Lowering.Sites
import ShapeCompiler.Proofs.Lowering.Types
import ShapeCompiler.Proofs.Lowering.Visits
import ShapeCompiler.Proofs.Machine.Activations
import ShapeCompiler.Proofs.Machine.Blind
import ShapeCompiler.Proofs.Machine.Evaluation
import ShapeCompiler.Proofs.Machine.Operations
import ShapeCompiler.Proofs.Machine.Recursion
import ShapeCompiler.Proofs.Machine.Registers
import ShapeCompiler.Proofs.Machine.Scopes
import ShapeCompiler.Proofs.Machine.Stack
import ShapeCompiler.Proofs.Namespaces
import ShapeCompiler.Proofs.Natives
import ShapeCompiler.Proofs.Parity
import ShapeCompiler.Proofs.Placeholder.Engines
import ShapeCompiler.Proofs.Placeholder.Inference
import ShapeCompiler.Proofs.Placeholder.Interpretation
import ShapeCompiler.Proofs.Placeholder.Lowering
import ShapeCompiler.Proofs.Placeholder.Machines
import ShapeCompiler.Proofs.Placeholder.Replacement
import ShapeCompiler.Proofs.Placeholder.Runs
import ShapeCompiler.Proofs.Placeholder.Tidy
import ShapeCompiler.Proofs.Placeholders
import ShapeCompiler.Proofs.Programs
import ShapeCompiler.Proofs.Progress
import ShapeCompiler.Proofs.RecursionLimit
import ShapeCompiler.Proofs.Reference
import ShapeCompiler.Proofs.Refusals
import ShapeCompiler.Proofs.Representation
import ShapeCompiler.Proofs.Returns
import ShapeCompiler.Proofs.RoundTrip
import ShapeCompiler.Proofs.Safety
import ShapeCompiler.Proofs.ScalarNames
import ShapeCompiler.Proofs.Simulation.Blocks
import ShapeCompiler.Proofs.Simulation.Calls
import ShapeCompiler.Proofs.Simulation.Conformance
import ShapeCompiler.Proofs.Simulation.Expressions
import ShapeCompiler.Proofs.Simulation.Frames
import ShapeCompiler.Proofs.Simulation.Matches
import ShapeCompiler.Proofs.Simulation.Outcome
import ShapeCompiler.Proofs.Simulation.Pairs
import ShapeCompiler.Proofs.Simulation.Readings
import ShapeCompiler.Proofs.Simulation.Surroundings
import ShapeCompiler.Proofs.Specialisations
import ShapeCompiler.Proofs.Success
import ShapeCompiler.Proofs.Syntax
import ShapeCompiler.Proofs.Trees.Folds
import ShapeCompiler.Proofs.Trees.Mirror
import ShapeCompiler.Proofs.Trees.Perfect
import ShapeCompiler.Proofs.Trees.Values
import ShapeCompiler.Proofs.Types.Groups
import ShapeCompiler.Proofs.Types.Registration
import ShapeCompiler.Proofs.Types.Registry
import ShapeCompiler.Proofs.Types.Scalars
import ShapeCompiler.Proofs.Types.WellFormed
import ShapeCompiler.Proofs.Typing.Confluence
import ShapeCompiler.Proofs.Typing.Description
import ShapeCompiler.Proofs.Typing.Findings
import ShapeCompiler.Proofs.Typing.Joins
import ShapeCompiler.Proofs.Typing.Loops
import ShapeCompiler.Proofs.Typing.Occurrence
import ShapeCompiler.Proofs.Typing.Passes
import ShapeCompiler.Proofs.Typing.Plan
import ShapeCompiler.Proofs.Typing.Progress
import ShapeCompiler.Proofs.Typing.Rules
import ShapeCompiler.Proofs.Typing.Scope
import ShapeCompiler.Proofs.Typing.Settled
import ShapeCompiler.Proofs.Typing.Soundness
import ShapeCompiler.Proofs.Typing.Termination
import ShapeCompiler.Proofs.Values
import ShapeCompiler.Proofs.Widening
import ShapeCompiler.Proofs.Word
import ShapeCompiler.Settings
import ShapeCompiler.Settings.Line
import ShapeCompiler.Settings.Numeral
import ShapeCompiler.Settings.Quoted
import ShapeCompiler.Signature
import ShapeCompiler.TreeView
import ShapeCompiler.Types
import ShapeCompiler.Types.Access
import ShapeCompiler.Types.Declare
import ShapeCompiler.Types.Width
import ShapeCompiler.Typing
import ShapeCompiler.Typing.Inference
import ShapeCompiler.Typing.MatchPlan
import ShapeCompiler.Typing.Walk
import ShapeCompiler.Uint
import ShapeCompiler.Value
import ShapeCompiler.Value.Text
import ShapeCompiler.WorkList
