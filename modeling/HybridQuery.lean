import HybridQuery.Builtin
import HybridQuery.Cluster.Collection
import HybridQuery.Command.Arguments
import HybridQuery.Command.Execution
import HybridQuery.Context.Chain
import HybridQuery.Engine.Basic
import HybridQuery.Engine.Ingestion
import HybridQuery.Error
import HybridQuery.Evaluation.BuiltinCall
import HybridQuery.Evaluation.Clauses
import HybridQuery.Evaluation.Computation
import HybridQuery.Evaluation.Cursor
import HybridQuery.Evaluation.Driving
import HybridQuery.Evaluation.Evaluator
import HybridQuery.Evaluation.Grouping
import HybridQuery.Evaluation.Invoking
import HybridQuery.Evaluation.Navigation
import HybridQuery.Evaluation.Ordering
import HybridQuery.Evaluation.Protocol
import HybridQuery.Flwor.Tuple
import HybridQuery.Function.Invocation
import HybridQuery.Function.Registry
import HybridQuery.Item.Arithmetic
import HybridQuery.Item.Basic
import HybridQuery.Item.Cast
import HybridQuery.Item.Columns
import HybridQuery.Item.Digest
import HybridQuery.Item.Order
import HybridQuery.Item.Printed
import HybridQuery.Item.Promote
import HybridQuery.Json.Fields
import HybridQuery.Json.Reader
import HybridQuery.Json.Value
import HybridQuery.Main
import HybridQuery.Mode
import HybridQuery.Numeric.Decimal
import HybridQuery.Numeric.Double
import HybridQuery.Numeric.Power
import HybridQuery.Observe.Event
import HybridQuery.Observe.Logger
import HybridQuery.Observe.Metrics
import HybridQuery.Plan.Compile
import HybridQuery.Plan.Tree
import HybridQuery.Session.Basic
import HybridQuery.Session.Config
import HybridQuery.Source.Files
import HybridQuery.Syntax.Analysis
import HybridQuery.Syntax.Decode
import HybridQuery.Syntax.Explain
import HybridQuery.Syntax.Outline
import HybridQuery.Syntax.Tree
import HybridQuery.Temporal.Calendar
import HybridQuery.Temporal.Clock
import HybridQuery.Temporal.Text
import HybridQuery.Text.Base64
import HybridQuery.Text.Blank
import HybridQuery.Text.Letters
import HybridQuery.Types.Catalogue
import HybridQuery.Types.Declaration
import HybridQuery.Types.SequenceType
import HybridQuery.Proofs.Meaning.Basic
import HybridQuery.Proofs.Meaning.Trace
import HybridQuery.Proofs.Meaning.Ensures
import HybridQuery.Proofs.Meaning.Limits
import HybridQuery.Proofs.Meaning.Protocol
import HybridQuery.Proofs.Meaning.Shape
import HybridQuery.Proofs.Meaning.Evaluators
import HybridQuery.Proofs.Meaning.Nodes
import HybridQuery.Proofs.Meaning.Clauses
import HybridQuery.Proofs.Meaning.Evaluations
import HybridQuery.Proofs.Meaning.Adequacy
import HybridQuery.Proofs.Meaning.Success
import HybridQuery.Proofs.Streaming
import HybridQuery.Proofs.Rounding
import HybridQuery.Proofs.Digests
import HybridQuery.Proofs.Grouping
import HybridQuery.Proofs.PartialApplication
import HybridQuery.Proofs.Meaning.Contracts
import HybridQuery.Proofs.Spreading.Carries
import HybridQuery.Proofs.Spreading.Draws
import HybridQuery.Proofs.Spreading.Items
import HybridQuery.Proofs.Spreading.Plans
import HybridQuery.Proofs.Spreading.Builtins
import HybridQuery.Proofs.Spreading.Computations
import HybridQuery.Proofs.Spreading.Nodes
import HybridQuery.Proofs.Spreading.Depth
import HybridQuery.Proofs.Spreading.Relation
import HybridQuery.Proofs.Spreading.Steps
import HybridQuery.Proofs.Spreading.Syntax
import HybridQuery.Proofs.Passes
import HybridQuery.Proofs.Spreading.Passes
import HybridQuery.Proofs.Spreading.Analysis
import HybridQuery.Proofs.Spreading.Modules
import HybridQuery.Proofs.Meaning.Answers
import HybridQuery.Proofs.Spreading.Transparency
import HybridQuery.Proofs.Cursors.Keeping
import HybridQuery.Proofs.Cursors.Nodes
import HybridQuery.Proofs.Cursors.Histories
import HybridQuery.Proofs.Inherited
import HybridQuery.Proofs.Guarding.Basic
import HybridQuery.Proofs.Guarding.Nodes
import HybridQuery.Proofs.Guarding.Sessions
import HybridQuery.Proofs.Completeness.Nodes
import HybridQuery.Proofs.Completeness.Moments
import HybridQuery.Proofs.Completeness.Passes
import HybridQuery.Proofs.Completeness.Modules
import HybridQuery.Proofs.Completeness.Products
import HybridQuery.Proofs.Results
import HybridQuery.Proofs.Lifting.Results
import HybridQuery.Proofs.Lifting.Items
import HybridQuery.Proofs.Lifting.Bindings
import HybridQuery.Proofs.Recutting.Values
import HybridQuery.Proofs.Recutting.Runs
import HybridQuery.Proofs.Recutting.Computations
import HybridQuery.Proofs.Recutting.Builtins
import HybridQuery.Proofs.Recutting.Cursors
import HybridQuery.Proofs.Recutting.Nodes
import HybridQuery.Proofs.Modes.Calls
import HybridQuery.Proofs.Modes.Keeping
import HybridQuery.Proofs.Compilation
import HybridQuery.Proofs.Recutting.Sessions
import HybridQuery.Proofs.Blame.Relation
import HybridQuery.Proofs.Blame.Values
import HybridQuery.Proofs.Blame.Bindings
import HybridQuery.Proofs.Blame.Evaluations
import HybridQuery.Proofs.Blame.Computations
import HybridQuery.Proofs.Blame.Nodes
import HybridQuery.Proofs.Blame.Locating
import HybridQuery.Proofs.Blame.Sessions
import HybridQuery.Proofs.Bodies.Books
import HybridQuery.Proofs.Bodies.Protocol
import HybridQuery.Proofs.Bodies.Evaluations
import HybridQuery.Proofs.Bodies.Clauses
import HybridQuery.Proofs.Bodies.Nodes
import HybridQuery.Proofs.Bodies.Sessions
import HybridQuery.Proofs.Modes.Rules
import HybridQuery.Proofs.Modes.Passes
import HybridQuery.Proofs.Modes.Modules
import HybridQuery.Proofs.Modes.Constants
import HybridQuery.Proofs.Modes.Substitution
import HybridQuery.Proofs.Promotion
import HybridQuery.Proofs.Lookups.Frames
import HybridQuery.Proofs.Lookups.Chains
import HybridQuery.Proofs.Declarations
import HybridQuery.Proofs.Ordering.Runs
import HybridQuery.Proofs.Ordering.Atomics
import HybridQuery.Proofs.Ordering.Clauses
import HybridQuery.Proofs.Commands
import HybridQuery.Proofs.Collections
import HybridQuery.Proofs.Ordering.Stability
import HybridQuery.Proofs.ReturnTypes
import HybridQuery.Proofs.Equality
import HybridQuery.Proofs.Ordering.Numbers
import HybridQuery.Proofs.Groups.Shuffles
import HybridQuery.Proofs.Groups.Clauses
import HybridQuery.Proofs.Crossing
import HybridQuery.Proofs.Repeating.Passes
import HybridQuery.Proofs.Repeating.Modules
import HybridQuery.Proofs.Calling.Inputs
import HybridQuery.Proofs.Calling.Calls
import HybridQuery.Proofs.Calling.Items
import HybridQuery.Proofs.Calling.Peeks
import HybridQuery.Proofs.Promoted
import HybridQuery.Proofs.Fields
import HybridQuery.Proofs.Durations.Numerals
import HybridQuery.Proofs.Durations.Forms
import HybridQuery.Proofs.Durations.Grammar
import HybridQuery.Proofs.Durations.Overflow
import HybridQuery.Proofs.Temporal.Fields
import HybridQuery.Proofs.Temporal.Zones
import HybridQuery.Proofs.Temporal.Calendar
import HybridQuery.Proofs.Temporal.Printed
import HybridQuery.Proofs.LexicalForms
import HybridQuery.Proofs.Division.Truncation
import HybridQuery.Proofs.Division.Exact
import HybridQuery.Proofs.Computing.Places
import HybridQuery.Proofs.Computing.Passes
import HybridQuery.Proofs.Computing.Modules
import HybridQuery.Proofs.Sums
import HybridQuery.Proofs.Scopes
import HybridQuery.Proofs.Cursors.Ranges
import HybridQuery.Proofs.Doubles.Operations
import HybridQuery.Proofs.Doubles.Shortest
import HybridQuery.Proofs.Json.Numerals
import HybridQuery.Proofs.Json.Decimals
import HybridQuery.Proofs.Json.Items
import HybridQuery.Proofs.Blanks
import HybridQuery.Proofs.Literals
import HybridQuery.Proofs.Naming
import HybridQuery.Proofs.Intersections
import HybridQuery.Proofs.Landing
import HybridQuery.Proofs.Ingestion
import HybridQuery.Proofs.Uniform.Cursors
import HybridQuery.Proofs.Uniform.Tuples
import HybridQuery.Proofs.Uniform.Clauses
import HybridQuery.Proofs.Uniform.Streams
