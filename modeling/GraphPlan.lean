import GraphPlan.Algebra.Explain
import GraphPlan.Algebra.Operator
import GraphPlan.Algebra.Scalar
import GraphPlan.Algebra.Tree
import GraphPlan.Config.Basic
import GraphPlan.Config.LogFilter
import GraphPlan.Config.Toml
import GraphPlan.Constraint
import GraphPlan.Decimal.Binary64
import GraphPlan.Decimal.Hundredths
import GraphPlan.Decimal.Numeral
import GraphPlan.Decimal.Shortest
import GraphPlan.Digest.Xxh64
import GraphPlan.Error
import GraphPlan.Expr.Basic
import GraphPlan.Expr.Json
import GraphPlan.Expr.Usage
import GraphPlan.Json.Basic
import GraphPlan.Json.Parser
import GraphPlan.Json.Printer
import GraphPlan.Json.Reader
import GraphPlan.NameMap
import GraphPlan.Pattern.Component
import GraphPlan.Pattern.Registry
import GraphPlan.Pattern.Variable
import GraphPlan.Pick
import GraphPlan.Plan.Aggregates
import GraphPlan.Plan.Basic
import GraphPlan.Plan.Columns
import GraphPlan.Planner.Basic
import GraphPlan.Planner.Result
import GraphPlan.Planner.State
import GraphPlan.Planner.Traversal
import GraphPlan.Proofs.Outcome
import GraphPlan.Proofs.Pattern.Merging
import GraphPlan.Proofs.Pattern.Partition
import GraphPlan.Proofs.Plan.Fetch
import GraphPlan.Proofs.Planner.Follow
import GraphPlan.Proofs.Resolve
import GraphPlan.Proofs.Schema.Index
import GraphPlan.Query.Basic
import GraphPlan.Query.Builder
import GraphPlan.Query.Json
import GraphPlan.Regex.Basic
import GraphPlan.Regex.Parser
import GraphPlan.Resolve
import GraphPlan.Schema.Basic
import GraphPlan.Schema.Column
import GraphPlan.Table
import GraphPlan.Text.Alphabetic
import GraphPlan.Text.Blank
import GraphPlan.Text.Numeric
import GraphPlan.Text.Ranges
import GraphPlan.Toml.Basic
import GraphPlan.Toml.Number
import GraphPlan.Toml.Parser
import GraphPlan.Toml.Text
import GraphPlan.Proofs.Planner.Derivation
import GraphPlan.Proofs.Constraint
import GraphPlan.Proofs.Planner.Growth
import GraphPlan.Proofs.Planner.Combination
import GraphPlan.Proofs.Planner.Match
import GraphPlan.Proofs.Plan.Aggregates
import GraphPlan.Proofs.Schema.Reduction
import GraphPlan.Proofs.Planner.Result
import GraphPlan.Proofs.Planner.Failures
import GraphPlan.Proofs.Algebra.Width
import GraphPlan.Proofs.Planner.Positions
import GraphPlan.Proofs.Algebra.Layers
import GraphPlan.Proofs.Planner.Counts
import GraphPlan.Proofs.Semantics.Graph
import GraphPlan.Proofs.Semantics.Rows
import GraphPlan.Proofs.Semantics.Assignment
import GraphPlan.Proofs.Semantics.Matches
import GraphPlan.Proofs.Pattern.Classes
import GraphPlan.Proofs.Schema.Distinct
import GraphPlan.Proofs.Planner.Run
import GraphPlan.Proofs.Planner.Tracking
import GraphPlan.Proofs.Planner.Invariant
import GraphPlan.Proofs.Planner.Links
import GraphPlan.Proofs.Planner.Bindings
import GraphPlan.Proofs.Expr.Parts
import GraphPlan.Proofs.Pattern.Kinds
import GraphPlan.Proofs.Planner.Acceptance
import GraphPlan.Proofs.Schema.Reachable
import GraphPlan.Proofs.Planner.Trees
import GraphPlan.Proofs.Planner.Blocks
import GraphPlan.Proofs.Planner.Pushdown
import GraphPlan.Proofs.Plan.Occurrences
import GraphPlan.Proofs.Plan.AggregateColumns
import GraphPlan.Proofs.Planner.AggregateReads
import GraphPlan.Proofs.Text.Reading
import GraphPlan.Proofs.Decimal.ReadBack
import GraphPlan.Proofs.Decimal.Texts
import GraphPlan.Proofs.Expr.CanonicalText
import GraphPlan.Proofs.Algebra.ScalarText
import GraphPlan.Proofs.Plan.Similar
import GraphPlan.Proofs.Planner.Similar
import GraphPlan.Proofs.Planner.PlanText
import GraphPlan.Proofs.Planner.Quoting
import GraphPlan.Proofs.Planner.Dialect
import GraphPlan.Proofs.Pattern.Clashes
import GraphPlan.Proofs.Query.Construction
import GraphPlan.Proofs.Json.Decoding
import GraphPlan.Proofs.Query.RoundTrip
import GraphPlan.Proofs.Schema.Merging
import GraphPlan.Proofs.Schema.Renumbering
import GraphPlan.Proofs.Expr.Needs
import GraphPlan.Proofs.Plan.Missing
import GraphPlan.Proofs.Plan.Extension
import GraphPlan.Proofs.Planner.ResultNames
import GraphPlan.Proofs.Planner.SortKeys
import GraphPlan.Proofs.Decimal.TwoPlaces
import GraphPlan.Proofs.Algebra.Literals
import GraphPlan.Proofs.Planner.BasicFilters
import GraphPlan.Proofs.Planner.LinkOrder
import GraphPlan.Proofs.Decimal.NearestHundredths
import GraphPlan.Proofs.Query.GeneratedNames
import GraphPlan.Proofs.Planner.PlanHash
