import AlertAudit.Check
import AlertAudit.Command.Arguments
import AlertAudit.Command.FileTree
import AlertAudit.Command.Invocation
import AlertAudit.Command.Load
import AlertAudit.Command.Run
import AlertAudit.Decimal.Binary64
import AlertAudit.Decimal.Notation
import AlertAudit.Decimal.Shortest
import AlertAudit.Diagnostic.Basic
import AlertAudit.Diagnostic.Extent
import AlertAudit.Diagnostic.Kind
import AlertAudit.Diagnostic.Record
import AlertAudit.Diagnostic.Render
import AlertAudit.Labels.Flow
import AlertAudit.Labels.LabelSet
import AlertAudit.Labels.Survival
import AlertAudit.Main
import AlertAudit.Query.Expr
import AlertAudit.Query.Function
import AlertAudit.Query.Parser
import AlertAudit.Query.Pattern
import AlertAudit.Query.Token
import AlertAudit.Report
import AlertAudit.RuleFile.LineRange
import AlertAudit.RuleFile.Locate
import AlertAudit.RuleFile.Read
import AlertAudit.RuleFile.Rule
import AlertAudit.RuleFile.Shape
import AlertAudit.Snippet.Draw
import AlertAudit.Snippet.Grid
import AlertAudit.Snippet.Mark
import AlertAudit.Snippet.Rows
import AlertAudit.Snippet.Source
import AlertAudit.Snippet.Window
import AlertAudit.Template.Builtin
import AlertAudit.Template.Kind
import AlertAudit.Template.Literal
import AlertAudit.Template.Outline
import AlertAudit.Template.ParseError
import AlertAudit.Template.Parser
import AlertAudit.Template.Parser.Items
import AlertAudit.Template.Parser.Pipeline
import AlertAudit.Template.Reads
import AlertAudit.Template.Scan
import AlertAudit.Template.ScanError
import AlertAudit.Template.Summary
import AlertAudit.Template.Token
import AlertAudit.Template.Tree
import AlertAudit.Text.Alphanumeric
import AlertAudit.Text.Blank
import AlertAudit.Text.Columns
import AlertAudit.Text.Digits
import AlertAudit.Text.Json
import AlertAudit.Text.Lines
import AlertAudit.Text.Printable
import AlertAudit.Text.Quoted
import AlertAudit.Text.Ranges
import AlertAudit.Text.Span
import AlertAudit.Yaml.Cursor
import AlertAudit.Yaml.Document
import AlertAudit.Yaml.Layout
import AlertAudit.Yaml.Node
import AlertAudit.Yaml.Scalar.Block
import AlertAudit.Yaml.Scalar.Plain
import AlertAudit.Yaml.Scalar.Quoted
import AlertAudit.Yaml.Token
import AlertAudit.Yaml.Token.Scan
import AlertAudit.Yaml.Token.Tag
import AlertAudit.Proofs.Query.Subexpression
import AlertAudit.Proofs.Query.Typing
import AlertAudit.Proofs.Query.Context
import AlertAudit.Proofs.Query.Reordering
import AlertAudit.Proofs.Labels.SeriesLabels
import AlertAudit.Proofs.Labels.Removal
import AlertAudit.Proofs.Labels.WellFormed
import AlertAudit.Proofs.Labels.Combination
import AlertAudit.Proofs.Labels.Exactness
import AlertAudit.Proofs.Labels.Interchange
import AlertAudit.Proofs.Labels.WritingOrder
import AlertAudit.Proofs.Labels.Parentheses
import AlertAudit.Proofs.Template.Subtree
import AlertAudit.Proofs.Template.Steps
import AlertAudit.Proofs.Template.OperandStages
import AlertAudit.Proofs.Template.Growth
import AlertAudit.Proofs.Template.Growth.Productions
import AlertAudit.Proofs.Template.Tiling
import AlertAudit.Proofs.Template.Lossless
import AlertAudit.Proofs.Template.BuildEvents
import AlertAudit.Proofs.Template.Grammar
import AlertAudit.Proofs.Template.Scoping
import AlertAudit.Proofs.Template.Spelling
import AlertAudit.Proofs.Template.Bare
import AlertAudit.Proofs.Template.Runs
import AlertAudit.Proofs.Template.Runs.Operand
import AlertAudit.Proofs.Template.Runs.Pipeline
import AlertAudit.Proofs.Template.Runs.Items
import AlertAudit.Proofs.Template.Meaning
import AlertAudit.Proofs.Template.Meaning.Operand
import AlertAudit.Proofs.Template.Meaning.Command
import AlertAudit.Proofs.Template.Meaning.Declaration
import AlertAudit.Proofs.Template.Meaning.Pipeline
import AlertAudit.Proofs.Template.Meaning.Block
import AlertAudit.Proofs.Template.Meaning.Items
import AlertAudit.Proofs.Text.Span
import AlertAudit.Proofs.Text.Lines
import AlertAudit.Proofs.Template.Lookahead
import AlertAudit.Proofs.Template.Seam
import AlertAudit.Proofs.Template.TokenStream
import AlertAudit.Proofs.Template.Legal
import AlertAudit.Proofs.Template.Acceptance
import AlertAudit.Proofs.Template.Extents
import AlertAudit.Proofs.Template.Readings
import AlertAudit.Proofs.Template.Outlines
import AlertAudit.Proofs.Template.Calls
import AlertAudit.Proofs.Template.ValueReads
import AlertAudit.Proofs.Template.Paths
import AlertAudit.Proofs.Template.PathReads
import AlertAudit.Proofs.Template.Lookups
import AlertAudit.Proofs.Template.Visits
import AlertAudit.Proofs.Template.Visits.Items
import AlertAudit.Proofs.Template.Moved
import AlertAudit.Proofs.Template.Stretches
import AlertAudit.Proofs.Template.Carried
import AlertAudit.Proofs.Template.Declarations
import AlertAudit.Proofs.Template.Concatenation
import AlertAudit.Proofs.Template.Sources
import AlertAudit.Proofs.Template.Positions
import AlertAudit.Proofs.Template.Origins
import AlertAudit.Proofs.Template.Branches
import AlertAudit.Proofs.Template.Contexts
import AlertAudit.Proofs.Template.MovedBack
import AlertAudit.Proofs.Template.Surroundings
import AlertAudit.Proofs.Template.Cuts
import AlertAudit.Proofs.Template.Units
import AlertAudit.Proofs.Template.Blocks
import AlertAudit.Proofs.Template.Regions
import AlertAudit.Proofs.Template.Alternatives
import AlertAudit.Proofs.Template.Literals
import AlertAudit.Proofs.Template.IndexedLabels
import AlertAudit.Proofs.Template.Faults
import AlertAudit.Proofs.Template.Limits
import AlertAudit.Proofs.Template.Restoring
import AlertAudit.Proofs.Template.Chains
import AlertAudit.Proofs.Template.Separators
import AlertAudit.Proofs.Template.Filtered
import AlertAudit.Proofs.Template.Piped
import AlertAudit.Proofs.Template.Gains
import AlertAudit.Proofs.Template.Crossing
import AlertAudit.Proofs.Template.Insertion
import AlertAudit.Proofs.Template.Transparency
import AlertAudit.Proofs.Template.Views
import AlertAudit.Proofs.Template.Additions
import AlertAudit.Proofs.Template.Additions.Pipeline
import AlertAudit.Proofs.Template.Additions.Items
import AlertAudit.Proofs.Diagnostic.Order
import AlertAudit.Proofs.Diagnostic.MarkedLines
import AlertAudit.Proofs.Diagnostic.FurtherRuns
import AlertAudit.Proofs.Command.RuleFiles
import AlertAudit.Proofs.Check.Entries
import AlertAudit.Proofs.RuleFile.Blocks
import AlertAudit.Proofs.RuleFile.Spans
import AlertAudit.Proofs.RuleFile.Placement
import AlertAudit.Proofs.RuleFile.Nesting
import AlertAudit.Proofs.RuleFile.BlankLines
import AlertAudit.Proofs.RuleFile.BlockScalars
import AlertAudit.Proofs.Yaml.Quotation
import AlertAudit.Proofs.Yaml.Rows
import AlertAudit.Proofs.Yaml.Items
import AlertAudit.Proofs.Yaml.Composition
import AlertAudit.Proofs.RuleFile.RowLines
import AlertAudit.Proofs.RuleFile.Written
import AlertAudit.Proofs.Yaml.Groups
import AlertAudit.Proofs.RuleFile.Groups
import AlertAudit.Proofs.Check.Lines
import AlertAudit.Proofs.Check.Conservative
import AlertAudit.Proofs.Rounds
import AlertAudit.Proofs.Template.Progress.Scanner
import AlertAudit.Proofs.Template.Progress.Loops
import AlertAudit.Proofs.Template.Progress.Recursion
import AlertAudit.Proofs.Template.Progress
import AlertAudit.Proofs.Text.Bytes
import AlertAudit.Proofs.RuleFile.KeyBytes
import AlertAudit.Proofs.RuleFile.LineNumbers
import AlertAudit.Proofs.RuleFile.CommentLines
import AlertAudit.Proofs.Yaml.Locality
import AlertAudit.Proofs.Yaml.Locality.Scalars
import AlertAudit.Proofs.RuleFile.Comments
import AlertAudit.Proofs.RuleFile.Groups
