import PugComponents.Component.Assembly
import PugComponents.Component.Attribute
import PugComponents.Component.Journal
import PugComponents.Component.Lowering
import PugComponents.Component.Module
import PugComponents.Component.Target
import PugComponents.Component.Warning
import PugComponents.Distinct
import PugComponents.Files.Glob
import PugComponents.Files.Path
import PugComponents.Files.Tree
import PugComponents.Json.Reader
import PugComponents.Json.Value
import PugComponents.Json.Writer
import PugComponents.Jsx.Printer
import PugComponents.Jsx.Tree
import PugComponents.Link.Context
import PugComponents.Link.Reference
import PugComponents.Link.Registry
import PugComponents.Main
import PugComponents.Project.Arguments
import PugComponents.Project.Batch
import PugComponents.Project.Discovery
import PugComponents.Project.Loading
import PugComponents.Project.Pass
import PugComponents.Project.Report
import PugComponents.Project.Settings
import PugComponents.Script.Cursor
import PugComponents.Script.Expression
import PugComponents.Script.Function
import PugComponents.Script.IdentifierChar
import PugComponents.Script.Markup
import PugComponents.Script.Snippet
import PugComponents.Script.Statement
import PugComponents.Script.Strength
import PugComponents.Script.Term
import PugComponents.Script.Token
import PugComponents.Template.Attributes
import PugComponents.Template.Document
import PugComponents.Template.Fault
import PugComponents.Template.Head
import PugComponents.Template.Interpolation
import PugComponents.Template.Line
import PugComponents.Template.Marker
import PugComponents.Template.Node
import PugComponents.Template.Span
import PugComponents.Template.Tag
import PugComponents.Text.Alphabetic
import PugComponents.Text.Bracket
import PugComponents.Text.Bytes
import PugComponents.Text.Identifier
import PugComponents.Text.LetterCase
import PugComponents.Text.Numeric
import PugComponents.Text.Position
import PugComponents.Text.Quoted
import PugComponents.Text.RunLengths
import PugComponents.Text.Split
import PugComponents.Text.WhiteSpace
import PugComponents.Proofs.Component.Accounts
import PugComponents.Proofs.Component.Assemblies
import PugComponents.Proofs.Component.AttributeNames
import PugComponents.Proofs.Component.Bindings
import PugComponents.Proofs.Component.Declarations
import PugComponents.Proofs.Component.Demands
import PugComponents.Proofs.Component.DerivedNames
import PugComponents.Proofs.Component.EmptyArms
import PugComponents.Proofs.Component.Filling
import PugComponents.Proofs.Component.Imports
import PugComponents.Proofs.Component.Normalization
import PugComponents.Proofs.Component.Records
import PugComponents.Proofs.Component.Regularity
import PugComponents.Proofs.Component.Shapes
import PugComponents.Proofs.Component.Slots
import PugComponents.Proofs.Component.Styles
import PugComponents.Proofs.Component.Traces
import PugComponents.Proofs.Distinct
import PugComponents.Proofs.Files.Changes
import PugComponents.Proofs.Files.Listing
import PugComponents.Proofs.Jsx.Leaves
import PugComponents.Proofs.Jsx.Normal
import PugComponents.Proofs.Jsx.Openings
import PugComponents.Proofs.Jsx.Parts
import PugComponents.Proofs.Jsx.ReadExpressions
import PugComponents.Proofs.Jsx.ReadMarkup
import PugComponents.Proofs.Jsx.ReadStatements
import PugComponents.Proofs.Jsx.Reading
import PugComponents.Proofs.Jsx.Unambiguous
import PugComponents.Proofs.Lowering
import PugComponents.Proofs.Project.Batches
import PugComponents.Proofs.Project.Discovery
import PugComponents.Proofs.Project.Passes
import PugComponents.Proofs.Project.Resolution
import PugComponents.Proofs.Project.Summaries
import PugComponents.Proofs.Project.WriteOnce
import PugComponents.Proofs.Rendering.Markup
import PugComponents.Proofs.Rendering.Preservation
import PugComponents.Proofs.Rendering.Template
import PugComponents.Proofs.Template.Blocks
import PugComponents.Proofs.Template.Boundaries
import PugComponents.Proofs.Template.Chains
import PugComponents.Proofs.Template.ClosingBrackets
import PugComponents.Proofs.Template.Columns
import PugComponents.Proofs.Template.Concatenation
import PugComponents.Proofs.Template.Copies
import PugComponents.Proofs.Template.Coverage
import PugComponents.Proofs.Template.Expansions
import PugComponents.Proofs.Template.Extents
import PugComponents.Proofs.Template.HeadSpans
import PugComponents.Proofs.Template.Heads
import PugComponents.Proofs.Template.InlineBranches
import PugComponents.Proofs.Template.Interpolations
import PugComponents.Proofs.Template.Items
import PugComponents.Proofs.Template.KeywordHeads
import PugComponents.Proofs.Template.LineEndings
import PugComponents.Proofs.Template.Lines
import PugComponents.Proofs.Template.Lossless
import PugComponents.Proofs.Template.Markers
import PugComponents.Proofs.Template.Motion
import PugComponents.Proofs.Template.NodeProperties
import PugComponents.Proofs.Template.OffSide
import PugComponents.Proofs.Template.ParameterLists
import PugComponents.Proofs.Template.Parts
import PugComponents.Proofs.Template.Pieces
import PugComponents.Proofs.Template.Places
import PugComponents.Proofs.Template.Positions
import PugComponents.Proofs.Template.Preorder
import PugComponents.Proofs.Template.RawBodies
import PugComponents.Proofs.Template.References
import PugComponents.Proofs.Template.Reindentation
import PugComponents.Proofs.Template.RespacedAttributes
import PugComponents.Proofs.Template.RespacedBlocks
import PugComponents.Proofs.Template.RespacedHeads
import PugComponents.Proofs.Template.RespacedLines
import PugComponents.Proofs.Template.RespacedTags
import PugComponents.Proofs.Template.Runs
import PugComponents.Proofs.Template.Shift
import PugComponents.Proofs.Template.Spans
import PugComponents.Proofs.Template.TagHeads
import PugComponents.Proofs.Template.Tilings
import PugComponents.Proofs.Template.TopLevel
import PugComponents.Proofs.Template.Transport
import PugComponents.Proofs.Template.Unwrapped
import PugComponents.Proofs.Template.Views
import PugComponents.Proofs.Template.WrittenAttributes
import PugComponents.Proofs.Template.WrittenLines
import PugComponents.Proofs.Template.WrittenTags
import PugComponents.Proofs.Text.Balanced
import PugComponents.Proofs.Text.BindingNames
import PugComponents.Proofs.Text.Groups
import PugComponents.Proofs.Text.LetterCase
import PugComponents.Proofs.Text.Positions
import PugComponents.Proofs.Text.Quoting
import PugComponents.Proofs.Text.Respacing
import PugComponents.Proofs.Text.Trimming
