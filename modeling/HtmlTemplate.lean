import HtmlTemplate.CommandLine
import HtmlTemplate.Main
import HtmlTemplate.Markup.Difference
import HtmlTemplate.Markup.Listing
import HtmlTemplate.Template.Literal
import HtmlTemplate.Template.Sample
import HtmlTemplate.Proofs.Offsets
import HtmlTemplate.Proofs.Continuation
import HtmlTemplate.Proofs.Literals
import HtmlTemplate.Proofs.Writing
import HtmlTemplate.Proofs.Intent
import HtmlTemplate.Proofs.ReadBack
import HtmlTemplate.Proofs.Evaluation
import HtmlTemplate.Proofs.Rendering
import HtmlTemplate.Proofs.Nesting
import HtmlTemplate.Proofs.Growth
import HtmlTemplate.Proofs.Calls
import HtmlTemplate.Proofs.Correctness
import HtmlTemplate.Proofs.Marks
import HtmlTemplate.Proofs.Hoisting
import HtmlTemplate.Proofs.Totality
import HtmlTemplate.Proofs.Checked
import HtmlTemplate.Proofs.Compiles
import HtmlTemplate.Proofs.Safety
import HtmlTemplate.Proofs.Optimization
import HtmlTemplate.Proofs.Acceptance
import HtmlTemplate.Proofs.Balance
import HtmlTemplate.Proofs.RoundTrip
import HtmlTemplate.Proofs.StaticText
import HtmlTemplate.Proofs.Coverage
import HtmlTemplate.Proofs.History
import HtmlTemplate.Proofs.Keys
import HtmlTemplate.Proofs.Brackets
import HtmlTemplate.Proofs.Outline
import HtmlTemplate.Proofs.ImplicitClose
import HtmlTemplate.Proofs.Presentation
import HtmlTemplate.Proofs.Spanless
import HtmlTemplate.Proofs.Positions
import HtmlTemplate.Proofs.EventSpans
import HtmlTemplate.Proofs.Ranges
import HtmlTemplate.Proofs.Notices
import HtmlTemplate.Proofs.Lexemes
import HtmlTemplate.Proofs.Grammar
import HtmlTemplate.Proofs.Layouts
import HtmlTemplate.Proofs.AttributeNames
import HtmlTemplate.Proofs.Scan.Bytes
import HtmlTemplate.Proofs.Scan.Offsets
import HtmlTemplate.Proofs.Scan.Tags
import HtmlTemplate.Proofs.Scan.Attributes
import HtmlTemplate.Proofs.Scan.Constructs
import HtmlTemplate.Proofs.Scan.Texts
import HtmlTemplate.Proofs.Scan.References
import HtmlTemplate.Proofs.Scan.OpenTags
import HtmlTemplate.Proofs.Scan.Run
import HtmlTemplate.Proofs.StartTagForms
import HtmlTemplate.Proofs.SmallLetters
import HtmlTemplate.Proofs.RawElements
import HtmlTemplate.Proofs.RawEndTags
import HtmlTemplate.Proofs.Runs
import HtmlTemplate.Proofs.TextRuns
import HtmlTemplate.Proofs.OpenFrames
import HtmlTemplate.Proofs.Filling
import HtmlTemplate.Proofs.NestingLimit
import HtmlTemplate.Proofs.Preformatted
import HtmlTemplate.Proofs.Condensed
import HtmlTemplate.Proofs.Purposes
import HtmlTemplate.Proofs.StaticMarks
import HtmlTemplate.Proofs.BoundEntries
import HtmlTemplate.Proofs.DistinctNames
import HtmlTemplate.Proofs.Decoding
import HtmlTemplate.Proofs.Splitting
import HtmlTemplate.Proofs.StaticCalls
import HtmlTemplate.Proofs.Conditions
import HtmlTemplate.Proofs.CheckedCalls
import HtmlTemplate.Proofs.StaticRuns
import HtmlTemplate.Proofs.Dependence
import HtmlTemplate.Proofs.SourceLines
import HtmlTemplate.Proofs.CodeFrames
import HtmlTemplate.Proofs.DirectiveNames
import HtmlTemplate.Proofs.AttributeSpans
import HtmlTemplate.Proofs.Extents
import HtmlTemplate.Proofs.SideEffects
import HtmlTemplate.Proofs.Keywords
import HtmlTemplate.Proofs.Listings
import HtmlTemplate.Proofs.Styles
