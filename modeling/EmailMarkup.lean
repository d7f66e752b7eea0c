import EmailMarkup.CommandLine.OnDisk
import EmailMarkup.Forest.Walk
import EmailMarkup.Include.Cache
import EmailMarkup.Include.InPlace
import EmailMarkup.Main
import EmailMarkup.Proofs.Attributes
import EmailMarkup.Proofs.Compiler
import EmailMarkup.Proofs.Diagnostics
import EmailMarkup.Proofs.Forest.Alike
import EmailMarkup.Proofs.Forest.Climb
import EmailMarkup.Proofs.Forest.Refused
import EmailMarkup.Proofs.Forest.Copies
import EmailMarkup.Proofs.Forest.Leaf
import EmailMarkup.Proofs.Forest.Replace
import EmailMarkup.Proofs.Forest.Traversal
import EmailMarkup.Proofs.Head.Fonts
import EmailMarkup.Proofs.Head.StyleEnd
import EmailMarkup.Proofs.Html.Cascade
import EmailMarkup.Proofs.Html.Comments
import EmailMarkup.Proofs.Html.Elements
import EmailMarkup.Proofs.Html.Restyle
import EmailMarkup.Proofs.Html.Spans
import EmailMarkup.Proofs.Html.Survival
import EmailMarkup.Proofs.Include.Cache
import EmailMarkup.Proofs.Include.Calls
import EmailMarkup.Proofs.Include.Complete
import EmailMarkup.Proofs.Include.Coupled
import EmailMarkup.Proofs.Include.Depth
import EmailMarkup.Proofs.Include.Document
import EmailMarkup.Proofs.Include.Fragment
import EmailMarkup.Proofs.Include.InPlace
import EmailMarkup.Proofs.Include.Levels
import EmailMarkup.Proofs.Include.Splice
import EmailMarkup.Proofs.Layout.Columns
import EmailMarkup.Proofs.Page.Conditional
import EmailMarkup.Proofs.Page.HeadComments
import EmailMarkup.Proofs.Page.Inlined
import EmailMarkup.Proofs.Page.Spliced
import EmailMarkup.Proofs.Render.Confined
import EmailMarkup.Proofs.Render.Containers
import EmailMarkup.Proofs.Render.Links
import EmailMarkup.Proofs.Render.MediaQueries
import EmailMarkup.Proofs.Render.Pruned
import EmailMarkup.Proofs.Render.Responsive
import EmailMarkup.Proofs.Render.TextFlow
import EmailMarkup.Proofs.Render.Tolerance
import EmailMarkup.Proofs.Render.Unknown
import EmailMarkup.Proofs.Selector.AttributeTests
import EmailMarkup.Proofs.Selector.Match
import EmailMarkup.Proofs.Selector.Relation
import EmailMarkup.Proofs.Selector.RoundTrip
import EmailMarkup.Proofs.Selector.Written
import EmailMarkup.Proofs.Style.Effective
import EmailMarkup.Proofs.Style.Merge
import EmailMarkup.Proofs.Style.RoundTrip
import EmailMarkup.Proofs.Template.Ampersands
import EmailMarkup.Proofs.Template.AttributeValue
import EmailMarkup.Proofs.Template.Blocks
import EmailMarkup.Proofs.Template.Ceiling
import EmailMarkup.Proofs.Template.Comment
import EmailMarkup.Proofs.Template.Decoded
import EmailMarkup.Proofs.Template.Idempotent
import EmailMarkup.Proofs.Template.Levels
import EmailMarkup.Proofs.Template.Piece
import EmailMarkup.Proofs.Template.Position
import EmailMarkup.Proofs.Template.Protect
import EmailMarkup.Proofs.Template.Reference
import EmailMarkup.Proofs.Template.Respelled
import EmailMarkup.Proofs.Template.RoundTrip
import EmailMarkup.Proofs.Template.Run
import EmailMarkup.Proofs.Template.Settled
import EmailMarkup.Proofs.Template.StartTag
import EmailMarkup.Proofs.Template.Verbatim
import EmailMarkup.Proofs.Template.Wrapper
import EmailMarkup.Proofs.Template.Writable
import EmailMarkup.Proofs.Text.Blank
import EmailMarkup.Proofs.Text.Splice
import EmailMarkup.Proofs.Warnings
import EmailMarkup.Proofs.Style.Stable
import EmailMarkup.Proofs.Style.Printed
import EmailMarkup.Proofs.Style.AtBlocks
import EmailMarkup.Proofs.Style.Quoted
import EmailMarkup.Proofs.Files.Locate
import EmailMarkup.Proofs.Include.Eviction
import EmailMarkup.Proofs.Include.Contained
import EmailMarkup.Proofs.Cascade
import EmailMarkup.Proofs.Page.Joined
import EmailMarkup.Proofs.Template.AttributeValue
