import RichText.Action
import RichText.Canvas
import RichText.Cli.Arguments
import RichText.Cli.Directory
import RichText.Cli.Path
import RichText.Cli.Run
import RichText.Config
import RichText.Document.Boundary
import RichText.Document.Node
import RichText.Document.Normal
import RichText.Document.Splice
import RichText.Document.Token
import RichText.Edit
import RichText.Kdl.Entry
import RichText.Kdl.Number
import RichText.Kdl.Reader
import RichText.Kdl.Token
import RichText.Kdl.Value
import RichText.Main
import RichText.Markup.Event
import RichText.Markup.Printer
import RichText.Markup.StartTag
import RichText.Markup.Tree
import RichText.Markup.WellFormed
import RichText.Registry
import RichText.Registry.Standard
import RichText.Selection
import RichText.Selection.Reader
import RichText.Session
import RichText.Source
import RichText.Text.Ascii
import RichText.Text.Chars
import RichText.Text.Escape
import RichText.Text.Numeral
import RichText.Text.Numeric
import RichText.Text.Reference
import RichText.Text.Space
import RichText.Views
import RichText.Proofs.Normalize
import RichText.Proofs.Canonical
import RichText.Proofs.Clamping
import RichText.Proofs.Escape
import RichText.Proofs.StartTag
import RichText.Proofs.Building
import RichText.Proofs.Reading
import RichText.Proofs.RoundTrip
import RichText.Proofs.Tokens
import RichText.Proofs.Balance
import RichText.Proofs.Flattening
import RichText.Proofs.Offsets
import RichText.Proofs.Gaps
import RichText.Proofs.Letters
import RichText.Proofs.Insertions
import RichText.Proofs.StandardActions
import RichText.Proofs.Outcomes
import RichText.Proofs.Registering
import RichText.Proofs.Growth
import RichText.Proofs.Configuring
import RichText.Proofs.SelectionText
import RichText.Proofs.Agreement
import RichText.Proofs.Edits
import RichText.Proofs.Hosts
import RichText.Proofs.Place
import RichText.Proofs.Splice
import RichText.Proofs.TwoPaths
import RichText.Proofs.Conservation
import RichText.Proofs.Parametricity
import RichText.Proofs.Skipping
import RichText.Proofs.CommandLine
import RichText.Proofs.Writing
import RichText.Proofs.Wrapping
import RichText.Proofs.Ranges
import RichText.Proofs.Leaves
import RichText.Proofs.Breaking
import RichText.Proofs.Parts
import RichText.Proofs.Survival
import RichText.Proofs.Enclosure
import RichText.Proofs.SeparateRanges
import RichText.Proofs.Cloning
import RichText.Proofs.Stacking
import RichText.Proofs.Undoing
import RichText.Proofs.Typing
import RichText.Proofs.TakingBack
import RichText.Proofs.Rewriting
import RichText.Proofs.Nesting
import RichText.Proofs.Spelling
import RichText.Proofs.Canonical
