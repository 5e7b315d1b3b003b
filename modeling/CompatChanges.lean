import CompatChanges.Archive.Bits
import CompatChanges.Archive.CentralDirectory
import CompatChanges.Archive.CodePage437
import CompatChanges.Archive.Crc32
import CompatChanges.Archive.Deflate
import CompatChanges.Archive.EndRecord
import CompatChanges.Archive.Entry
import CompatChanges.Archive.Error
import CompatChanges.Archive.ExtraField
import CompatChanges.Archive.Fragment
import CompatChanges.Archive.Header
import CompatChanges.Archive.Huffman
import CompatChanges.Change
import CompatChanges.Command.Arguments
import CompatChanges.Command.Files
import CompatChanges.Command.Run
import CompatChanges.Conflict
import CompatChanges.Fragment
import CompatChanges.Main
import CompatChanges.Merge
import CompatChanges.Sink
import CompatChanges.Text.Blank
import CompatChanges.Text.Case
import CompatChanges.Text.Numeral
import CompatChanges.Text.Utf8
import CompatChanges.Text.Utf8.Lemmas
import CompatChanges.View
import CompatChanges.Xml.Document
import CompatChanges.Xml.Error
import CompatChanges.Xml.Layout
import CompatChanges.Xml.Markup
import CompatChanges.Xml.Reference
import CompatChanges.Xml.Span
import CompatChanges.Xml.Tag
import CompatChanges.Xml.Tree
import CompatChanges.Proofs.Definition
import CompatChanges.Proofs.Run
import CompatChanges.Proofs.Verdict
import CompatChanges.Proofs.Report
import CompatChanges.Proofs.Commit
import CompatChanges.Proofs.Spans
import CompatChanges.Proofs.Bare
import CompatChanges.Proofs.Escape
import CompatChanges.Proofs.Event
import CompatChanges.Proofs.Tag
import CompatChanges.Proofs.Written
import CompatChanges.Proofs.Normal
import CompatChanges.Proofs.RoundTrip
import CompatChanges.Proofs.Kept
import CompatChanges.Proofs.Accepted
import CompatChanges.Proofs.Spelling
import CompatChanges.Proofs.LineBreak
import CompatChanges.Proofs.Verbatim
import CompatChanges.Proofs.Output
import CompatChanges.Proofs.Remerge
import CompatChanges.Proofs.Cut
import CompatChanges.Proofs.Derivation
import CompatChanges.Proofs.Extent
import CompatChanges.Proofs.Content
import CompatChanges.Proofs.Stable
import CompatChanges.Proofs.Limited
import CompatChanges.Proofs.Inputs
import CompatChanges.Proofs.Place
import CompatChanges.Proofs.Settings
import CompatChanges.Proofs.Execution
import CompatChanges.Proofs.Delivery
import CompatChanges.Proofs.Sequence
import CompatChanges.Proofs.Lenient
import CompatChanges.Proofs.Lines
import CompatChanges.Proofs.Trace
import CompatChanges.Proofs.Truncated
import CompatChanges.Proofs.AttributeText
import CompatChanges.Proofs.AttributeSearch
import CompatChanges.Proofs.AttributeSpan
import CompatChanges.Proofs.Selection
import CompatChanges.Proofs.Turns
import CompatChanges.Proofs.ReportLines
import CompatChanges.Proofs.Comment
import CompatChanges.Proofs.Columns
import CompatChanges.Proofs.Numeral
import CompatChanges.Proofs.Origins
import CompatChanges.Proofs.Faults
import CompatChanges.Proofs.Reference
