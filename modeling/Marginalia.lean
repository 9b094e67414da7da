import Marginalia.Cache
import Marginalia.CommandLine
import Marginalia.Comment.Extent
import Marginalia.Comment.Extract
import Marginalia.Comment.Identifier
import Marginalia.Comment.Locate
import Marginalia.Comment.Lookup
import Marginalia.Comment.Marker
import Marginalia.Diagnostic
import Marginalia.Document
import Marginalia.Gloss
import Marginalia.Grammar.BackReference
import Marginalia.Grammar.Bundled
import Marginalia.Grammar.Candidates
import Marginalia.Grammar.Declaration
import Marginalia.Grammar.Rule
import Marginalia.Grammar.Table
import Marginalia.Json.Basic
import Marginalia.Json.Numeral
import Marginalia.Json.Printer
import Marginalia.Json.Reader
import Marginalia.Language
import Marginalia.Main
import Marginalia.Pattern.Basic
import Marginalia.Pattern.Bounds
import Marginalia.Pattern.Engine
import Marginalia.Pattern.Literal
import Marginalia.Pattern.Search
import Marginalia.Pattern.Source
import Marginalia.Proofs.Cache
import Marginalia.Proofs.Cache.Histories
import Marginalia.Proofs.Comment.Blocks
import Marginalia.Proofs.Comment.Buffers
import Marginalia.Proofs.Comment.Bundled
import Marginalia.Proofs.Comment.Checked
import Marginalia.Proofs.Comment.Columns
import Marginalia.Proofs.Comment.Content
import Marginalia.Proofs.Comment.Documents
import Marginalia.Proofs.Comment.Extraction
import Marginalia.Proofs.Comment.Finding
import Marginalia.Proofs.Comment.Idempotence
import Marginalia.Proofs.Comment.InPlace
import Marginalia.Proofs.Comment.Joining
import Marginalia.Proofs.Comment.Marks
import Marginalia.Proofs.Comment.Merging
import Marginalia.Proofs.Comment.Neat
import Marginalia.Proofs.Comment.Orderly
import Marginalia.Proofs.Comment.Runs
import Marginalia.Proofs.Comment.Safety
import Marginalia.Proofs.Comment.Spans
import Marginalia.Proofs.Comment.Spelling
import Marginalia.Proofs.Comment.Visible
import Marginalia.Proofs.Comment.Walks
import Marginalia.Proofs.Comment.Widening
import Marginalia.Proofs.Comment.Words
import Marginalia.Proofs.Document.Edits
import Marginalia.Proofs.Document.Offsets
import Marginalia.Proofs.Grammar.Building
import Marginalia.Proofs.Grammar.Correspondence
import Marginalia.Proofs.Grammar.Disabled
import Marginalia.Proofs.Grammar.Drafts
import Marginalia.Proofs.Grammar.Evaluation
import Marginalia.Proofs.Grammar.Expansion
import Marginalia.Proofs.Grammar.Failures
import Marginalia.Proofs.Grammar.Layout
import Marginalia.Proofs.Grammar.Muting
import Marginalia.Proofs.Grammar.Numbering
import Marginalia.Proofs.Grammar.Overflow
import Marginalia.Proofs.Grammar.Reading
import Marginalia.Proofs.Grammar.References
import Marginalia.Proofs.Grammar.Sites
import Marginalia.Proofs.Json
import Marginalia.Proofs.Json.Numeral
import Marginalia.Proofs.Pattern.Literal
import Marginalia.Proofs.Pattern.Openings
import Marginalia.Proofs.Registry.Failures
import Marginalia.Proofs.Registry.Histories
import Marginalia.Proofs.Registry.Memory
import Marginalia.Proofs.Server.Answers
import Marginalia.Proofs.Server.Calm
import Marginalia.Proofs.Server.Documents
import Marginalia.Proofs.Server.Exchanges
import Marginalia.Proofs.Server.Faults
import Marginalia.Proofs.Server.Framing
import Marginalia.Proofs.Server.Freshness
import Marginalia.Proofs.Server.Handling
import Marginalia.Proofs.Server.Knowledge
import Marginalia.Proofs.Server.Lookups
import Marginalia.Proofs.Server.Offers
import Marginalia.Proofs.Server.Order
import Marginalia.Proofs.Server.Outcomes
import Marginalia.Proofs.Server.Replica
import Marginalia.Proofs.Server.Reports
import Marginalia.Proofs.Server.Requests
import Marginalia.Proofs.Server.RoundTrip
import Marginalia.Proofs.Server.Runs
import Marginalia.Proofs.Server.Staleness
import Marginalia.Proofs.Server.Steps
import Marginalia.Proofs.Server.Waits
import Marginalia.Proofs.Service
import Marginalia.Proofs.Text
import Marginalia.Proofs.Text.Boundaries
import Marginalia.Proofs.Text.Characters
import Marginalia.Proofs.Text.Edges
import Marginalia.Proofs.Token.Agreement
import Marginalia.Proofs.Token.BackReferences
import Marginalia.Proofs.Token.Columns
import Marginalia.Proofs.Token.Correspondence
import Marginalia.Proofs.Token.Eager
import Marginalia.Proofs.Token.Evaluation
import Marginalia.Proofs.Token.Lazy
import Marginalia.Proofs.Token.Leftmost
import Marginalia.Proofs.Token.Moves
import Marginalia.Proofs.Token.Partition
import Marginalia.Proofs.Token.Pieces
import Marginalia.Proofs.Token.Stacks
import Marginalia.Proofs.Token.Termination
import Marginalia.Proofs.Token.Unclosed
import Marginalia.Registry.Basic
import Marginalia.Registry.Descriptor
import Marginalia.Server.Documents
import Marginalia.Server.Fields
import Marginalia.Server.Frame
import Marginalia.Server.Incoming
import Marginalia.Server.Inquiry
import Marginalia.Server.Session
import Marginalia.Server.Setup
import Marginalia.Server.State
import Marginalia.Service
import Marginalia.Text.Bytes
import Marginalia.Text.Decimal
import Marginalia.Text.Path
import Marginalia.Text.Utf16
import Marginalia.Text.Utf8
import Marginalia.Token.Basic
import Marginalia.Token.Captures
import Marginalia.Token.Document
import Marginalia.Token.Line
import Marginalia.Token.Query
import Marginalia.Token.Stack
import Marginalia.Token.Step
import Marginalia.Word
