import TreeScript.Access
import TreeScript.Command.Arguments
import TreeScript.Command.Run
import TreeScript.Config.Basic
import TreeScript.Config.Environment
import TreeScript.Conversion
import TreeScript.Disk
import TreeScript.Document.Basic
import TreeScript.Document.Grammar
import TreeScript.Document.Json
import TreeScript.Document.Line
import TreeScript.Document.Reader
import TreeScript.Document.Writer
import TreeScript.Engine.Block
import TreeScript.Engine.Control
import TreeScript.Engine.Execute
import TreeScript.Engine.Loop
import TreeScript.Engine.Registry
import TreeScript.Engine.Session
import TreeScript.Failure
import TreeScript.Keyword.Arguments
import TreeScript.Keyword.Files
import TreeScript.Keyword.Flow
import TreeScript.Keyword.Standard
import TreeScript.Keyword.Widgets
import TreeScript.Main
import TreeScript.Path.Basic
import TreeScript.Path.Grammar
import TreeScript.Path.Resolve
import TreeScript.Proofs.Access.Rules
import TreeScript.Proofs.Access.Spelling
import TreeScript.Proofs.Disk.Way
import TreeScript.Proofs.Document.Grammar
import TreeScript.Proofs.Document.Line
import TreeScript.Proofs.Document.Nesting
import TreeScript.Proofs.Document.Offence
import TreeScript.Proofs.Document.Reread
import TreeScript.Proofs.Document.RoundTrip
import TreeScript.Proofs.Engine.Advance
import TreeScript.Proofs.Engine.Apart
import TreeScript.Proofs.Engine.Block
import TreeScript.Proofs.Engine.Boundary
import TreeScript.Proofs.Engine.Coverage
import TreeScript.Proofs.Engine.Deliver
import TreeScript.Proofs.Engine.Depth
import TreeScript.Proofs.Engine.Ensures
import TreeScript.Proofs.Engine.Execute
import TreeScript.Proofs.Engine.Graft
import TreeScript.Proofs.Engine.Held
import TreeScript.Proofs.Engine.Isolation
import TreeScript.Proofs.Engine.Loop
import TreeScript.Proofs.Engine.Moment
import TreeScript.Proofs.Engine.Preserve
import TreeScript.Proofs.Engine.Program
import TreeScript.Proofs.Engine.Results
import TreeScript.Proofs.Engine.Run
import TreeScript.Proofs.Engine.Succeeds
import TreeScript.Proofs.Engine.Walk
import TreeScript.Proofs.Keyword.Answers
import TreeScript.Proofs.Keyword.Arguments
import TreeScript.Proofs.Keyword.Around
import TreeScript.Proofs.Keyword.Backed
import TreeScript.Proofs.Keyword.Body
import TreeScript.Proofs.Keyword.Confinement
import TreeScript.Proofs.Keyword.Depth
import TreeScript.Proofs.Keyword.Files
import TreeScript.Proofs.Keyword.Flow
import TreeScript.Proofs.Keyword.Giving
import TreeScript.Proofs.Keyword.Leave
import TreeScript.Proofs.Keyword.Listing
import TreeScript.Proofs.Keyword.Properties
import TreeScript.Proofs.Keyword.Rounds
import TreeScript.Proofs.Keyword.Standard
import TreeScript.Proofs.Keyword.Unwind
import TreeScript.Proofs.Keyword.Widgets
import TreeScript.Proofs.Keyword.Writes
import TreeScript.Proofs.Outcome
import TreeScript.Proofs.Path.Inside
import TreeScript.Proofs.Path.Live
import TreeScript.Proofs.Path.Results
import TreeScript.Proofs.Path.Segments
import TreeScript.Proofs.Scalar.Binary64
import TreeScript.Proofs.Scalar.Formats
import TreeScript.Proofs.Scalar.Numeral
import TreeScript.Proofs.Scalar.Plain
import TreeScript.Proofs.Store.Adopt
import TreeScript.Proofs.Store.Answers
import TreeScript.Proofs.Store.Bare
import TreeScript.Proofs.Store.Calls
import TreeScript.Proofs.Store.Commute
import TreeScript.Proofs.Store.Copies
import TreeScript.Proofs.Store.Count
import TreeScript.Proofs.Store.DeepCopy
import TreeScript.Proofs.Store.Descent
import TreeScript.Proofs.Store.Discipline
import TreeScript.Proofs.Store.Edits
import TreeScript.Proofs.Store.Enclosure
import TreeScript.Proofs.Store.Fence
import TreeScript.Proofs.Store.Freeing
import TreeScript.Proofs.Store.Front
import TreeScript.Proofs.Store.Handles
import TreeScript.Proofs.Store.Handover
import TreeScript.Proofs.Store.Holding
import TreeScript.Proofs.Store.Links
import TreeScript.Proofs.Store.LiveChildren
import TreeScript.Proofs.Store.Load
import TreeScript.Proofs.Store.Navigation
import TreeScript.Proofs.Store.Outline
import TreeScript.Proofs.Store.Place
import TreeScript.Proofs.Store.Plant
import TreeScript.Proofs.Store.Raising
import TreeScript.Proofs.Store.Reach
import TreeScript.Proofs.Store.Removal
import TreeScript.Proofs.Store.Reread
import TreeScript.Proofs.Store.Signal
import TreeScript.Proofs.Store.Since
import TreeScript.Proofs.Store.Slots
import TreeScript.Proofs.Store.Strip
import TreeScript.Proofs.Store.View
import TreeScript.Proofs.Text.ByteOrder
import TreeScript.Proofs.Text.Lower
import TreeScript.Proofs.Text.Peg
import TreeScript.Proofs.Text.Quote
import TreeScript.Proofs.Text.Utf8
import TreeScript.Proofs.Twin.Agree
import TreeScript.Proofs.Twin.Copy
import TreeScript.Proofs.Twin.Edits
import TreeScript.Proofs.Twin.Keyword
import TreeScript.Proofs.Twin.Pairing
import TreeScript.Proofs.Twin.Path
import TreeScript.Proofs.Twin.Plant
import TreeScript.Proofs.Twin.Store
import TreeScript.Proofs.Widget.Attributes
import TreeScript.Proofs.Widget.Calls
import TreeScript.Scalar.Basic
import TreeScript.Scalar.Binary64
import TreeScript.Scalar.Guid
import TreeScript.Scalar.Instant
import TreeScript.Store.Basic
import TreeScript.Store.Edit
import TreeScript.Store.Load
import TreeScript.Store.Navigation
import TreeScript.Store.Shape
import TreeScript.Store.View
import TreeScript.Text.Base64
import TreeScript.Text.Lower
import TreeScript.Text.Numeral
import TreeScript.Text.Peg
import TreeScript.Text.Quote
import TreeScript.Text.Range
import TreeScript.Text.Shape
import TreeScript.Text.Space
import TreeScript.Text.Utf8
import TreeScript.Text.Word
import TreeScript.Toml.Basic
import TreeScript.Toml.Date
import TreeScript.Toml.Reader
import TreeScript.Toml.Token
import TreeScript.Widget
