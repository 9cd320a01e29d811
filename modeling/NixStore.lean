import NixStore.Archive.Dump
import NixStore.Archive.Format
import NixStore.Archive.Live
import NixStore.Archive.Marks
import NixStore.Archive.Reader
import NixStore.Archive.Still
import NixStore.Archive.Token
import NixStore.Archive.Watched
import NixStore.Config.Basic
import NixStore.Config.Document
import NixStore.Database.Address
import NixStore.Database.Basic
import NixStore.Database.Cell
import NixStore.Database.History
import NixStore.Database.Location
import NixStore.Database.Numeral
import NixStore.Database.Shared
import NixStore.Database.Tables
import NixStore.Database.Volume
import NixStore.Digest.Base16
import NixStore.Digest.Base32
import NixStore.Digest.Basic
import NixStore.Digest.Sha256
import NixStore.Engine.Basic
import NixStore.Engine.Closure
import NixStore.Engine.Expansion
import NixStore.Engine.Fixed
import NixStore.Engine.Graph
import NixStore.Engine.Local
import NixStore.Engine.Memory
import NixStore.Engine.Query
import NixStore.Engine.Search
import NixStore.Error.Config
import NixStore.Error.Database
import NixStore.Error.Engine
import NixStore.Error.Os
import NixStore.Error.Store
import NixStore.FileTree.Basic
import NixStore.FileTree.Change
import NixStore.FileTree.Lookup
import NixStore.FileTree.Path
import NixStore.FileTree.Sighting
import NixStore.Handle
import NixStore.Handle.Request
import NixStore.Handle.Settings
import NixStore.Increasing
import NixStore.Moment
import NixStore.PathInfo.Basic
import NixStore.SetupGuard
import NixStore.SetupGuard.Openers
import NixStore.StorePath.Basic
import NixStore.StorePath.Datum
import NixStore.StorePath.Directory
import NixStore.StorePath.Error
import NixStore.StorePath.Order
import NixStore.StorePath.Positions
import NixStore.StorePath.Rules
import NixStore.Stream.Archive
import NixStore.Stream.Channel
import NixStore.Stream.Producer
import NixStore.Stream.Receiver
import NixStore.Stream.Script
import NixStore.Stream.Segments
import NixStore.Stream.Sender
import NixStore.Stream.Transmission
import NixStore.Text.Basic
import NixStore.Text.Blank
import NixStore.Text.Decimal
import NixStore.Text.Digits
import NixStore.Text.Printable
import NixStore.Text.Quoted
import NixStore.Text.Utf8
import NixStore.Proofs.Archive.Changing
import NixStore.Proofs.Archive.Decoding
import NixStore.Proofs.Archive.Encoding
import NixStore.Proofs.Archive.Limits
import NixStore.Proofs.Archive.Live
import NixStore.Proofs.Archive.Marks
import NixStore.Proofs.Archive.Partial
import NixStore.Proofs.Archive.Transcript
import NixStore.Proofs.Archive.Watched
import NixStore.Proofs.Archive.Writing
import NixStore.Proofs.Database.Consistency
import NixStore.Proofs.Database.Growth
import NixStore.Proofs.Database.HashPart
import NixStore.Proofs.Database.Linked
import NixStore.Proofs.Database.Recall
import NixStore.Proofs.Database.Registering
import NixStore.Proofs.Database.Reordering
import NixStore.Proofs.Database.Sorting
import NixStore.Proofs.Digest.Base32
import NixStore.Proofs.Digest.Naming
import NixStore.Proofs.Digest.Numeral
import NixStore.Proofs.Engine.Answering
import NixStore.Proofs.Engine.Duality
import NixStore.Proofs.Engine.Failure
import NixStore.Proofs.Engine.Growth
import NixStore.Proofs.Engine.HashPart
import NixStore.Proofs.Engine.Layers
import NixStore.Proofs.Engine.Observation
import NixStore.Proofs.Engine.Once
import NixStore.Proofs.Engine.Reachability
import NixStore.Proofs.Engine.Recall
import NixStore.Proofs.Engine.Registered
import NixStore.Proofs.Engine.Relation
import NixStore.Proofs.Engine.Reordering
import NixStore.Proofs.Engine.Sharing
import NixStore.Proofs.Engine.Turns
import NixStore.Proofs.FileTree.Changes
import NixStore.Proofs.FileTree.Lookup
import NixStore.Proofs.FileTree.Places
import NixStore.Proofs.FileTree.Readable
import NixStore.Proofs.Handle.Limits
import NixStore.Proofs.Handle.Search
import NixStore.Proofs.Handle.Translation
import NixStore.Proofs.Moment
import NixStore.Proofs.PathInfo.Signers
import NixStore.Proofs.SetupGuard.Openers
import NixStore.Proofs.StorePath.Directories
import NixStore.Proofs.StorePath.Parsing
import NixStore.Proofs.StorePath.Rules
import NixStore.Proofs.Stream.Chunks
import NixStore.Proofs.Stream.Cutting
import NixStore.Proofs.Stream.Delivery
import NixStore.Proofs.Stream.Interleaving
import NixStore.Proofs.Stream.Leaving
import NixStore.Proofs.Stream.Pieces
import NixStore.Proofs.Stream.Progress
import NixStore.Proofs.Stream.Reading
import NixStore.Proofs.Stream.Sinks
import NixStore.Proofs.Stream.Transfer
import NixStore.Proofs.Stream.Transmission
import NixStore.Proofs.Text.Order
import NixStore.Proofs.Text.Words
