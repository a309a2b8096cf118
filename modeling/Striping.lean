import Striping.Column.Basic
import Striping.Column.Bounds
import Striping.Column.Frame
import Striping.Error
import Striping.Leaf.Arena
import Striping.Leaf.Basic
import Striping.Leaf.Conversion
import Striping.Level
import Striping.Nested
import Striping.Number.Binary
import Striping.Number.Notation
import Striping.Number.Shortest
import Striping.Options.Basic
import Striping.Options.Json
import Striping.Outcome
import Striping.Path
import Striping.Physical.Cell
import Striping.Physical.Contract
import Striping.Physical.Faulty
import Striping.Physical.RowGroup
import Striping.Physical.Script
import Striping.Physical.Stripe
import Striping.Position
import Striping.Proofs.Accesses
import Striping.Proofs.Addresses
import Striping.Proofs.Assembly
import Striping.Proofs.Batches
import Striping.Proofs.BufferBounds
import Striping.Proofs.Bulk
import Striping.Proofs.Calls
import Striping.Proofs.Canonical
import Striping.Proofs.Conformance
import Striping.Proofs.Conservation
import Striping.Proofs.Conversion
import Striping.Proofs.Delivery
import Striping.Proofs.Direct
import Striping.Proofs.DottedPaths
import Striping.Proofs.Emission
import Striping.Proofs.Grammar
import Striping.Proofs.InStep
import Striping.Proofs.LeafColumns
import Striping.Proofs.LeafRuns
import Striping.Proofs.LevelSums
import Striping.Proofs.Levels
import Striping.Proofs.Meanings
import Striping.Proofs.Merging
import Striping.Proofs.NormalForm
import Striping.Proofs.Overlap
import Striping.Proofs.Pairing
import Striping.Proofs.Places
import Striping.Proofs.Positions
import Striping.Proofs.Prediction
import Striping.Proofs.Progress
import Striping.Proofs.Projection
import Striping.Proofs.Reception
import Striping.Proofs.Records
import Striping.Proofs.RoundTrip
import Striping.Proofs.Routes
import Striping.Proofs.Rows
import Striping.Proofs.Safety
import Striping.Proofs.SharedLevels
import Striping.Proofs.Sharing
import Striping.Proofs.Spelling
import Striping.Proofs.Steps
import Striping.Proofs.StoredForms
import Striping.Proofs.StripeCalls
import Striping.Proofs.Stripes
import Striping.Proofs.Transparency
import Striping.Proofs.Typing
import Striping.Proofs.Utf8
import Striping.Proofs.Walk
import Striping.Proofs.WriteContract
import Striping.Read.Assemble
import Striping.Read.Assembler
import Striping.Read.Cursor
import Striping.Record.Build
import Striping.Record.Columns
import Striping.Record.Merge
import Striping.Record.Projection
import Striping.Record.Reader
import Striping.Record.Render
import Striping.Record.Session
import Striping.Record.Value
import Striping.Record.Writer
import Striping.Schema.Basic
import Striping.Schema.Build
import Striping.Schema.Leaves
import Striping.Schema.Render
import Striping.Shape.Basic
import Striping.Shape.Cache
import Striping.Shape.Column
import Striping.Shape.Node
import Striping.Text.Combining
import Striping.Text.Invisible
import Striping.Text.Quoted
import Striping.Text.Utf8
import Striping.Write.Buffer
import Striping.Write.Lane
import Striping.Write.Shred
import Striping.Write.Shredder
import Striping.Proofs.BufferBounds
