import FileSync.Support.Sha256
import FileSync.Support.Io
import FileSync.Support.Blocks
import FileSync.Support.Ring
import FileSync.Support.Maps
import FileSync.Support.Program
import FileSync.Support.Hex
import FileSync.Support.Binary
import FileSync.Support.Transition
import FileSync.Support.Refinement
import FileSync.Support.Locked
import FileSync.Support.Outcomes
import FileSync.Support.Reads
import FileSync.Support.Search
import FileSync.Os.Path
import FileSync.Os.Tree
import FileSync.Os.Directories
import FileSync.Os.WellFormed
import FileSync.Os.Links
import FileSync.Os.Names
import FileSync.Os.Shadow
import FileSync.Os.Rewrite
import FileSync.Os.Walk
import FileSync.Proto
import FileSync.Proto.Manifest
import FileSync.Proto.Envelope
import FileSync.System
import FileSync.Delta.Rolling
import FileSync.Delta.Feeding
import FileSync.Delta.RoundTrip
import FileSync.Delta.Generate
import FileSync.Delta.Scan
import FileSync.Delta.Refinement
import FileSync.Delta.Lookup
import FileSync.Delta.Oversized
import FileSync.Delta.Codec
import FileSync.Delta.Hostile
import FileSync.Delta.SignatureCodec
import FileSync.Merkle.Tree
import FileSync.Merkle.Commitment
import FileSync.Merkle.Preimage
import FileSync.Merkle.Diff
import FileSync.Merkle.DiffExact
import FileSync.Cas.Store
import FileSync.Cas.Kept
import FileSync.Cas.WriteOnce
import FileSync.Cas.Concurrent
import FileSync.Cas.Layout
import FileSync.Cas.VerifyAll
import FileSync.Cas.Faults
import FileSync.Cas.Chunker
import FileSync.Cas.StoreReader
import FileSync.Merkle.Build
import FileSync.Merkle.Order
import FileSync.Merkle.Visible
import FileSync.Merkle.Manifest
import FileSync.Merkle.Rehash
import FileSync.Merkle.GetChild
import FileSync.Diff.Trees
import FileSync.Net.SyncManager
import FileSync.Net.Origins
import FileSync.Net.Completeness
import FileSync.Net.Accounting
import FileSync.Net.Transport
import FileSync.Cli.Reconstruct
import FileSync.Cli.Containment
import FileSync.Cli.Index
import FileSync.Cli.Manifest
import FileSync.Cli.Conversions
import FileSync.Cli.Sync
import FileSync.Cli.Coverage
import FileSync.Cli.Deletions
import FileSync.Cli.Slices
import FileSync.Cli.Links
import FileSync.Cli.LinkedStore
import FileSync.Cli.Served
import FileSync.Cli.Unsteady
import FileSync.Cli.Interrupted
import FileSync.Cli.Realised
import FileSync.Cli.Rebuilt
import FileSync.Cli.Identical
import FileSync.Cli.Serve
import FileSync.Cli.Complete
import FileSync.Cli.Mirror
import FileSync.Cli.Faults
import FileSync.Cli.Lifecycle
import FileSync.Nat.Relay
import FileSync.Nat.Transparency
import FileSync.Nat.Moves
import FileSync.Nat.Pairing
import FileSync.Nat.Registry
import FileSync.Nat.HolePunch
import FileSync.Nat.Signaling
import FileSync.Nat.Register
import FileSync.Nat.Directory
import FileSync.Nat.Stun
import FileSync.Nat.Fallback
import FileSync.Db.Store
import FileSync.Db.Referential
import FileSync.Db.Snapshots
import FileSync.Watcher.Model
import FileSync.Watcher.Freshness
import FileSync.Watcher.Listing
import FileSync.Watcher.Scan
