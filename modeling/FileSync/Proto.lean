import FileSync.Support.Io

/-!
# Proto — messages

The messages of `internal/proto` that a sync exchanges.  A reply is taken as what decoding its
payload gives for each message it may be decoded as, so that no property of the encoding is
assumed.
-/

namespace FileSync.Proto

/-- `proto.ManifestNode`. -/
structure ManifestNode where
  name : Bytes
  isDir : Bool
  hash : Bytes
  mode : UInt32
  size : UInt64
  children : List ManifestNode
  chunks : List Bytes

/-- `proto.ManifestResponse`. -/
structure ManifestResponse where
  root : Option ManifestNode

/-- `proto.Chunk`. -/
structure Chunk where
  hash : Bytes
  data : Bytes
  size : UInt32
deriving DecidableEq

/-- `proto.ChunkResponse`. -/
structure ChunkResponse where
  chunks : List Chunk
  notFound : List Bytes
deriving DecidableEq

/-- The message types, and the numbers that name none. -/
inductive MessageType
  | unspecified
  | handshake
  | handshakeAck
  | manifestRequest
  | manifestResponse
  | chunkRequest
  | chunkResponse
  | error
  | other (number : ℤ)
deriving DecidableEq, Repr

def MessageType.number : MessageType → ℤ
  | .unspecified => 0
  | .handshake => 1
  | .handshakeAck => 2
  | .manifestRequest => 3
  | .manifestResponse => 4
  | .chunkRequest => 5
  | .chunkResponse => 6
  | .error => 7
  | .other number => number

/-- The two requests; a manifest is asked for with all its levels and chunks. -/
inductive Request
  | manifest
  | chunks (hashes : List Bytes)
deriving DecidableEq

/-- An envelope, with what `UnmarshalPayload` makes of its payload. -/
structure Reply where
  type : MessageType
  asManifest : Except Err ManifestResponse
  asChunks : Except Err ChunkResponse

/-- Where an exchange over a new stream can fail. -/
inductive Stage
  | opening
  | sending
  | reading
deriving DecidableEq, Repr

/-- The outcome of one exchange. -/
abbrev Exchange := Except (Stage × Err) Reply

end FileSync.Proto
