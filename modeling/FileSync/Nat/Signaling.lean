import FileSync.Support.Binary
import FileSync.Support.Io
import FileSync.Support.Maps
import FileSync.Support.Transition

/-!
# Nat — the signaling server

The server of `internal/nat/signaling.go`, at which peers register their addresses and look up
those of others, and the two calls of its client, for any number of calls at once.

* `handleConnection` is what the handler of a connection does with the bytes it reads: it touches
  the map of peers once, so it is one step of the system, and it gives the bytes of the reply.
* `Call.finish` is what a client returns for the bytes it reads.
* `State` has the calls, their connections and the map; `step` is one event.  A call reads the reply
  only when its `Write` has returned, for which all that the server does not read has to find room
  in the buffers of the connection.  A call may fail at any time before it returns, while the server
  goes on with what the call has sent; a handler may give up.
* `handleConnection_message` and `readResponse_message` say what each side makes of a whole message;
  the length of its body is cut to 32 bits.
-/

open Transition

namespace FileSync.Signaling

/-! ### Messages -/

def msgTypeRegister : UInt8 := 0x01

def msgTypeRegisterAck : UInt8 := 0x02

def msgTypePeerRequest : UInt8 := 0x03

def msgTypePeerResponse : UInt8 := 0x04

def msgTypeError : UInt8 := 0xFF

/-- The largest body that is read, by the server and by the client. -/
def maxBody : ℕ := 1024

/-- `PeerEntryExpiry`, in nanoseconds. -/
def peerEntryExpiry : ℤ := 5 * 60 * 1000000000

structure PeerInfo where
  id : Bytes
  publicAddr : Bytes
  localAddr : Bytes
  lastSeen : ℤ
deriving DecidableEq

/-- `s.peers`. -/
abbrev Peers := AList fun _ : Bytes => PeerInfo

/-- What `sendError` is called for. -/
inductive Refusal
  | messageTooLarge
  | unknownMessageType
  | invalidRegister
  | invalidPeerID
  | invalidPublicAddr
  | invalidLocalAddr
  | invalidPeerRequest
  | peerNotFound
deriving DecidableEq

def Refusal.text : Refusal → String
  | .messageTooLarge => "message too large"
  | .unknownMessageType => "unknown message type"
  | .invalidRegister => "invalid register message"
  | .invalidPeerID => "invalid peer ID"
  | .invalidPublicAddr => "invalid public address"
  | .invalidLocalAddr => "invalid local address"
  | .invalidPeerRequest => "invalid peer request"
  | .peerNotFound => "peer not found"

def Refusal.body (r : Refusal) : Bytes := r.text.toUTF8.data.toList

/-- A type, the length of the body and the body. -/
def message (type : UInt8) (body : Bytes) : Bytes :=
  type :: Binary.putUint32 body.length ++ body

/-- The message of `sendError`. -/
def sendError (r : Refusal) : Bytes := message msgTypeError r.body

/-- The message of `sendRegisterAck`. -/
def sendRegisterAck (peerID : Bytes) : Bytes := message msgTypeRegisterAck peerID

/-- The message of `sendPeerResponse`. -/
def sendPeerResponse (peer : PeerInfo) : Bytes :=
  message msgTypePeerResponse (Binary.putField peer.publicAddr ++ Binary.putField peer.localAddr)

/-! ### The server -/

def handleRegister (peers : Peers) (now : ℤ) (body : Bytes) : Peers × Bytes :=
  if body.length < 6 then (peers, sendError .invalidRegister)
  else
    match Binary.readField body with
    | none => (peers, sendError .invalidPeerID)
    | some (peerID, rest) =>
      match Binary.readField rest with
      | none => (peers, sendError .invalidPublicAddr)
      | some (publicAddr, rest) =>
        match Binary.readField rest with
        | none => (peers, sendError .invalidLocalAddr)
        | some (localAddr, _) =>
          (peers.insert peerID ⟨peerID, publicAddr, localAddr, now⟩, sendRegisterAck peerID)

def handlePeerRequest (peers : Peers) (body : Bytes) : Bytes :=
  if body.length < 2 then sendError .invalidPeerRequest
  else
    match Binary.readField body with
    | none => sendError .invalidPeerID
    | some (peerID, _) =>
      match peers.lookup peerID with
      | none => sendError .peerNotFound
      | some peer => sendPeerResponse peer

/-- The map after a connection was handled, and what was written to the connection. -/
def handleConnection (peers : Peers) (now : ℤ) (conn : Reader) : Peers × Bytes :=
  match conn.readFull 5 with
  | ((_, some _), _) => (peers, [])
  | ((header, none), conn) =>
    let msgLen := Binary.uint32 (header.drop 1)
    if msgLen > maxBody then (peers, sendError .messageTooLarge)
    else
      match conn.readFull msgLen with
      | ((_, some _), _) => (peers, [])
      | ((body, none), _) =>
        if header.head? = some msgTypeRegister then handleRegister peers now body
        else if header.head? = some msgTypePeerRequest then
          (peers, handlePeerRequest peers body)
        else (peers, sendError .unknownMessageType)

/-- `PeerInfo` was seen too long ago. -/
def PeerInfo.expired (now : ℤ) (peer : PeerInfo) : Bool := now - peer.lastSeen > peerEntryExpiry

/-- One run of the loop of `cleanupExpiredPeers`. -/
def cleanupExpiredPeers (now : ℤ) (peers : Peers) : Peers :=
  keepEntries (fun peer => !peer.expired now) peers

/-! ### The client -/

def errPeerNotFound : Err := .text "peer not found"

/-- The type and the body of a response. -/
def readResponse (conn : Reader) : Except Err (UInt8 × Bytes) :=
  match conn.readFull 5 with
  | ((_, some e), _) => .error (.wrap "reading response header" e)
  | ((header, none), conn) =>
    let msgLen := Binary.uint32 (header.drop 1)
    if msgLen > maxBody then .error (.text "response too large")
    else
      match conn.readFull msgLen with
      | ((_, some e), _) => .error (.wrap "reading response body" e)
      | ((body, none), _) => .ok (header.headI, body)

def unexpectedType (type : UInt8) : Err :=
  .text ("unexpected response type: " ++ toString type.toNat)

/-- What `Register` returns for the response. -/
def registerResult (conn : Reader) : Option Err :=
  match readResponse conn with
  | .error e => some e
  | .ok (type, body) =>
    if type = msgTypeError then some (.textOf "registration error" body)
    else if type ≠ msgTypeRegisterAck then some (unexpectedType type)
    else none

def parsePeerResponse (body : Bytes) : Except Err PeerInfo :=
  if body.length < 4 then .error (.text "invalid peer response")
  else
    match Binary.readField body with
    | none => .error (.text "invalid public address in response")
    | some (publicAddr, rest) =>
      match Binary.readField rest with
      | none => .error (.text "invalid local address in response")
      | some (localAddr, _) => .ok ⟨[], publicAddr, localAddr, 0⟩

/-- What `LookupPeer` returns for the response. -/
def lookupPeerResult (conn : Reader) : Except Err PeerInfo :=
  match readResponse conn with
  | .error e => .error e
  | .ok (type, body) =>
    if type = msgTypeError then
      if body = Refusal.peerNotFound.body then .error errPeerNotFound
      else .error (.textOf "lookup error" body)
    else if type ≠ msgTypePeerResponse then .error (unexpectedType type)
    else parsePeerResponse body

/-- The calls of a client. -/
inductive Call
  | register (peerID publicAddr localAddr : Bytes)
  | lookupPeer (peerID : Bytes)
deriving DecidableEq

inductive Outcome
  | register (err : Option Err)
  | lookupPeer (result : Except Err PeerInfo)

/-- The body of a register message. -/
def registerBody (peerID publicAddr localAddr : Bytes) : Bytes :=
  Binary.putField peerID ++ (Binary.putField publicAddr ++ Binary.putField localAddr)

namespace Call

/-- What the call sends. -/
def request : Call → Bytes
  | .register peerID publicAddr localAddr =>
    message msgTypeRegister (registerBody peerID publicAddr localAddr)
  | .lookupPeer peerID => message msgTypePeerRequest (Binary.putField peerID)

/-- What the call returns after it has read the reply, on a connection the server has closed. -/
def finish (reply : Bytes) : Call → Outcome
  | .register .. => .register (registerResult (.ofBytes reply))
  | .lookupPeer _ => .lookupPeer (lookupPeerResult (.ofBytes reply))

/-- `Write` of the request can return: the server reads no more of it than a header and the largest
body, and the rest finds room. -/
def Sendable (room : ℕ) (c : Call) : Prop := c.request.length ≤ 5 + maxBody + room

instance (room : ℕ) (c : Call) : Decidable (c.Sendable room) :=
  inferInstanceAs (Decidable (_ ≤ _))

def fail (e : Err) : Call → Outcome
  | .register .. => .register (some e)
  | .lookupPeer _ => .lookupPeer (.error e)

end Call

/-- Where a call can fail by its connection. -/
inductive Fault
  | connecting
  | sending
  | readingHeader
  | readingBody
deriving DecidableEq

def Fault.text : Fault → Call → String
  | .connecting, _ => "connecting to signaling server"
  | .sending, .register .. => "sending register message"
  | .sending, .lookupPeer _ => "sending peer request"
  | .readingHeader, _ => "reading response header"
  | .readingBody, _ => "reading response body"

/-! ### The system -/

/-- A call: it connects, writes its request, and waits for the reply until it returns. -/
inductive Client
  | absent
  | connecting (c : Call)
  | sending (c : Call)
  | waiting (c : Call)
  | returned (c : Call) (o : Outcome)

/-- The call, if it can fail in this way now. -/
def Client.meets : Client → Fault → Option Call
  | .connecting c, .connecting => some c
  | .sending c, .sending => some c
  | .waiting c, .readingHeader | .waiting c, .readingBody => some c
  | _, _ => none

/-- The connection of a call, seen from the server. -/
inductive Conn
  | absent
  | request (msg : Bytes)
  | answered (reply : Bytes)
deriving DecidableEq

structure State (κ : Type) where
  client : κ → Client
  conn : κ → Conn
  peers : Peers

inductive Event (κ : Type)
  | start (k : κ) (c : Call)
  | connect (k : κ)
  | sent (k : κ)
  | serve (k : κ) (now : ℤ)
  | drop (k : κ)
  | finish (k : κ)
  | abort (k : κ) (fault : Fault) (e : Err)
  | sweep (now : ℤ)

namespace State

variable {κ : Type} [DecidableEq κ]

def start : State κ := ⟨fun _ => .absent, fun _ => .absent, ∅⟩

/-- One event, where a connection has room for so many bytes that are not read. -/
def step (room : ℕ) (s : State κ) : Event κ → Option (State κ)
  | .start k c =>
    match s.client k with
    | .absent => some { s with client := Function.update s.client k (.connecting c) }
    | _ => none
  | .connect k =>
    match s.client k with
    | .connecting c =>
      some { s with
        client := Function.update s.client k (.sending c)
        conn := Function.update s.conn k (.request c.request) }
    | _ => none
  | .sent k =>
    match s.client k with
    | .sending c =>
      if c.Sendable room then
        some { s with client := Function.update s.client k (.waiting c) }
      else none
    | _ => none
  | .serve k now =>
    match s.conn k with
    | .request msg =>
      let (peers, reply) := handleConnection s.peers now (.ofBytes msg)
      some { s with
        conn := Function.update s.conn k (.answered reply)
        peers := peers }
    | _ => none
  | .drop k =>
    match s.conn k with
    | .request _ => some { s with conn := Function.update s.conn k (.answered []) }
    | _ => none
  | .finish k =>
    match s.client k, s.conn k with
    | .waiting c, .answered reply =>
      some { s with client := Function.update s.client k (.returned c (c.finish reply)) }
    | _, _ => none
  | .abort k fault e =>
    match (s.client k).meets fault with
    | some c =>
      some { s with
        client := Function.update s.client k
          (.returned c (c.fail (.wrap (fault.text c) e))) }
    | none => none
  | .sweep now => some { s with peers := cleanupExpiredPeers now s.peers }

end State

/-! ### A message on the other side -/

theorem readFull_message (type : UInt8) (body : Bytes) :
    (Reader.ofBytes (message type body)).readFull 5 =
      ((type :: Binary.putUint32 body.length, none), .ofBytes body) := by
  rw [Reader.ofBytes, Reader.readFull_full (by simp [message])]
  rfl

theorem readFull_body (body : Bytes) :
    (Reader.ofBytes body).readFull (body.length % 2 ^ 32) =
      ((body.take (body.length % 2 ^ 32), none), ⟨body.drop (body.length % 2 ^ 32), none⟩) :=
  Reader.readFull_full (Nat.mod_le _ _) none

/-- The server reads as much of the body as the length that was sent says. -/
theorem handleConnection_message (peers : Peers) (now : ℤ) (type : UInt8) (body : Bytes) :
    handleConnection peers now (.ofBytes (message type body)) =
      if body.length % 2 ^ 32 > maxBody then (peers, sendError .messageTooLarge)
      else if type = msgTypeRegister then
        handleRegister peers now (body.take (body.length % 2 ^ 32))
      else if type = msgTypePeerRequest then
        (peers, handlePeerRequest peers (body.take (body.length % 2 ^ 32)))
      else (peers, sendError .unknownMessageType) := by
  simp only [handleConnection, readFull_message, List.drop_succ_cons, List.drop_zero,
    Binary.uint32_putUint32, readFull_body, List.head?_cons, Option.some.injEq]

/-- A lookup leaves the map. -/
theorem handleConnection_peerRequest (peers : Peers) (now : ℤ) (body : Bytes) :
    handleConnection peers now (.ofBytes (message msgTypePeerRequest body)) =
      (peers, if body.length % 2 ^ 32 > maxBody then sendError .messageTooLarge
        else handlePeerRequest peers (body.take (body.length % 2 ^ 32))) := by
  have hne : msgTypePeerRequest ≠ msgTypeRegister := by decide
  rw [handleConnection_message, if_neg hne, if_pos rfl]
  split <;> rfl

/-- A response within the limit is read as it was sent. -/
theorem readResponse_message (type : UInt8) {body : Bytes} (h : body.length ≤ maxBody) :
    readResponse (.ofBytes (message type body)) = .ok (type, body) := by
  have hmod : body.length % 2 ^ 32 = body.length := Nat.mod_eq_of_lt (h.trans_lt (by decide))
  have hread := readFull_body body
  rw [hmod] at hread
  simp only [readResponse, readFull_message, List.drop_succ_cons, List.drop_zero,
    Binary.uint32_putUint32, hmod, hread, if_neg (Nat.not_lt.2 h), List.take_length,
    List.headI_cons]

theorem length_registerBody (peerID publicAddr localAddr : Bytes) :
    (registerBody peerID publicAddr localAddr).length =
      6 + peerID.length + publicAddr.length + localAddr.length := by
  simp only [registerBody, List.length_append, Binary.length_putField]
  omega

theorem Refusal.length_body_le (r : Refusal) : r.body.length ≤ maxBody := by
  cases r <;> decide

end FileSync.Signaling
