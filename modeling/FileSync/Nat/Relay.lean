import FileSync.Support.Binary
import FileSync.Support.Maps
import FileSync.Support.Transition

/-!
# Nat — the relay server

The TCP relay of `internal/nat/relay.go`, for any number of connections.  The handler of a
connection reads a connect request with a session ID.  The first connection with an ID is put into
the map of waiting connections, where its handler waits for a timer; the second takes it out, makes
a session of the two, acknowledges both and copies what each sends to the other.

Everything that a goroutine does between two calls that block or touch shared state is one event.  A
call that blocks happens when it can.  Timers may expire at any time.

* `Conn` is what has gone over a connection; `Session` is a relay session with the goroutines that
  serve it, which is run by the handler of `PeerB`; `Phase` is where the handler of a connection is.
* `Server` is the state and `step` the events.
-/

namespace FileSync.Relay

/-! ### Messages -/

def relayMsgConnect : UInt8 := 0x01

def relayMsgConnectAck : UInt8 := 0x02

def relayMsgError : UInt8 := 0xFF

def relayBufferSize : ℕ := 32 * 1024

def maxSessionIDLen : ℕ := 256

/-- A type, the length of the payload and the payload. -/
def message (type : UInt8) (payload : Bytes) : Bytes :=
  type :: Binary.putUint32 payload.length ++ payload

/-- The message of `sendConnectAck`. -/
def connectAck (sessionID : Bytes) : Bytes := message relayMsgConnectAck sessionID

/-- The message of `sendError`. -/
def errorMsg (text : String) : Bytes := message relayMsgError text.toUTF8.toList

/-! ### Connections -/

/-- What has gone over a connection: `taken` bytes of what the peer has sent were read.  The peer is
`gone` when it has closed the connection or failed. -/
structure Conn where
  sent : Bytes := []
  taken : ℕ := 0
  written : Bytes := []
  gone : Bool := false
  closed : Bool := false
  deadline : Bool := true
deriving DecidableEq

/-- How a `Write` returns: with an error it may have written some bytes. -/
inductive Outcome
  | ok
  | fails (bytes : ℕ)
deriving DecidableEq

namespace Conn

/-- A call on the connection can fail: it is closed, the peer is gone, or the deadline may pass. -/
def canFail (c : Conn) : Bool := c.closed || c.gone || c.deadline

def unread (c : Conn) : Bytes := c.sent.drop c.taken

/-- `Read` of `n` bytes. -/
def read (c : Conn) (n : ℕ) : Option (Bytes × Conn) :=
  if c.closed = false ∧ n ≤ c.unread.length then
    some (c.unread.take n, { c with taken := c.taken + n })
  else none

/-- `Write`; nothing is written to a connection that is closed. -/
def write (c : Conn) (data : Bytes) : Outcome → Option Conn
  | .ok => if c.closed then none else some { c with written := c.written ++ data }
  | .fails n =>
    if c.closed then if n = 0 then some c else none
    else if c.canFail then some { c with written := c.written ++ data.take n } else none

def close (c : Conn) : Conn := { c with closed := true }

end Conn

/-! ### Sessions -/

/-- What became of a `ConnectAck`. -/
inductive Ack
  | due
  | written
  | failed
deriving DecidableEq

def Outcome.ack : Outcome → Ack
  | .ok => .written
  | .fails _ => .failed

/-- Where a goroutine of `copyWithHeader` is. -/
inductive Copier
  | reading
  | writing (buf : Bytes)
  | ended
deriving DecidableEq

/-- Where the handler that runs a session is. -/
inductive Stage
  | ackA
  | ackB
  | clearing
  | relaying
  | removing
  | closing
  | over
deriving DecidableEq

/-- `RelaySession`, with the goroutines that copy to each peer. -/
structure Session (κ : Type) where
  id : Bytes
  peerA : κ
  ackA : Ack := .due
  ackB : Ack := .due
  toA : Copier := .reading
  toB : Copier := .reading
  stage : Stage := .ackA
deriving DecidableEq

/-- Which of the two goroutines. -/
inductive Direction
  | toA
  | toB
deriving DecidableEq

/-- The events of the goroutines of one session. -/
inductive SessionEvent
  | ack (out : Outcome)
  | clearDeadlines
  | read (dir : Direction) (n : ℕ)
  | readFails (dir : Direction)
  | write (dir : Direction) (out : Outcome)
  | wait
  | close
deriving DecidableEq

/-- One round of `copyWithHeader`: where the goroutine is then, and the connections. -/
def Copier.step (src dst : Conn) : Copier → SessionEvent → Option (Copier × Conn × Conn)
  | .reading, .read _ n =>
    if 1 ≤ n ∧ n ≤ relayBufferSize then
      (src.read n).map fun (buf, src) => (.writing buf, src, dst)
    else none
  | .reading, .readFails _ => if src.canFail then some (.ended, src, dst) else none
  | .writing buf, .write _ .ok => (dst.write buf .ok).map fun dst => (.reading, src, dst)
  | .writing buf, .write _ (.fails n) =>
    (dst.write buf (.fails n)).map fun dst => (.ended, src, dst)
  | _, _ => none

namespace Session

variable {κ : Type}

/-- A round of the goroutine of the direction, with the connections of `PeerA` and `PeerB`. -/
def copy (ses : Session κ) (a b : Conn) (e : SessionEvent) :
    Direction → Option (Session κ × Conn × Conn)
  | .toB => (ses.toB.step a b e).map fun (toB, a, b) => ({ ses with toB }, a, b)
  | .toA => (ses.toA.step b a e).map fun (toA, b, a) => ({ ses with toA }, a, b)

/-- The events of a session, in which only the session and its two connections take part. -/
def step (ses : Session κ) (a b : Conn) : SessionEvent → Option (Session κ × Conn × Conn)
  | .ack out =>
    match ses.stage with
    | .ackA => (a.write (connectAck ses.id) out).map fun a =>
      ({ ses with ackA := out.ack, stage := .ackB }, a, b)
    | .ackB => (b.write (connectAck ses.id) out).map fun b =>
      ({ ses with ackB := out.ack, stage := .clearing }, a, b)
    | _ => none
  | .clearDeadlines =>
    if ses.stage = .clearing then
      some ({ ses with stage := .relaying }, { a with deadline := false },
        { b with deadline := false })
    else none
  | .read dir n => if ses.stage = .relaying then ses.copy a b (.read dir n) dir else none
  | .readFails dir => if ses.stage = .relaying then ses.copy a b (.readFails dir) dir else none
  | .write dir out => if ses.stage = .relaying then ses.copy a b (.write dir out) dir else none
  | .wait =>
    if ses.stage = .relaying ∧ ses.toA = .ended ∧ ses.toB = .ended then
      some ({ ses with stage := .removing }, a, b)
    else none
  | .close =>
    if ses.stage = .closing then some ({ ses with stage := .over }, a.close, b.close) else none

end Session

/-! ### The server -/

/-- Where `handleConnection` is for a connection; `absent` before it is accepted. -/
inductive Phase (κ : Type)
  | absent
  | header
  | sessionID (len : ℕ)
  | lookup (sessionID : Bytes)
  | waiting (sessionID : Bytes)
  | fired (sessionID : Bytes)
  | refusing (msg : Bytes)
  | leaving
  | returned
  | session (ses : Session κ)
deriving DecidableEq

/-- `RelayServer`: `sessions` gives the connection whose handler runs the session. -/
structure Server (κ : Type) [DecidableEq κ] where
  conn : κ → Conn
  phase : κ → Phase κ
  waiting : AList fun _ : Bytes => κ
  sessions : AList fun _ : Bytes => κ
  done : Bool

/-- The events in which only a handler and its connection take part. -/
inductive HandlerEvent
  | readHeader
  | readSessionID
  | readFails
  | sendError (out : Outcome)
  | close
deriving DecidableEq

/-- What `handleConnection` makes of a header of five bytes. -/
def checkHeader (κ : Type) (header : Bytes) : Phase κ :=
  if header.head? ≠ some relayMsgConnect then .refusing (errorMsg "expected connect message")
  else if maxSessionIDLen < Binary.uint32 (header.drop 1) then
    .refusing (errorMsg "session ID too long")
  else .sessionID (Binary.uint32 (header.drop 1))

/-- The handler of one connection, as far as it does not touch the maps. -/
def handlerStep {κ : Type} (c : Conn) : Phase κ → HandlerEvent → Option (Phase κ × Conn)
  | .header, .readHeader => (c.read 5).map fun (header, c) => (checkHeader κ header, c)
  | .sessionID len, .readSessionID => (c.read len).map fun (id, c) => (.lookup id, c)
  | .header, .readFails => if c.canFail then some (.leaving, c) else none
  | .sessionID _, .readFails => if c.canFail then some (.leaving, c) else none
  | .refusing msg, .sendError out => (c.write msg out).map fun c => (.leaving, c)
  | .leaving, .close => some (.returned, c.close)
  | _, _ => none

inductive Event (κ : Type)
  | accept (c : κ)
  | send (c : κ) (data : Bytes)
  | leave (c : κ)
  | handler (c : κ) (e : HandlerEvent)
  | lookup (c : κ)
  | fire (c : κ)
  | forget (c : κ)
  | quit (c : κ)
  | session (c : κ) (e : SessionEvent)
  | removeSession (c : κ)
  | shutdown
  | closeAll
deriving DecidableEq

namespace Server

variable {κ : Type} [DecidableEq κ]

/-- `NewRelayServer`. -/
def start : Server κ := ⟨fun _ => {}, fun _ => .absent, ∅, ∅, false⟩

/-- A connection and its handler changed. -/
def set (s : Server κ) (c : κ) (phase : Phase κ) (conn : Conn) : Server κ :=
  { s with phase := Function.update s.phase c phase, conn := Function.update s.conn c conn }

/-- A session and its two connections changed. -/
def setSession (s : Server κ) (b : κ) (ses : Session κ) (connA connB : Conn) : Server κ :=
  { s with
    phase := Function.update s.phase b (.session ses)
    conn := Function.update (Function.update s.conn ses.peerA connA) b connB }

/-- The connections that `Close` closes. -/
def closes (s : Server κ) : List κ :=
  s.waiting.entries.map (·.2) ++ s.sessions.entries.flatMap fun entry =>
    match s.phase entry.2 with
    | .session ses => [ses.peerA, entry.2]
    | _ => []

/-- The step that `handleConnection` makes under the lock when it has read a session ID. -/
def lookup (s : Server κ) (c : κ) (sessionID : Bytes) : Server κ :=
  match s.waiting.lookup sessionID with
  | some waitingConn =>
    { s with
      waiting := s.waiting.erase sessionID
      sessions := s.sessions.insert sessionID c
      phase := Function.update s.phase c (.session { id := sessionID, peerA := waitingConn }) }
  | none =>
    { s with
      waiting := s.waiting.insert sessionID c
      phase := Function.update s.phase c (.waiting sessionID) }

/-- The events.  A timer may expire while its handler waits, and only then. -/
def step (s : Server κ) : Event κ → Option (Server κ)
  | .accept c => if s.phase c = .absent ∧ s.done = false then some (s.set c .header {}) else none
  | .send c data =>
    if s.phase c ≠ .absent ∧ (s.conn c).gone = false then
      some (s.set c (s.phase c) { s.conn c with sent := (s.conn c).sent ++ data })
    else none
  | .leave c =>
    if s.phase c ≠ .absent then some (s.set c (s.phase c) { s.conn c with gone := true })
    else none
  | .handler c e =>
    (handlerStep (s.conn c) (s.phase c) e).map fun (phase, conn) => s.set c phase conn
  | .lookup c =>
    match s.phase c with
    | .lookup sessionID => some (s.lookup c sessionID)
    | _ => none
  | .fire c =>
    match s.phase c with
    | .waiting sessionID => some (s.set c (.fired sessionID) (s.conn c))
    | _ => none
  | .forget c =>
    match s.phase c with
    | .fired sessionID =>
      some ({ s with waiting := s.waiting.erase sessionID }.set c
        (.refusing (errorMsg "timeout waiting for peer")) (s.conn c))
    | _ => none
  | .quit c =>
    match s.phase c with
    | .waiting _ => if s.done then some (s.set c .leaving (s.conn c)) else none
    | _ => none
  | .session c e =>
    match s.phase c with
    | .session ses => (ses.step (s.conn ses.peerA) (s.conn c) e).map fun (ses, connA, connB) =>
      s.setSession c ses connA connB
    | _ => none
  | .removeSession c =>
    match s.phase c with
    | .session ses =>
      if ses.stage = .removing then
        some { s with
          sessions := s.sessions.erase ses.id
          phase := Function.update s.phase c (.session { ses with stage := .closing }) }
      else none
    | _ => none
  | .shutdown => some { s with done := true }
  | .closeAll =>
    if s.done then
      some { s with conn := fun c => if c ∈ s.closes then (s.conn c).close else s.conn c }
    else none

end Server

/-- A peer connects and asks for a session. -/
def asks (c : ℕ) (sessionID : Bytes) : List (Event ℕ) :=
  [.accept c, .send c (message relayMsgConnect sessionID), .handler c .readHeader,
    .handler c .readSessionID, .lookup c]

end FileSync.Relay
