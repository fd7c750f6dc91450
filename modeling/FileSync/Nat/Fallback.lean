import FileSync.Nat.HolePunch
import FileSync.Nat.Relay
import FileSync.Nat.Signaling
import FileSync.Nat.Stun

/-!
# Nat — hole punching with a relay to fall back on

`FallbackStrategy.Connect` of `internal/nat/relay.go`, with the calls it makes: the discovery of the
public address from STUN servers, the registration and the lookup at the signaling server, the hole
punching of `internal/nat/holepunch.go`, and the client of the relay.

* `Network` is everything the calls depend on: what each connection delivers, what the resolver
  says, and what `attemptHolePunch` comes to.
* `connect_reaches_iff`: `Connect` returns the punched connection, or else what the relay gives,
  exactly if discovery or registration fails, or the lookup gives a public address that resolves.
  Otherwise `HolePuncher.Connect` has returned a nil result with its error, of which `Connect` reads
  the attempts.
-/

namespace FileSync.Fallback
open HolePunch (UDPAddr HolePunchResult)
open Signaling (PeerInfo Call)
open Stun (MappedAddress parseStunResponse)

/-! ### The network -/

/-- A request over a new connection: the errors of the dial and of the write, and what the
connection then delivers. -/
structure Exchange where
  dial : Option Err
  write : Option Err
  reply : Reader

/-- A datagram, with the transaction ID that was drawn for the request. -/
structure StunReply where
  txID : Bytes
  data : Bytes
  length_txID : txID.length = 12

/-- What the calls depend on; `κ` are the UDP sockets and `ρ` the connections to the relay.  The
STUN servers are asked in order, and an exchange depends on the request. -/
structure Network (κ ρ : Type) where
  listenUDP : Except Err κ
  stun : List (Except Err StunReply)
  ipString : Bytes → Bytes
  localAddr : κ → Bytes
  register : Bytes → Exchange
  lookup : Bytes → Exchange
  resolveUDPAddr : Bytes → Except Err UDPAddr
  attemptHolePunch : κ → UDPAddr → Option UDPAddr → HolePunchResult
  relay : Bytes → Bytes → ρ × Exchange

variable {κ ρ : Type}

/-! ### Discovery -/

def queryServer : Except Err StunReply → Go (Except Err MappedAddress)
  | .error e => .ok (.error e)
  | .ok r => (parseStunResponse (r.data.take 576) r.txID).result

/-- The loop of `Discover`, with the error of the last server. -/
def discover : List (Except Err StunReply) → Option Err → Go (Except Err MappedAddress)
  | [], some lastErr => .ok (.error (.wrap "all STUN servers failed" lastErr))
  | [], none => .ok (.error (.text "no STUN servers configured"))
  | server :: servers, _ => do
      match ← queryServer server with
      | .ok addr => .ok (.ok addr)
      | .error e => discover servers (some e)

def discoverWithNewConn (net : Network κ ρ) : Go (Except Err (MappedAddress × κ)) :=
  match net.listenUDP with
  | .error e => .ok (.error (.wrap "creating UDP socket" e))
  | .ok conn => do
      match ← discover net.stun none with
      | .error e => .ok (.error e)
      | .ok addr => .ok (.ok (addr, conn))

/-! ### The signaling client -/

/-- `MappedAddress.String`. -/
def addrString (net : Network κ ρ) (addr : MappedAddress) : Bytes :=
  net.ipString addr.ip ++ (":" ++ toString addr.port).toUTF8.data.toList

def register (net : Network κ ρ) (peerID publicAddr localAddr : Bytes) : Option Err :=
  let ex := net.register (Call.register peerID publicAddr localAddr).request
  match ex.dial, ex.write with
  | some e, _ => some (.wrap "connecting to signaling server" e)
  | none, some e => some (.wrap "sending register message" e)
  | none, none => Signaling.registerResult ex.reply

def lookupPeer (net : Network κ ρ) (peerID : Bytes) : Except Err PeerInfo :=
  let ex := net.lookup (Call.lookupPeer peerID).request
  match ex.dial, ex.write with
  | some e, _ => .error (.wrap "connecting to signaling server" e)
  | none, some e => .error (.wrap "sending peer request" e)
  | none, none => Signaling.lookupPeerResult ex.reply

/-! ### The hole puncher -/

structure HolePuncher (κ : Type) where
  peerID : Bytes
  localConn : Option κ := none
  publicAddr : Option MappedAddress := none

/-- `HolePunchResult`, with the socket. -/
structure PunchResult (κ : Type) extends HolePunchResult where
  conn : κ

namespace HolePuncher

/-- `Initialize`: the hole puncher afterwards, and the error. -/
def init (net : Network κ ρ) (hp : HolePuncher κ) : Go (HolePuncher κ × Option Err) := do
  match ← discoverWithNewConn net with
  | .error e => .ok (hp, some (.wrap "STUN discovery failed" e))
  | .ok (publicAddr, conn) =>
    let hp := { hp with localConn := some conn, publicAddr := some publicAddr }
    match register net hp.peerID (addrString net publicAddr) (net.localAddr conn) with
    | some e => .ok (hp, some (.wrap "signaling registration failed" e))
    | none => .ok (hp, none)

/-- The result, which may be nil, and the error. -/
def connect (net : Network κ ρ) (hp : HolePuncher κ) (remotePeerID : Bytes) :
    Option (PunchResult κ) × Option Err :=
  match hp.localConn with
  | none => (none, some (.text "not initialized - call Initialize() first"))
  | some conn =>
    match lookupPeer net remotePeerID with
    | .error e => (none, some (.wrap "peer lookup failed" e))
    | .ok peerInfo =>
      match net.resolveUDPAddr peerInfo.publicAddr with
      | .error e => (none, some (.wrap "invalid peer public address" e))
      | .ok publicAddr =>
        -- Without a local address the public one is tried alone.
        let localAddr := (net.resolveUDPAddr peerInfo.localAddr).toOption
        (some ⟨net.attemptHolePunch conn publicAddr localAddr, conn⟩, none)

end HolePuncher

/-! ### The relay -/

/-- `RelayClient.Connect`. -/
def relayConnect (net : Network κ ρ) (relayAddr sessionID : Bytes) : Except Err ρ :=
  let (conn, ex) := net.relay relayAddr (Relay.message Relay.relayMsgConnect sessionID)
  match ex.dial, ex.write with
  | some e, _ => .error (.wrap "connecting to relay" e)
  | none, some e => .error (.wrap "sending connect request" e)
  | none, none =>
    match ex.reply.readFull 5 with
    | ((_, some e), _) => .error (.wrap "reading response" e)
    | ((header, none), reply) =>
      let msgType := header.headI
      let msgLen := Binary.uint32 (header.drop 1)
      if msgType = Relay.relayMsgError then
        -- The error of this read is dropped, so the rest of the message may be zero.
        .error (.textOf "relay error" ((reply.readFull msgLen).1.1.rightpad msgLen 0))
      else if msgType ≠ Relay.relayMsgConnectAck then
        .error (.text ("unexpected response: " ++ toString msgType.toNat))
      else
        match reply.readFull msgLen with
        | ((_, some e), _) => .error (.wrap "reading session ID" e)
        | ((_, none), _) => .ok conn

structure ConnectionResult (κ ρ : Type) where
  method : String := ""
  udpConn : Option κ := none
  relayConn : Option ρ := none
  remoteAddr : Option UDPAddr := none
  attempts : ℕ := 0
  holePunchAttempts : ℕ := 0
deriving DecidableEq

structure FallbackStrategy (κ : Type) where
  holePuncher : HolePuncher κ
  relayAddr : Bytes

def errHolePunchFailed : Err := .text "UDP hole punching failed after max attempts"

namespace FallbackStrategy

def connectViaRelay (net : Network κ ρ) (fs : FallbackStrategy κ) (sessionID : Bytes)
    (result : ConnectionResult κ ρ) : ConnectionResult κ ρ × Option Err :=
  if fs.relayAddr = [] then (result, some errHolePunchFailed)
  else
    match relayConnect net fs.relayAddr sessionID with
    | .error e => (result, some (.wrap "relay connection failed" e))
    | .ok conn => ({ result with relayConn := some conn }, none)

/-- The result and the error; a nil `hpResult` that is read is a panic. -/
def connect (net : Network κ ρ) (fs : FallbackStrategy κ) (remotePeerID sessionID : Bytes) :
    Go (ConnectionResult κ ρ × Option Err) := do
  let result : ConnectionResult κ ρ := {}
  match ← fs.holePuncher.init net with
  | (_, some _) => .ok (fs.connectViaRelay net sessionID { result with method := "relay" })
  | (hp, none) =>
    let (hpResult, err) := hp.connect net remotePeerID
    let success ← if err = none then do .ok (← Go.orPanic hpResult).success else .ok false
    let hpResult ← Go.orPanic hpResult
    if success then
      .ok ({ result with
        method := "hole_punch"
        udpConn := some hpResult.conn
        remoteAddr := hpResult.remoteAddr
        attempts := hpResult.attempts }, none)
    else
      .ok (fs.connectViaRelay net sessionID { result with
        method := "relay"
        holePunchAttempts := hpResult.attempts })

end FallbackStrategy

/-! ### What the calls come to -/

/-- The discovery of the public address fails. -/
def Undiscovered (net : Network κ ρ) : Prop :=
  ∃ e, discoverWithNewConn net = .ok (.error e)

/-- The address that was discovered cannot be registered. -/
def Unregistered (net : Network κ ρ) (peerID : Bytes) : Prop :=
  ∃ addr conn e, discoverWithNewConn net = .ok (.ok (addr, conn)) ∧
    register net peerID (addrString net addr) (net.localAddr conn) = some e

/-- The lookup gives a public address that resolves. -/
def Found (net : Network κ ρ) (remotePeerID : Bytes) : Prop :=
  ∃ peer addr, lookupPeer net remotePeerID = .ok peer ∧
    net.resolveUDPAddr peer.publicAddr = .ok addr

/-- Hole punching succeeds with this result. -/
def Punched (net : Network κ ρ) (fs : FallbackStrategy κ) (remotePeerID : Bytes)
    (r : PunchResult κ) : Prop :=
  ∃ hp, fs.holePuncher.init net = .ok (hp, none) ∧
    hp.connect net remotePeerID = (some r, none) ∧ r.success = true

/-- `Connect` returns: the punched connection if there is one, and else what the relay gives, if
there is a relay. -/
def Reaches (net : Network κ ρ) (fs : FallbackStrategy κ) (remotePeerID sessionID : Bytes) : Prop :=
  ∃ result err, fs.connect net remotePeerID sessionID = .ok (result, err) ∧
    (∀ r, Punched net fs remotePeerID r →
      result.method = "hole_punch" ∧ result.udpConn = some r.conn ∧
        result.remoteAddr = r.remoteAddr ∧ err = none) ∧
    ((∀ r, ¬ Punched net fs remotePeerID r) → fs.relayAddr ≠ [] →
      ∃ attempts, (result, err) = fs.connectViaRelay net sessionID
        { method := "relay", holePunchAttempts := attempts })

/-- A query of a server returns: the parser does not panic. -/
theorem queryServer_returns (server : Except Err StunReply) :
    ∃ out, queryServer server = .ok out := by
  cases server with
  | error e => exact ⟨_, rfl⟩
  | ok r =>
    rcases Stun.parseStunResponse_cases (r.data.take 576) r.length_txID with
      ⟨e, he⟩ | ⟨addr, -, -, -, -, -, hok, -⟩
    · exact ⟨.error e, by rw [queryServer, he]; rfl⟩
    · exact ⟨.ok addr, by rw [queryServer, hok]; rfl⟩

theorem discover_returns (servers : List (Except Err StunReply)) (lastErr : Option Err) :
    ∃ out, discover servers lastErr = .ok out := by
  induction servers generalizing lastErr with
  | nil =>
    cases lastErr with
    | none => exact ⟨_, rfl⟩
    | some e => exact ⟨_, rfl⟩
  | cons server servers ih =>
    obtain ⟨out, hout⟩ := queryServer_returns server
    rw [discover, hout, Go.ok_bind]
    cases out with
    | ok addr => exact ⟨_, rfl⟩
    | error e => exact ih (some e)

theorem discoverWithNewConn_returns (net : Network κ ρ) :
    ∃ out, discoverWithNewConn net = .ok out := by
  rw [discoverWithNewConn]
  cases net.listenUDP with
  | error e => exact ⟨_, rfl⟩
  | ok conn =>
    obtain ⟨out, hout⟩ := discover_returns net.stun none
    dsimp only
    rw [hout, Go.ok_bind]
    cases out with
    | ok addr => exact ⟨_, rfl⟩
    | error e => exact ⟨_, rfl⟩

/-- `Initialize` fails with the discovery or the registration; else the socket is there. -/
theorem HolePuncher.init_cases (net : Network κ ρ) (hp : HolePuncher κ) :
    (∃ hp' e, hp.init net = .ok (hp', some e) ∧
      (Undiscovered net ∨ Unregistered net hp.peerID)) ∨
    ∃ hp' conn, hp.init net = .ok (hp', none) ∧ hp'.localConn = some conn ∧
      ¬ (Undiscovered net ∨ Unregistered net hp.peerID) := by
  obtain ⟨out, hout⟩ := discoverWithNewConn_returns net
  rw [init, hout, Go.ok_bind]
  cases out with
  | error e => exact .inl ⟨_, _, rfl, .inl ⟨e, hout⟩⟩
  | ok out =>
    obtain ⟨publicAddr, conn⟩ := out
    dsimp only
    cases hreg : register net hp.peerID (addrString net publicAddr) (net.localAddr conn) with
    | some e => exact .inl ⟨_, _, rfl, .inr ⟨publicAddr, conn, e, hout, hreg⟩⟩
    | none =>
      refine .inr ⟨_, conn, rfl, rfl, ?_⟩
      rintro (⟨e, he⟩ | ⟨addr', conn', e, he, hreg'⟩)
      · rw [hout] at he
        cases he
      · rw [hout] at he
        cases he
        rw [hreg] at hreg'
        cases hreg'

/-- `HolePuncher.Connect` has a result exactly if the lookup gives an address that resolves. -/
theorem HolePuncher.connect_cases (net : Network κ ρ) {hp : HolePuncher κ} {conn : κ}
    (h : hp.localConn = some conn) (remotePeerID : Bytes) :
    (∃ r, hp.connect net remotePeerID = (some r, none) ∧ Found net remotePeerID) ∨
      ∃ e, hp.connect net remotePeerID = (none, some e) ∧ ¬ Found net remotePeerID := by
  rw [connect, h]
  dsimp only
  cases hlookup : lookupPeer net remotePeerID with
  | error e =>
    refine .inr ⟨_, rfl, ?_⟩
    rintro ⟨peer, addr, hpeer, -⟩
    rw [hlookup] at hpeer
    cases hpeer
  | ok peerInfo =>
    dsimp only
    cases hresolve : net.resolveUDPAddr peerInfo.publicAddr with
    | error e =>
      refine .inr ⟨_, rfl, ?_⟩
      rintro ⟨peer, addr, hpeer, haddr⟩
      rw [hlookup] at hpeer
      cases hpeer
      rw [hresolve] at haddr
      cases haddr
    | ok publicAddr => exact .inl ⟨_, rfl, peerInfo, publicAddr, hlookup, hresolve⟩

section Connect
variable {net : Network κ ρ} {fs : FallbackStrategy κ} {hp : HolePuncher κ} {e : Err}
  {remotePeerID : Bytes} (sessionID : Bytes)

theorem connect_of_init_fails (h : fs.holePuncher.init net = .ok (hp, some e)) :
    Reaches net fs remotePeerID sessionID := by
  refine ⟨_, _, by rw [FallbackStrategy.connect, h]; rfl, ?_, fun _ _ => ⟨0, rfl⟩⟩
  rintro r ⟨hp', hinit, -⟩
  rw [h] at hinit
  cases hinit

theorem connect_of_result (h : fs.holePuncher.init net = .ok (hp, none)) {r : PunchResult κ}
    (hr : hp.connect net remotePeerID = (some r, none)) :
    Reaches net fs remotePeerID sessionID := by
  have hpunched : ∀ r', Punched net fs remotePeerID r' ↔ r' = r ∧ r.success = true := by
    intro r'
    constructor
    · rintro ⟨hp', hinit, hconnect, hsuccess⟩
      rw [h] at hinit
      cases hinit
      rw [hr] at hconnect
      cases hconnect
      exact ⟨rfl, hsuccess⟩
    · rintro ⟨rfl, hsuccess⟩
      exact ⟨hp, h, hr, hsuccess⟩
  have hconnect : fs.connect net remotePeerID sessionID =
      if r.success then
        .ok ({ method := "hole_punch", udpConn := some r.conn, remoteAddr := r.remoteAddr,
               attempts := r.attempts }, none)
      else .ok (fs.connectViaRelay net sessionID
        { method := "relay", holePunchAttempts := r.attempts }) := by
    rw [FallbackStrategy.connect, h, Go.ok_bind]
    simp only [hr, if_true, Go.orPanic_some, Go.ok_bind]
  cases hs : r.success with
  | true =>
    rw [hs, if_pos rfl] at hconnect
    refine ⟨_, _, hconnect, fun r' hr' => ?_, fun hnone _ => ?_⟩
    · obtain ⟨rfl, -⟩ := (hpunched r').1 hr'
      exact ⟨rfl, rfl, rfl, rfl⟩
    · exact absurd ((hpunched r).2 ⟨rfl, hs⟩) (hnone r)
  | false =>
    rw [hs, if_neg (by decide)] at hconnect
    refine ⟨_, _, hconnect, fun r' hr' => ?_, fun _ _ => ⟨r.attempts, rfl⟩⟩
    rw [hpunched, hs] at hr'
    cases hr'.2

theorem connect_of_nil (h : fs.holePuncher.init net = .ok (hp, none))
    (hr : hp.connect net remotePeerID = (none, some e)) :
    fs.connect net remotePeerID sessionID = .error .panic := by
  rw [FallbackStrategy.connect, h, Go.ok_bind]
  simp only [hr]
  rfl

end Connect

/-- **When the strategy reaches its fallback.**  Exactly if discovery or registration fails, or
the lookup gives a public address that resolves; otherwise the attempts of a nil result are read. -/
theorem connect_reaches_iff (net : Network κ ρ) (fs : FallbackStrategy κ)
    (remotePeerID sessionID : Bytes) :
    Reaches net fs remotePeerID sessionID ↔
      Undiscovered net ∨ Unregistered net fs.holePuncher.peerID ∨ Found net remotePeerID := by
  rw [← or_assoc]
  rcases fs.holePuncher.init_cases net with ⟨hp, e, hinit, hfails⟩ | ⟨hp, conn, hinit, hconn, hok⟩
  · exact iff_of_true (connect_of_init_fails sessionID hinit) (.inl hfails)
  · rcases hp.connect_cases net hconn remotePeerID with ⟨r, hr, hfound⟩ | ⟨e, hr, hnot⟩
    · exact iff_of_true (connect_of_result sessionID hinit hr) (.inr hfound)
    · refine iff_of_false ?_ (not_or.2 ⟨hok, hnot⟩)
      rintro ⟨result, err, hconnect, -⟩
      rw [connect_of_nil sessionID hinit hr] at hconnect
      cases hconnect

/-- The address is discovered and registered, but the signaling server does not know the peer; the
relay would answer. -/
def unknownPeer : Network Unit Unit where
  listenUDP := .ok ()
  stun := [.ok ⟨List.replicate 12 0x07, Stun.legacyResponse, rfl⟩]
  ipString ip := ip
  localAddr _ := []
  register _ := ⟨none, none, .ofBytes (Signaling.sendRegisterAck [97])⟩
  lookup _ := ⟨none, none, .ofBytes (Signaling.sendError .peerNotFound)⟩
  resolveUDPAddr _ := .error (.text "missing address")
  attemptHolePunch _ _ _ := { success := false, attempts := 0 }
  relay _ _ := ((), ⟨none, none, .ofBytes (Relay.connectAck [115])⟩)

theorem unknown_peer_panics :
    relayConnect unknownPeer [114] [115] = .ok () ∧
      lookupPeer unknownPeer [98] = .error Signaling.errPeerNotFound ∧
      FallbackStrategy.connect unknownPeer ⟨{ peerID := [97] }, [114]⟩ [98] [115] =
        .error .panic := by
  refine ⟨?_, ?_, ?_⟩
  · decide +kernel
  · decide +kernel
  · decide +kernel

end FileSync.Fallback
