import FileSync.Support.Binary
import FileSync.Support.Transition

/-!
# Nat — hole punching

Two peers that run `attemptHolePunch` against each other.  Each sends `SYN` packets on its ticker
and listens for the packets of the other; a `SYN` is answered by a `SYN-ACK`, a `SYN-ACK` by an
`ACK`, and `SYN-ACK` and `ACK` are reported as success to the loop that sends.

The network may deliver any packet that one peer has sent to the other, any number of times, in any
order, from any source address.

A packet carries the session ID of its sender and a peer accepts the packets that carry its own.
`HolePuncher.Connect` draws the ID and nothing tells it to the other peer, so with two different IDs
no packet is ever accepted:

* `Peer.receive_punchPacket` is what a peer makes of a packet.
* `both_succeed_iff`: there is a run in which both peers report success if and only if they have
  drawn the same ID.
-/

open Transition

namespace FileSync.HolePunch

/-! ### Packets -/

def holePunchSyn : UInt8 := 0x01

def holePunchSynAck : UInt8 := 0x02

def holePunchAck : UInt8 := 0x03

def maxPunchAttempts : ℕ := 5

/-- `"PUNC"`. -/
def punchMagic : ℕ := 0x50554E43

/-- What `Connect` draws: eight bytes. -/
structure SessionID where
  bytes : Bytes
  len : bytes.length = 8
deriving DecidableEq

/-- `net.UDPAddr`, of the network `udp4`. -/
structure UDPAddr where
  ip : UInt32
  port : UInt16
deriving DecidableEq

/-- A datagram, with the address it is sent to. -/
structure Packet where
  addr : UDPAddr
  data : Bytes
deriving DecidableEq

/-- The datagram of `sendPunchPacket`. -/
def punchPacket (msgType : UInt8) (sessionID : SessionID) : Bytes :=
  msgType :: Binary.putUint32 punchMagic ++ sessionID.bytes

/-- The addresses that `attemptHolePunch` sends to. -/
def targets (publicAddr : UDPAddr) : Option UDPAddr → List UDPAddr
  | some localAddr =>
    if localAddr.ip = publicAddr.ip then [publicAddr] else [publicAddr, localAddr]
  | none => [publicAddr]

/-! ### A peer -/

/-- `HolePunchResult`. -/
structure HolePunchResult where
  success : Bool
  remoteAddr : Option UDPAddr := none
  attempts : ℕ
  method : String := ""
deriving DecidableEq

/-- Where the goroutine of `listenForPunch` is: before the test of its context, in the read, or
returned. -/
inductive Listener
  | checking
  | reading
  | returned
deriving DecidableEq

/-- A peer in `attemptHolePunch`.  Of an error in `errCh` only its presence is used; `done` says
that the context is. -/
structure Peer where
  sessionID : SessionID
  targets : List UDPAddr
  attempts : ℕ := 0
  successCh : Option UDPAddr := none
  errCh : Bool := false
  done : Bool := false
  listener : Listener := .checking
  result : Option HolePunchResult := none

/-- What a peer does by itself: the cases of the `select` in `attemptHolePunch`, the timeout of its
context, and the steps of the listener that take no packet. -/
inductive PeerEvent
  | takeDone
  | takeSuccess
  | takeErr
  | tick
  | expire
  | check
  | readTimeout
  | readFails
deriving DecidableEq

namespace Peer

/-- `attemptHolePunch` returns, and cancels the context. -/
def finish (p : Peer) (result : HolePunchResult) : Peer :=
  { p with result := some result, done := true }

/-- The loop of `attemptHolePunch` after a case of its `select`. -/
def loop (p : Peer) : Peer :=
  if p.attempts < maxPunchAttempts then p
  else p.finish { success := false, attempts := p.attempts }

/-- A send on `successCh`, which holds one address, without waiting. -/
def report (p : Peer) (addr : UDPAddr) : Peer :=
  { p with successCh := p.successCh <|> some addr }

def step (p : Peer) : PeerEvent → Option (Peer × List Packet)
  | .takeDone =>
    if p.result = none ∧ p.done then
      some (p.finish { success := false, attempts := p.attempts }, [])
    else none
  | .takeSuccess =>
    match p.result, p.successCh with
    | none, some addr =>
      some ({ p with successCh := none }.finish
        { success := true, remoteAddr := some addr, attempts := p.attempts,
          method := "hole_punch" }, [])
    | _, _ => none
  | .takeErr =>
    if p.result = none ∧ p.errCh then some ({ p with errCh := false }.loop, []) else none
  | .tick =>
    if p.result = none then
      some ({ p with attempts := p.attempts + 1 }.loop,
        p.targets.map fun target => ⟨target, punchPacket holePunchSyn p.sessionID⟩)
    else none
  | .expire => some ({ p with done := true }, [])
  | .check =>
    if p.listener = .checking then
      some ({ p with listener := if p.done then .returned else .reading }, [])
    else none
  | .readTimeout =>
    if p.listener = .reading then some ({ p with listener := .checking }, []) else none
  | .readFails =>
    if p.listener = .reading then some ({ p with errCh := true, listener := .checking }, [])
    else none

/-- The `switch` of `listenForPunch`, on a packet that has passed its tests. -/
def accept (p : Peer) (remoteAddr : UDPAddr) (msgType : UInt8) : Peer × List Packet :=
  if msgType = holePunchSyn then
    ({ p with listener := .checking }, [⟨remoteAddr, punchPacket holePunchSynAck p.sessionID⟩])
  else if msgType = holePunchSynAck then
    ({ p with listener := .returned }.report remoteAddr,
      [⟨remoteAddr, punchPacket holePunchAck p.sessionID⟩])
  else if msgType = holePunchAck then ({ p with listener := .returned }.report remoteAddr, [])
  else ({ p with listener := .checking }, [])

/-- The listener reads a datagram, of which its buffer holds 64 bytes. -/
def receive (p : Peer) (remoteAddr : UDPAddr) (data : Bytes) : Option (Peer × List Packet) :=
  let buf := data.take 64
  if p.listener = .reading then
    if buf.length < 13 then some ({ p with listener := .checking }, [])
    else if Binary.uint32 ((buf.drop 1).take 4) ≠ punchMagic then
      some ({ p with listener := .checking }, [])
    else if (buf.drop 5).take 8 ≠ p.sessionID.bytes then
      some ({ p with listener := .checking }, [])
    else some (p.accept remoteAddr (buf.headD 0))
  else none

end Peer

/-! ### Two peers -/

inductive Side
  | a
  | b
deriving DecidableEq

def Side.other : Side → Side
  | .a => .b
  | .b => .a

theorem Side.forall {P : Side → Prop} : (∀ side, P side) ↔ P .a ∧ P .b :=
  ⟨fun h => ⟨h .a, h .b⟩, fun h side => by cases side <;> simp [h]⟩

/-- The two peers, and what each has sent. -/
structure State where
  peer : Side → Peer
  sent : Side → List Packet

inductive Event
  | act (side : Side) (e : PeerEvent)
  | deliver (dst : Side) (remoteAddr : UDPAddr) (packet : Packet)
deriving DecidableEq

namespace State

/-- A peer moves and sends packets. -/
def set (s : State) (side : Side) (p : Peer) (packets : List Packet) : State where
  peer := Function.update s.peer side p
  sent := Function.update s.sent side (s.sent side ++ packets)

def step (s : State) : Event → Option State
  | .act side e => ((s.peer side).step e).map fun (p, packets) => s.set side p packets
  | .deliver dst remoteAddr packet =>
    if packet ∈ s.sent dst.other then
      ((s.peer dst).receive remoteAddr packet.data).map fun (p, packets) => s.set dst p packets
    else none

/-- Both peers have drawn a session ID and looked up the addresses of the other. -/
def start (sessionID : Side → SessionID) (publicAddr : Side → UDPAddr)
    (localAddr : Side → Option UDPAddr) : State where
  peer side :=
    { sessionID := sessionID side
      targets := targets (publicAddr side.other) (localAddr side.other) }
  sent _ := []

/-- Both peers have reported success. -/
def Succeeded (s : State) : Prop :=
  ∀ side, ∃ result, (s.peer side).result = some result ∧ result.success = true

end State

/-! ### What a peer makes of a packet -/

theorem length_punchPacket (msgType : UInt8) (id : SessionID) :
    (punchPacket msgType id).length = 13 := by
  simp [punchPacket, id.len]

/-- A packet is accepted if it carries the peer's own session ID, and dropped otherwise. -/
theorem Peer.receive_punchPacket {p : Peer} (h : p.listener = .reading) (remoteAddr : UDPAddr)
    (msgType : UInt8) (id : SessionID) :
    p.receive remoteAddr (punchPacket msgType id) =
      some (if id = p.sessionID then p.accept remoteAddr msgType
        else ({ p with listener := .checking }, [])) := by
  have htake : (punchPacket msgType id).take 64 = punchPacket msgType id :=
    List.take_of_length_le (by simp [length_punchPacket])
  have hmagic : Binary.uint32 (((punchPacket msgType id).drop 1).take 4) = punchMagic := rfl
  have hid : ((punchPacket msgType id).drop 5).take 8 = id.bytes :=
    List.take_of_length_le id.len.le
  have hext : id.bytes = p.sessionID.bytes ↔ id = p.sessionID := by
    rw [SessionID.mk.injEq]
  simp only [receive, h, htake, hmagic, hid, length_punchPacket, ne_eq, hext]
  by_cases heq : id = p.sessionID <;> simp [heq, punchPacket]

/-! ### Different session IDs -/

/-- The peer has seen no success. -/
structure Peer.Quiet (id : SessionID) (p : Peer) : Prop where
  sessionID : p.sessionID = id
  successCh : p.successCh = none
  result : ∀ result, p.result = some result → result.success = false

/-- The packet carries the session ID. -/
def Packet.Carries (id : SessionID) (packet : Packet) : Prop :=
  ∃ msgType, packet.data = punchPacket msgType id

namespace Peer.Quiet

variable {id : SessionID} {p p' : Peer} {packets : List Packet}

theorem loop (h : p.Quiet id) : p.loop.Quiet id := by
  unfold Peer.loop
  split
  · exact h
  · refine ⟨h.sessionID, h.successCh, fun result hr => ?_⟩
    obtain rfl := Option.some.inj hr
    rfl

theorem step (h : p.Quiet id) {e : PeerEvent} (hs : p.step e = some (p', packets)) :
    p'.Quiet id ∧ ∀ packet ∈ packets, packet.Carries id := by
  cases e with
  | takeDone =>
    obtain ⟨-, rfl, rfl⟩ := by simpa [Peer.step] using hs
    refine ⟨⟨h.sessionID, h.successCh, fun result hr => ?_⟩, by simp⟩
    obtain rfl := Option.some.inj hr
    rfl
  | takeSuccess => simp [Peer.step, h.successCh] at hs
  | takeErr =>
    obtain ⟨-, rfl, rfl⟩ := by simpa [Peer.step] using hs
    exact ⟨loop ⟨h.sessionID, h.successCh, h.result⟩, by simp⟩
  | tick =>
    obtain ⟨-, rfl, rfl⟩ := by simpa [Peer.step] using hs
    refine ⟨loop ⟨h.sessionID, h.successCh, h.result⟩, fun packet hp => ?_⟩
    obtain ⟨target, -, rfl⟩ := List.mem_map.1 hp
    exact ⟨holePunchSyn, by rw [h.sessionID]⟩
  | expire =>
    obtain ⟨rfl, rfl⟩ := by simpa [Peer.step] using hs
    exact ⟨⟨h.sessionID, h.successCh, h.result⟩, by simp⟩
  | check | readTimeout | readFails =>
    obtain ⟨-, rfl, rfl⟩ := by simpa [Peer.step] using hs
    exact ⟨⟨h.sessionID, h.successCh, h.result⟩, by simp⟩

/-- A packet that carries another ID changes nothing. -/
theorem receive (h : p.Quiet id) {id' : SessionID} (hne : id' ≠ id) {remoteAddr : UDPAddr}
    {packet : Packet} (hc : packet.Carries id')
    (hs : p.receive remoteAddr packet.data = some (p', packets)) :
    p'.Quiet id ∧ packets = [] := by
  obtain ⟨msgType, hdata⟩ := hc
  have hread : p.listener = .reading := by
    by_contra hl
    simp [Peer.receive, hl] at hs
  rw [hdata, Peer.receive_punchPacket hread, h.sessionID, if_neg hne] at hs
  obtain ⟨rfl, rfl⟩ := by simpa using hs
  exact ⟨⟨rfl, h.successCh, h.result⟩, rfl⟩

end Peer.Quiet

/-- What holds in every state when the IDs differ. -/
def State.Quiet (id : Side → SessionID) (s : State) : Prop :=
  ∀ side, (s.peer side).Quiet (id side) ∧ ∀ packet ∈ s.sent side, packet.Carries (id side)

theorem State.Quiet.set {id : Side → SessionID} {s : State} (h : s.Quiet id) {side : Side}
    {p : Peer} {packets : List Packet} (hp : p.Quiet (id side))
    (hc : ∀ packet ∈ packets, packet.Carries (id side)) : (s.set side p packets).Quiet id := by
  intro x
  rcases eq_or_ne x side with rfl | hx
  · simpa [State.set, hp] using List.forall_mem_append.2 ⟨(h x).2, hc⟩
  · simpa [State.set, hx] using h x

theorem State.Quiet.step {id : Side → SessionID} (hne : id .a ≠ id .b) {s s' : State} {e : Event}
    (h : s.Quiet id) (hs : s.step e = some s') : s'.Quiet id := by
  cases e with
  | act side e =>
    obtain ⟨⟨p, packets⟩, hstep, rfl⟩ := Option.map_eq_some_iff.1 hs
    obtain ⟨hp, hc⟩ := (h side).1.step hstep
    exact h.set hp hc
  | deliver dst remoteAddr packet =>
    simp only [State.step] at hs
    split at hs
    · next hmem =>
        obtain ⟨⟨p, packets⟩, hrec, rfl⟩ := Option.map_eq_some_iff.1 hs
        have hother : id dst.other ≠ id dst := by
          cases dst with
          | a => exact hne.symm
          | b => exact hne
        obtain ⟨hp, rfl⟩ := (h dst).1.receive hother ((h dst.other).2 packet hmem) hrec
        exact h.set hp (by simp)
    · cases hs

theorem State.not_succeeded {id : Side → SessionID} (hne : id .a ≠ id .b)
    {publicAddr : Side → UDPAddr} {localAddr : Side → Option UDPAddr} {es : List Event} {s : State}
    (h : exec State.step (State.start id publicAddr localAddr) es = some s) : ¬ s.Succeeded := by
  intro hsucc
  have hstart : (State.start id publicAddr localAddr).Quiet id :=
    fun side => ⟨⟨rfl, rfl, nofun⟩, by simp [State.start]⟩
  obtain ⟨result, hr, htrue⟩ := hsucc .a
  have hquiet := (exec_invariant h (fun _ _ _ => State.Quiet.step hne) hstart .a).1
  simp [hquiet.result result hr] at htrue

/-! ### The same session ID -/

theorem publicAddr_mem_targets (publicAddr : UDPAddr) (localAddr : Option UDPAddr) :
    publicAddr ∈ targets publicAddr localAddr := by
  unfold targets
  split
  · split <;> simp
  · simp

/-- A `SYN` of the first peer is answered, and so is the answer. -/
def handshake (id : SessionID) (publicAddr : Side → UDPAddr) : List Event :=
  [.act .a .tick, .act .b .check,
    .deliver .b (publicAddr .a) ⟨publicAddr .b, punchPacket holePunchSyn id⟩, .act .a .check,
    .deliver .a (publicAddr .b) ⟨publicAddr .a, punchPacket holePunchSynAck id⟩, .act .b .check,
    .deliver .b (publicAddr .a) ⟨publicAddr .b, punchPacket holePunchAck id⟩,
    .act .a .takeSuccess, .act .b .takeSuccess]

theorem exec_handshake (id : SessionID) (publicAddr : Side → UDPAddr)
    (localAddr : Side → Option UDPAddr) :
    ∃ s, exec State.step (State.start (fun _ => id) publicAddr localAddr)
      (handshake id publicAddr) = some s ∧ s.Succeeded := by
  have hmem := publicAddr_mem_targets (publicAddr .b) (localAddr .b)
  simp [handshake, exec, State.step, State.start, State.set, Side.other, Peer.step, Peer.loop, hmem,
    Peer.receive_punchPacket, Peer.accept, Peer.report, Peer.finish, maxPunchAttempts, holePunchSyn,
    holePunchSynAck, holePunchAck, State.Succeeded, Side.forall]

/-- **Both peers can succeed exactly when they have drawn the same session ID.** -/
theorem both_succeed_iff (id : Side → SessionID) (publicAddr : Side → UDPAddr)
    (localAddr : Side → Option UDPAddr) :
    (∃ es s, exec State.step (State.start id publicAddr localAddr) es = some s ∧ s.Succeeded) ↔
      id .a = id .b := by
  constructor
  · rintro ⟨es, s, hexec, hsucc⟩
    by_contra hne
    exact State.not_succeeded hne hexec hsucc
  · intro heq
    have hid : id = fun _ => id .a := funext (Side.forall.2 ⟨rfl, heq.symm⟩)
    rw [hid]
    exact ⟨_, exec_handshake (id .a) publicAddr localAddr⟩

/-- Two peers whose IDs differ in one byte. -/
theorem different_ids_never_succeed :
    ¬ ∃ es s, exec State.step (State.start
        (fun | .a => ⟨[0, 0, 0, 0, 0, 0, 0, 0], rfl⟩ | .b => ⟨[0, 0, 0, 0, 0, 0, 0, 1], rfl⟩)
        (fun _ => ⟨0, 0⟩) fun _ => none) es = some s ∧ s.Succeeded := by
  rintro ⟨es, s, hexec, hsucc⟩
  exact State.not_succeeded (by decide) hexec hsucc

end FileSync.HolePunch
