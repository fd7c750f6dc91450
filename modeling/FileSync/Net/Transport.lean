import FileSync.Support.Maps
import FileSync.Support.Sha256
import FileSync.Support.Transition

/-!
# Net — the connected peers of a transport

`Transport.handleConnection` looks for the peer in the map, makes the handshake and enters the peer,
under the lock twice; `handlePeerStreams` removes the peer when its connection is closed, by its ID
alone.  Between the two steps of one connection another connection of the same peer can take its
own.

What is to hold is that a peer with an open connection is found (`State.Found`).

* `State.Sole s e` says that `e` takes no connection of a peer away while another one is open: it is
  not the closing of the connection in the map, nor the removal of one, nor the entry of a
  connection that is closed already.
* `found_iff`: `Found` holds throughout a run if and only if all its events are sole.
* `second_connection_lost`: two connections of one peer are both made, and the end of the first
  makes the second one unreachable.
-/

open Transition

namespace FileSync.Transport

/-- The fingerprint of a certificate. -/
abbrev PeerID := Sha256.Digest

def certToFingerprint (raw : Bytes) : PeerID := Sha256.sum256 raw

/-- Where `handleConnection`, and after it `handlePeerStreams`, is for a connection.  A `duplicate`
was answered with the peer of another connection. -/
inductive Phase
  | absent
  | checking
  | handshaking
  | duplicate
  | failed (msg : String)
  | serving
  | removed
deriving DecidableEq

/-- The connections, with the certificate the other side has shown, and `t.peers`, in which a peer
is given by its connection. -/
structure State (κ : Type) [DecidableEq κ] where
  cert : κ → Option Bytes
  phase : κ → Phase
  closed : κ → Bool
  peers : AList fun _ : PeerID => κ

/-- What can fail between the two steps under the lock. -/
inductive Fault
  | stream
  | handshake
deriving DecidableEq

def Fault.msg : Fault → String
  | .stream => "opening control stream: "
  | .handshake => "handshake failed: "

inductive Event (κ : Type)
  | accept (c : κ) (cert : Option Bytes)
  | check (c : κ)
  | fail (c : κ) (fault : Fault)
  | register (c : κ)
  | close (c : κ)
  | removePeer (c : κ)
deriving DecidableEq

namespace State

variable {κ : Type} [DecidableEq κ]

def start : State κ := ⟨fun _ => none, fun _ => .absent, fun _ => false, ∅⟩

def peerID (s : State κ) (c : κ) : Option PeerID := (s.cert c).map certToFingerprint

/-- `GetPeer`. -/
def getPeer (s : State κ) (id : PeerID) : Option κ := s.peers.lookup id

/-- `handleConnection` returns an error, and its caller closes the connection. -/
def abort (s : State κ) (c : κ) (msg : String) : State κ :=
  { s with
    phase := Function.update s.phase c (.failed msg)
    closed := Function.update s.closed c true }

def step (s : State κ) : Event κ → Option (State κ)
  | .accept c cert =>
    if s.phase c = .absent then
      some { s with
        cert := Function.update s.cert c cert
        phase := Function.update s.phase c .checking }
    else none
  | .check c =>
    if s.phase c = .checking then
      match s.peerID c with
      | none => some (s.abort c "no peer certificate")
      | some id =>
        match s.getPeer id with
        | some _ => some { s with phase := Function.update s.phase c .duplicate }
        | none => some { s with phase := Function.update s.phase c .handshaking }
    else none
  | .fail c fault => if s.phase c = .handshaking then some (s.abort c fault.msg) else none
  | .register c =>
    match s.phase c, s.peerID c with
    | .handshaking, some id =>
      some { s with
        phase := Function.update s.phase c .serving
        peers := s.peers.insert id c }
    | _, _ => none
  | .close c =>
    if s.phase c ≠ .absent ∧ s.closed c = false then
      some { s with closed := Function.update s.closed c true }
    else none
  | .removePeer c =>
    match s.peerID c with
    | some id =>
      if s.phase c = .serving ∧ s.closed c = true then
        some { s with
          phase := Function.update s.phase c .removed
          peers := s.peers.erase id }
      else none
    | none => none

/-- The connection is registered for the peer and open. -/
def Open (s : State κ) (id : PeerID) (c : κ) : Prop :=
  s.phase c = .serving ∧ s.peerID c = some id ∧ s.closed c = false

/-- A peer with an open connection is found. -/
def Found (s : State κ) : Prop :=
  ∀ id c, s.Open id c → ∃ p, s.getPeer id = some p ∧ s.closed p = false

/-- The event takes no connection of a peer away while another one is open. -/
def Sole (s : State κ) : Event κ → Prop
  | .register c => s.closed c = true → ∀ id c', s.peerID c = some id → ¬ s.Open id c'
  | .close c => ∀ id c', s.getPeer id = some c → s.Open id c' → c' = c
  | .removePeer c => ∀ id c', s.peerID c = some id → ¬ s.Open id c'
  | _ => True

/-! ### What holds in every run -/

variable {s s' : State κ} {c : κ} {id : PeerID}

/-- An entry of the map is the registered connection of that peer. -/
def Entered (s : State κ) : Prop :=
  ∀ id c, s.getPeer id = some c → s.phase c = .serving ∧ s.peerID c = some id

theorem entered_start : Entered (start : State κ) := by
  intro id c h
  simp [start, getPeer] at h

/-- What an event can do: `aside` is a change of a connection that is not registered. -/
inductive Move (s : State κ) : Event κ → State κ → Prop
  | aside {e : Event κ} {s' : State κ} {c : κ} (hsole : s.Sole e) (hc : s.phase c ≠ .serving)
      (hc' : s'.phase c ≠ .serving) (hpeers : s'.peers = s.peers)
      (hother : ∀ x, x ≠ c → s'.phase x = s.phase x ∧ s'.peerID x = s.peerID x ∧
        s'.closed x = s.closed x) : Move s e s'
  | register {c : κ} {id : PeerID} (hc : s.phase c = .handshaking) (hid : s.peerID c = some id) :
      Move s (.register c) { s with
        phase := Function.update s.phase c .serving
        peers := s.peers.insert id c }
  | close {c : κ} : Move s (.close c) { s with closed := Function.update s.closed c true }
  | removePeer {c : κ} {id : PeerID} (hid : s.peerID c = some id) (hclosed : s.closed c = true) :
      Move s (.removePeer c) { s with
        phase := Function.update s.phase c .removed
        peers := s.peers.erase id }

theorem move_of_step {e : Event κ} (hs : s.step e = some s') : Move s e s' := by
  cases e with
  | accept c cert =>
    obtain ⟨hc, rfl⟩ := by simpa [step] using hs
    refine .aside (c := c) trivial (by simp [hc]) (by simp) rfl fun x hx => ?_
    simp [peerID, hx]
  | check c =>
    obtain ⟨hc, hs⟩ := Option.ite_none_right_eq_some.1 hs
    have hne : s.phase c ≠ .serving := by simp [hc]
    split at hs
    · obtain rfl := Option.some.inj hs
      exact .aside trivial hne (by simp [abort]) rfl fun x hx => by simp [abort, peerID, hx]
    · split at hs <;> obtain rfl := Option.some.inj hs <;>
        exact .aside trivial hne (by simp) rfl fun x hx => by simp [peerID, hx]
  | fail c fault =>
    obtain ⟨hc, rfl⟩ := by simpa [step] using hs
    refine .aside (c := c) trivial (by simp [hc]) (by simp [abort]) rfl fun x hx => ?_
    simp [abort, peerID, hx]
  | register c =>
    simp only [step] at hs
    split at hs
    · next id hc hid =>
        obtain rfl := Option.some.inj hs
        exact .register hc hid
    · cases hs
  | close c =>
    obtain ⟨-, rfl⟩ := by simpa [step] using hs
    exact .close
  | removePeer c =>
    simp only [step] at hs
    split at hs
    · next id hid =>
        obtain ⟨⟨-, hclosed⟩, rfl⟩ := by simpa using hs
        exact .removePeer hid hclosed
    · cases hs

theorem Entered.step (h : s.Entered) {e : Event κ} (hs : s.step e = some s') : s'.Entered := by
  intro id' x hx
  cases move_of_step hs with
  | @aside _ _ c _ hc _ hpeers hother =>
    rw [getPeer, hpeers] at hx
    obtain ⟨hphase, hid⟩ := h id' x hx
    have hne : x ≠ c := fun heq => hc (heq ▸ hphase)
    rw [(hother x hne).1, (hother x hne).2.1]
    exact ⟨hphase, hid⟩
  | @register c id hc hid =>
    rcases lookup_insert_eq_some.1 hx with ⟨rfl, rfl⟩ | ⟨-, hx⟩
    · exact ⟨Function.update_self .., hid⟩
    · obtain ⟨hphase, hid'⟩ := h id' x hx
      have hxc : x ≠ c := by
        rintro rfl
        exact nomatch hc.symm.trans hphase
      exact ⟨(Function.update_of_ne hxc ..).trans hphase, hid'⟩
  | close => exact h id' x hx
  | @removePeer c id hid hclosed =>
    obtain ⟨hne, hx⟩ := lookup_erase_eq_some.1 hx
    obtain ⟨hphase, hid'⟩ := h id' x hx
    have hxc : x ≠ c := by
      rintro rfl
      exact hne (Option.some.inj (hid'.symm.trans hid))
    exact ⟨(Function.update_of_ne hxc ..).trans hphase, hid'⟩

/-! ### Exactly the sole events keep `Found` -/

/-- A connection that is not registered changes: nobody looks for it. -/
theorem Found.of_ne (h : s.Found) (he : s.Entered) (hc : s.phase c ≠ .serving)
    (hc' : s'.phase c ≠ .serving) (hpeers : s'.peers = s.peers)
    (hother : ∀ x, x ≠ c → s'.phase x = s.phase x ∧ s'.peerID x = s.peerID x ∧
      s'.closed x = s.closed x) : s'.Found := by
  rintro id x ⟨hphase, hid, hopen⟩
  have hne : x ≠ c := by
    rintro rfl
    exact hc' hphase
  obtain ⟨hp, hi, hcl⟩ := hother x hne
  obtain ⟨p, hget, hpopen⟩ := h id x ⟨hp ▸ hphase, hi ▸ hid, hcl ▸ hopen⟩
  have hpc : p ≠ c := fun heq => hc (heq ▸ (he id p hget).1)
  refine ⟨p, ?_, (hother p hpc).2.2.trans hpopen⟩
  rw [getPeer, hpeers]
  exact hget

/-- A connection that was closed during its handshake takes the entry of the peer. -/
theorem found_register (h : s.Found) (hid : s.peerID c = some id) :
    Found { s with
      phase := Function.update s.phase c .serving
      peers := s.peers.insert id c } ↔ s.Sole (.register c) := by
  constructor
  · intro hfound hclosed id' c' hid' hopen
    obtain rfl : id = id' := Option.some.inj (hid.symm.trans hid')
    have hphase : Function.update s.phase c .serving c' = .serving := by
      rcases eq_or_ne c' c with rfl | hne
      · exact Function.update_self ..
      · exact (Function.update_of_ne hne ..).trans hopen.1
    obtain ⟨p, hget, hp⟩ := hfound id c' ⟨hphase, hopen.2⟩
    obtain rfl : c = p := by simpa [getPeer] using hget
    simp [hclosed] at hp
  · rintro hsole id' x ⟨hphase, hid', hopen⟩
    rcases eq_or_ne id' id with rfl | hne
    · refine ⟨c, AList.lookup_insert _, ?_⟩
      by_contra hclosed
      have hxc : x ≠ c := by
        rintro rfl
        exact hclosed hopen
      replace hphase := (Function.update_of_ne hxc ..).symm.trans hphase
      exact hsole (by simpa using hclosed) id' x hid ⟨hphase, hid', hopen⟩
    · have hxc : x ≠ c := by
        rintro rfl
        exact hne (Option.some.inj (hid'.symm.trans hid))
      replace hphase := (Function.update_of_ne hxc ..).symm.trans hphase
      obtain ⟨p, hget, hp⟩ := h id' x ⟨hphase, hid', hopen⟩
      exact ⟨p, (AList.lookup_insert_ne hne).trans hget, hp⟩

theorem found_close (h : s.Found) :
    Found { s with closed := Function.update s.closed c true } ↔ s.Sole (.close c) := by
  constructor
  · intro hfound id c' hget hopen
    by_contra hne
    have hopen' : Function.update s.closed c true c' = false :=
      (Function.update_of_ne hne ..).trans hopen.2.2
    obtain ⟨p, hget', hp⟩ := hfound id c' ⟨hopen.1, hopen.2.1, hopen'⟩
    obtain rfl : c = p := Option.some.inj (hget.symm.trans hget')
    simp at hp
  · rintro hsole id x ⟨hphase, hid, hopen⟩
    have hxc : x ≠ c := by
      rintro rfl
      simp at hopen
    replace hopen := (Function.update_of_ne hxc ..).symm.trans hopen
    obtain ⟨p, hget, hp⟩ := h id x ⟨hphase, hid, hopen⟩
    have hpc : p ≠ c := by
      rintro rfl
      exact hxc (hsole id x hget ⟨hphase, hid, hopen⟩)
    exact ⟨p, hget, (Function.update_of_ne hpc ..).trans hp⟩

/-- The end of a connection removes the entry of its peer, whichever connection it is for. -/
theorem found_removePeer (h : s.Found) (hid : s.peerID c = some id) (hclosed : s.closed c = true) :
    Found { s with
      phase := Function.update s.phase c .removed
      peers := s.peers.erase id } ↔ s.Sole (.removePeer c) := by
  constructor
  · intro hfound id' c' hid' hopen
    obtain rfl : id = id' := Option.some.inj (hid.symm.trans hid')
    -- The connection itself is closed, so another one is meant.
    have hne : c' ≠ c := by
      rintro rfl
      exact nomatch hclosed.symm.trans hopen.2.2
    have hphase : Function.update s.phase c .removed c' = .serving :=
      (Function.update_of_ne hne ..).trans hopen.1
    obtain ⟨p, hget, -⟩ := hfound id c' ⟨hphase, hopen.2⟩
    exact absurd rfl (lookup_erase_eq_some.1 hget).1
  · rintro hsole id' x ⟨hphase, hid', hopen⟩
    have hxc : x ≠ c := by
      rintro rfl
      simp at hphase
    replace hphase := (Function.update_of_ne hxc ..).symm.trans hphase
    have hne : id' ≠ id := by
      rintro rfl
      exact hsole id' x hid ⟨hphase, hid', hopen⟩
    obtain ⟨p, hget, hp⟩ := h id' x ⟨hphase, hid', hopen⟩
    exact ⟨p, lookup_erase_eq_some.2 ⟨hne, hget⟩, hp⟩

theorem found_step (he : s.Entered) (h : s.Found) {e : Event κ} (hs : s.step e = some s') :
    s'.Found ↔ s.Sole e := by
  cases move_of_step hs with
  | aside hsole hc hc' hpeers hother =>
    exact iff_of_true (h.of_ne he hc hc' hpeers hother) hsole
  | register hc hid => exact found_register h hid
  | close => exact found_close h
  | removePeer hid hclosed => exact found_removePeer h hid hclosed

end State

/-- **Connected peers.**  Throughout a run a peer with an open registered connection is found, if
and only if no event takes a connection of a peer away while another one is open. -/
theorem found_iff {κ : Type} [DecidableEq κ] {es : List (Event κ)} {s : State κ}
    (h : exec State.step State.start es = some s) :
    Run State.step (fun s _ => s.Found) State.start es s ∧ s.Found ↔
      Run State.step State.Sole State.start es s :=
  Run.iff_of_exact_state (fun _ _ _ he hs => he.step hs)
    (fun _ _ _ he hfound hs => State.found_step he hfound hs) h State.entered_start
    fun _ _ hopen => nomatch hopen.1

/-- A connection is made and accepted. -/
def connects (c : ℕ) (cert : Bytes) : List (Event ℕ) := [.accept c (some cert), .check c]

/-- Two peers come, and one of them goes. -/
theorem found_iff_two_peers :
    ∃ s, exec State.step State.start (connects 0 [7] ++ connects 1 [8] ++
        [.register 0, .register 1, .close 0, .removePeer 0]) = some s ∧
      s.getPeer (certToFingerprint [8]) = some 1 ∧ s.getPeer (certToFingerprint [7]) = none ∧
      s.Found := by
  have hne : certToFingerprint [7] ≠ certToFingerprint [8] := by decide +kernel
  have hrun : ∃ s, Run State.step State.Sole State.start (connects 0 [7] ++ connects 1 [8] ++
      [.register 0, .register 1, .close 0, .removePeer 0]) s ∧
      s.getPeer (certToFingerprint [8]) = some 1 ∧ s.getPeer (certToFingerprint [7]) = none := by
    refine ⟨_, .cons trivial rfl <| .cons trivial rfl <| .cons trivial rfl <| .cons trivial rfl <|
      .cons (fun h => by cases h) rfl <| .cons (fun h => by cases h) rfl <|
      .cons (fun id c hget hopen => ?_) rfl <| .cons (fun id c hid hopen => ?_) rfl <| .nil _,
      ?_, ?_⟩
    · rcases eq_or_ne c 1 with rfl | h1
      · obtain rfl : certToFingerprint [8] = id := by simpa [State.peerID] using hopen.2.1
        simp [State.getPeer] at hget
      · by_contra h0
        simp [State.Open, State.start, h0, h1] at hopen
    · obtain rfl : certToFingerprint [7] = id := by simpa [State.peerID] using hid
      rcases eq_or_ne c 0 with rfl | h0
      · simp [State.Open] at hopen
      · rcases eq_or_ne c 1 with rfl | h1
        · simp [State.Open, State.peerID, hne.symm] at hopen
        · simp [State.Open, State.start, h0, h1] at hopen
    · simp [State.getPeer, AList.lookup_erase_ne hne.symm]
    · simp [State.getPeer]
  obtain ⟨s, hrun, hthere, hgone⟩ := hrun
  exact ⟨s, hrun.exec_eq, hthere, hgone, ((found_iff hrun.exec_eq).2 hrun).2⟩

/-- Two connections of one peer are checked before either is registered.  The first one is closed
and removed: the second is open, and the peer is not found. -/
theorem second_connection_lost :
    ∃ s, exec State.step State.start (connects 0 [7] ++ connects 1 [7] ++
        [.register 0, .register 1, .close 0, .removePeer 0]) = some s ∧
      s.Open (certToFingerprint [7]) 1 ∧ s.getPeer (certToFingerprint [7]) = none ∧ ¬ s.Found := by
  have hrun : ∃ s, exec State.step State.start (connects 0 [7] ++ connects 1 [7] ++
        [.register 0, .register 1, .close 0, .removePeer 0]) = some s ∧
      s.Open (certToFingerprint [7]) 1 ∧ s.getPeer (certToFingerprint [7]) = none := by
    simp [exec, connects, State.step, State.start, State.peerID, State.getPeer, State.Open]
  obtain ⟨s, hs, hopen, hnone⟩ := hrun
  refine ⟨s, hs, hopen, hnone, fun hfound => ?_⟩
  obtain ⟨p, hp, -⟩ := hfound _ 1 hopen
  cases hnone.symm.trans hp

end FileSync.Transport
