import FileSync.Nat.Relay
import Mathlib.Data.List.Infix

/-!
# Nat — what the events of the relay change

What each call on a connection and each event of the server leaves as it is, said once for the
invariants of the other modules.

* `Server.pairing s b` is the session that the handler of `b` runs, as its ID and its `PeerA`.  The
  events of handlers and sessions leave it alone; only a lookup that finds a waiting connection
  changes it.
* `Request phase c` is what the peer of `c` has sent when its handler is in `phase`: from the header
  on, a connect request.
* `Server.Move s s'` lists what an event can do, and `Server.move_of_step` is the inversion of
  `Server.step`.
-/

namespace FileSync.Relay

/-! ### Calls -/

theorem Conn.read_eq {c c' : Conn} {n : ℕ} {data : Bytes} (h : c.read n = some (data, c')) :
    c.closed = false ∧ n ≤ c.unread.length ∧ data = c.unread.take n ∧
      c' = { c with taken := c.taken + n } := by
  unfold Conn.read at h
  split at h
  · next hn =>
      obtain ⟨rfl, rfl⟩ := Prod.mk.inj (Option.some.inj h)
      exact ⟨hn.1, hn.2, rfl, rfl⟩
  · cases h

theorem Conn.write_ok {c c' : Conn} {data : Bytes} (h : c.write data .ok = some c') :
    c' = { c with written := c.written ++ data } := by
  simp only [Conn.write] at h
  split at h
  · cases h
  · exact (Option.some.inj h).symm

theorem Conn.write_fails {c c' : Conn} {data : Bytes} {n : ℕ}
    (h : c.write data (.fails n) = some c') :
    c.canFail = true ∧ c' = { c with written := c.written ++ data.take n } := by
  simp only [Conn.write] at h
  split at h
  · next hc =>
      split at h
      · next hn =>
          obtain rfl := Option.some.inj h
          exact ⟨by simp [Conn.canFail, hc], by simp [hn]⟩
      · cases h
  · split at h
    · next hc => exact ⟨hc, (Option.some.inj h).symm⟩
    · cases h

/-- A write, however it ends, changes only what is written, and nothing if the connection is
closed. -/
theorem Conn.write_eq {c c' : Conn} {data : Bytes} {out : Outcome}
    (h : c.write data out = some c') :
    (∃ d, c' = { c with written := d }) ∧ (c.closed = true → c' = c) := by
  cases out with
  | ok =>
    refine ⟨⟨_, Conn.write_ok h⟩, fun hc => ?_⟩
    simp [Conn.write, hc] at h
  | fails n =>
    refine ⟨⟨_, (Conn.write_fails h).2⟩, fun hc => ?_⟩
    simp only [Conn.write, hc, if_true] at h
    split at h
    · exact (Option.some.inj h).symm
    · cases h

/-- What a round of a goroutine can be. -/
inductive Round (src dst : Conn) : Copier → Copier → Conn → Conn → Prop
  | read (n : ℕ) (hn : n ≤ src.unread.length) :
      Round src dst .reading (.writing (src.unread.take n)) { src with taken := src.taken + n } dst
  | readFails (h : src.canFail = true) : Round src dst .reading .ended src dst
  | write (buf : Bytes) :
      Round src dst (.writing buf) .reading src { dst with written := dst.written ++ buf }
  | writeFails (buf : Bytes) (n : ℕ) (h : dst.canFail = true) :
      Round src dst (.writing buf) .ended src { dst with written := dst.written ++ buf.take n }

theorem Copier.step_round {copier copier' : Copier} {src dst src' dst' : Conn} {e : SessionEvent}
    (hs : copier.step src dst e = some (copier', src', dst')) :
    Round src dst copier copier' src' dst' := by
  unfold Copier.step at hs
  split at hs
  · split at hs
    · obtain ⟨⟨buf, src₁⟩, hread, heq⟩ := Option.map_eq_some_iff.1 hs
      obtain ⟨-, hn, rfl, rfl⟩ := Conn.read_eq hread
      obtain ⟨rfl, rfl, rfl⟩ := by simpa using heq
      exact .read _ hn
    · cases hs
  · split at hs
    · next h =>
        obtain ⟨rfl, rfl, rfl⟩ := by simpa using hs
        exact .readFails h
    · cases hs
  · next buf _ =>
      obtain ⟨dst₁, hwrite, heq⟩ := Option.map_eq_some_iff.1 hs
      obtain ⟨rfl, rfl, rfl⟩ := by simpa using heq
      rw [Conn.write_ok hwrite]
      exact .write buf
  · next buf _ n =>
      obtain ⟨dst₁, hwrite, heq⟩ := Option.map_eq_some_iff.1 hs
      obtain ⟨rfl, rfl, rfl⟩ := by simpa using heq
      obtain ⟨hfail, rfl⟩ := Conn.write_fails hwrite
      exact .writeFails buf n hfail
  · cases hs

/-- Only how much was read from the one connection and what was written to the other change, and a
goroutine ends only when a call fails. -/
theorem Round.frame {copier copier' : Copier} {src dst src' dst' : Conn}
    (h : Round src dst copier copier' src' dst') :
    (∃ n, src' = { src with taken := n }) ∧ (∃ d, dst' = { dst with written := d }) ∧
      (copier' = .ended → src.canFail = true ∨ dst.canFail = true) := by
  cases h with
  | read n _ => exact ⟨⟨_, rfl⟩, ⟨_, rfl⟩, fun h => nomatch h⟩
  | readFails h => exact ⟨⟨_, rfl⟩, ⟨_, rfl⟩, fun _ => Or.inl h⟩
  | write buf => exact ⟨⟨_, rfl⟩, ⟨_, rfl⟩, fun h => nomatch h⟩
  | writeFails buf n h => exact ⟨⟨_, rfl⟩, ⟨_, rfl⟩, fun _ => Or.inr h⟩

/-- What an event of a session can do. -/
inductive SessionMove {κ : Type} (ses : Session κ) (a b : Conn) : Session κ → Conn → Conn → Prop
  | ackA {out : Outcome} {a' : Conn} (hst : ses.stage = .ackA)
      (hw : a.write (connectAck ses.id) out = some a') :
      SessionMove ses a b { ses with ackA := out.ack, stage := .ackB } a' b
  | ackB {out : Outcome} {b' : Conn} (hst : ses.stage = .ackB)
      (hw : b.write (connectAck ses.id) out = some b') :
      SessionMove ses a b { ses with ackB := out.ack, stage := .clearing } a b'
  | clear (hst : ses.stage = .clearing) :
      SessionMove ses a b { ses with stage := .relaying } { a with deadline := false }
        { b with deadline := false }
  | toB {toB : Copier} {a' b' : Conn} (hst : ses.stage = .relaying)
      (hround : Round a b ses.toB toB a' b') : SessionMove ses a b { ses with toB } a' b'
  | toA {toA : Copier} {a' b' : Conn} (hst : ses.stage = .relaying)
      (hround : Round b a ses.toA toA b' a') : SessionMove ses a b { ses with toA } a' b'
  | wait (hst : ses.stage = .relaying) (hA : ses.toA = .ended) (hB : ses.toB = .ended) :
      SessionMove ses a b { ses with stage := .removing } a b
  | close (hst : ses.stage = .closing) :
      SessionMove ses a b { ses with stage := .over } a.close b.close

section SessionMove

variable {κ : Type} {ses ses' : Session κ} {a b a' b' : Conn}

theorem sessionMove_of_copy {e : SessionEvent} {dir : Direction} (hst : ses.stage = .relaying)
    (hs : ses.copy a b e dir = some (ses', a', b')) : SessionMove ses a b ses' a' b' := by
  cases dir with
  | toB =>
    obtain ⟨⟨toB, a₁, b₁⟩, hstep, ⟨⟩⟩ := Option.map_eq_some_iff.1 hs
    exact .toB hst (Copier.step_round hstep)
  | toA =>
    obtain ⟨⟨toA, b₁, a₁⟩, hstep, ⟨⟩⟩ := Option.map_eq_some_iff.1 hs
    exact .toA hst (Copier.step_round hstep)

theorem sessionMove_of_step {e : SessionEvent} (hs : ses.step a b e = some (ses', a', b')) :
    SessionMove ses a b ses' a' b' := by
  cases e with
  | ack out =>
    simp only [Session.step] at hs
    split at hs
    · next hst =>
        obtain ⟨a₁, hw, ⟨⟩⟩ := Option.map_eq_some_iff.1 hs
        exact .ackA hst hw
    · next hst =>
        obtain ⟨b₁, hw, ⟨⟩⟩ := Option.map_eq_some_iff.1 hs
        exact .ackB hst hw
    · cases hs
  | clearDeadlines =>
    obtain ⟨hst, ⟨⟩⟩ := Option.ite_none_right_eq_some.1 hs
    exact .clear hst
  | read dir n | readFails dir | write dir out =>
    obtain ⟨hst, hs⟩ := Option.ite_none_right_eq_some.1 hs
    exact sessionMove_of_copy hst hs
  | wait =>
    obtain ⟨⟨hst, hA, hB⟩, ⟨⟩⟩ := Option.ite_none_right_eq_some.1 hs
    exact .wait hst hA hB
  | close =>
    obtain ⟨hst, ⟨⟩⟩ := Option.ite_none_right_eq_some.1 hs
    exact .close hst

/-- An event of a session leaves its ID, its peers and what they have sent. -/
structure Session.Frame {κ : Type} (ses : Session κ) (a b : Conn) (ses' : Session κ)
    (a' b' : Conn) : Prop where
  id : ses'.id = ses.id
  peerA : ses'.peerA = ses.peerA
  sentA : a'.sent = a.sent
  sentB : b'.sent = b.sent

theorem SessionMove.frame (h : SessionMove ses a b ses' a' b') : ses.Frame a b ses' a' b' := by
  cases h with
  | ackA hst hw | ackB hst hw =>
    obtain ⟨⟨d, rfl⟩, -⟩ := Conn.write_eq hw
    exact ⟨rfl, rfl, rfl, rfl⟩
  | toB hst hround | toA hst hround =>
    obtain ⟨⟨n, rfl⟩, ⟨d, rfl⟩, -⟩ := hround.frame
    exact ⟨rfl, rfl, rfl, rfl⟩
  | clear | wait | close => exact ⟨rfl, rfl, rfl, rfl⟩

/-- The session has not yet stopped to relay. -/
def Stage.Relaying : Stage → Prop
  | .ackA | .ackB | .clearing | .relaying => True
  | .removing | .closing | .over => False

theorem SessionMove.relaying (h : SessionMove ses a b ses' a' b') (hrel : ses'.stage.Relaying) :
    ses.stage.Relaying := by
  cases h with
  | ackA hst | ackB hst | clear hst | toB hst | toA hst => exact hst ▸ trivial
  | wait | close => exact hrel.elim

theorem SessionMove.closed (h : SessionMove ses a b ses' a' b') (hclosed : a.closed = true) :
    a'.closed = true := by
  cases h with
  | ackA hst hw =>
    obtain ⟨⟨d, rfl⟩, -⟩ := Conn.write_eq hw
    exact hclosed
  | toB hst hround | toA hst hround =>
    obtain ⟨⟨n, rfl⟩, ⟨d, rfl⟩, -⟩ := hround.frame
    exact hclosed
  | ackB | clear | wait => exact hclosed
  | close => rfl

end SessionMove

/-! ### Handlers -/

/-- The handler has not yet looked for a session. -/
def Early {κ : Type} : Phase κ → Prop
  | .absent | .header | .sessionID _ | .lookup _ => True
  | _ => False

/-- The handler has looked for a session and runs none. -/
def Settled {κ : Type} : Phase κ → Prop
  | .waiting _ | .fired _ | .refusing _ | .leaving | .returned => True
  | _ => False

theorem settled_iff {κ : Type} {phase : Phase κ} :
    Settled phase ↔ ¬ Early phase ∧ ∀ ses, phase ≠ .session ses := by
  cases phase <;> simp [Settled, Early]

theorem checkHeader_cases (κ : Type) (header : Bytes) :
    (∃ msg, checkHeader κ header = .refusing msg) ∨
      ∃ len, checkHeader κ header = .sessionID len := by
  unfold checkHeader
  split
  · exact Or.inl ⟨_, rfl⟩
  split
  · exact Or.inl ⟨_, rfl⟩
  · exact Or.inr ⟨_, rfl⟩

/-- What a handler can do by itself. -/
inductive HandlerMove {κ : Type} (c : Conn) : Phase κ → Phase κ → Conn → Prop
  | readHeader (hn : 5 ≤ c.unread.length) :
      HandlerMove c .header (checkHeader κ (c.unread.take 5)) { c with taken := c.taken + 5 }
  | readSessionID (len : ℕ) (hn : len ≤ c.unread.length) :
      HandlerMove c (.sessionID len) (.lookup (c.unread.take len)) { c with taken := c.taken + len }
  | headerFails : HandlerMove c .header .leaving c
  | sessionIDFails (len : ℕ) : HandlerMove c (.sessionID len) .leaving c
  | sendError (msg written : Bytes) (hclosed : c.closed = true → written = c.written) :
      HandlerMove c (.refusing msg) .leaving { c with written }
  | close : HandlerMove c .leaving .returned c.close

theorem handlerMove_of_step {κ : Type} {c c' : Conn} {phase phase' : Phase κ} {e : HandlerEvent}
    (hs : handlerStep c phase e = some (phase', c')) : HandlerMove c phase phase' c' := by
  unfold handlerStep at hs
  split at hs
  · obtain ⟨⟨header, c₁⟩, hread, heq⟩ := Option.map_eq_some_iff.1 hs
    obtain ⟨rfl, rfl⟩ := by simpa using heq
    obtain ⟨-, hn, rfl, rfl⟩ := Conn.read_eq hread
    exact .readHeader hn
  · obtain ⟨⟨id, c₁⟩, hread, heq⟩ := Option.map_eq_some_iff.1 hs
    obtain ⟨rfl, rfl⟩ := by simpa using heq
    obtain ⟨-, hn, rfl, rfl⟩ := Conn.read_eq hread
    exact .readSessionID _ hn
  · obtain ⟨-, rfl, rfl⟩ := by simpa using hs
    exact .headerFails
  · obtain ⟨-, rfl, rfl⟩ := by simpa using hs
    exact .sessionIDFails _
  · obtain ⟨c₁, hwrite, heq⟩ := Option.map_eq_some_iff.1 hs
    obtain ⟨rfl, rfl⟩ := by simpa using heq
    obtain ⟨⟨d, rfl⟩, hclosed⟩ := Conn.write_eq hwrite
    exact .sendError _ d fun h => congrArg Conn.written (hclosed h)
  · obtain ⟨rfl, rfl⟩ := by simpa using hs
    exact .close
  · cases hs

/-- The handler waits for the other peer of the session. -/
def Waits {κ : Type} (id : Bytes) (phase : Phase κ) : Prop :=
  phase = .waiting id ∨ phase = .fired id

theorem Waits.unique {κ : Type} {id id' : Bytes} {phase : Phase κ} (h : Waits id phase)
    (h' : Waits id' phase) : id = id' := by
  rcases h with rfl | rfl <;> simpa [Waits, eq_comm] using h'

/-- A handler by itself neither waits nor runs a session, and does not begin again. -/
theorem HandlerMove.frame {κ : Type} {c c' : Conn} {phase phase' : Phase κ}
    (h : HandlerMove c phase phase' c') :
    (∀ ses, phase ≠ .session ses) ∧ (∀ ses, phase' ≠ .session ses) ∧
      (∀ id, ¬ Waits id phase ∧ ¬ Waits id phase') ∧ (Early phase' → Early phase) := by
  cases h with
  | readHeader =>
    rcases checkHeader_cases κ (c.unread.take 5) with ⟨msg, hck⟩ | ⟨len, hck⟩ <;> rw [hck] <;>
      simp [Early, Waits]
  | readSessionID | headerFails | sessionIDFails | sendError | close => simp [Early, Waits]

namespace Server

variable {κ : Type} [DecidableEq κ] {s s' : Server κ} {c : κ}

/-- `c` is the `PeerA` of a session. -/
def Paired (s : Server κ) (c : κ) : Prop := ∃ b ses, s.phase b = .session ses ∧ ses.peerA = c

/-- The ID and the `PeerA` of the session that the handler of `b` runs. -/
def pairing (s : Server κ) (b : κ) : Option (Bytes × κ) :=
  match s.phase b with
  | .session ses => some (ses.id, ses.peerA)
  | _ => none

theorem pairing_eq_some {b a : κ} {id : Bytes} :
    s.pairing b = some (id, a) ↔ ∃ ses, s.phase b = .session ses ∧ ses.id = id ∧ ses.peerA = a := by
  unfold pairing
  split
  · next ses h => simp [h]
  · next hne =>
      refine ⟨nofun, ?_⟩
      rintro ⟨ses, h, -⟩
      exact (hne ses h).elim

theorem pairing_of_session {b : κ} {ses : Session κ} (h : s.phase b = .session ses) :
    s.pairing b = some (ses.id, ses.peerA) := pairing_eq_some.2 ⟨ses, h, rfl, rfl⟩

theorem paired_iff : s.Paired c ↔ ∃ b id, s.pairing b = some (id, c) := by
  constructor
  · rintro ⟨b, ses, h, rfl⟩
    exact ⟨b, ses.id, pairing_of_session h⟩
  · rintro ⟨b, id, h⟩
    obtain ⟨ses, hb, -, hc⟩ := pairing_eq_some.1 h
    exact ⟨b, ses, hb, hc⟩

theorem paired_congr (h : s'.pairing = s.pairing) : s'.Paired c ↔ s.Paired c := by
  rw [paired_iff, paired_iff, h]

theorem phase_set_of_ne {x : κ} (h : x ≠ c) (phase : Phase κ) (conn : Conn) :
    (s.set c phase conn).phase x = s.phase x := by simp [set, h]

theorem conn_set_of_ne {x : κ} (h : x ≠ c) (phase : Phase κ) (conn : Conn) :
    (s.set c phase conn).conn x = s.conn x := by simp [set, h]

@[simp] theorem phase_set_self (phase : Phase κ) (conn : Conn) :
    (s.set c phase conn).phase c = phase := by simp [set]

@[simp] theorem conn_set_self (phase : Phase κ) (conn : Conn) :
    (s.set c phase conn).conn c = conn := by simp [set]

/-- A handler that runs no session changes no session. -/
theorem pairing_set {phase : Phase κ} {conn : Conn} (hold : ∀ ses, s.phase c ≠ .session ses)
    (hnew : ∀ ses, phase ≠ .session ses) : (s.set c phase conn).pairing = s.pairing := by
  funext x
  rcases eq_or_ne x c with rfl | hx
  · have hnone (t : Server κ) (ht : ∀ ses, t.phase x ≠ .session ses) : t.pairing x = none := by
      rw [Option.eq_none_iff_forall_ne_some]
      rintro ⟨id, a⟩ h
      obtain ⟨ses, hs, -⟩ := pairing_eq_some.1 h
      exact ht ses hs
    rw [hnone s hold, hnone _ (by simpa using hnew)]
  · simp [pairing, phase_set_of_ne hx]

theorem pairing_set_session (ses : Session κ) (conn : Conn) :
    (s.set c (.session ses) conn).pairing =
      Function.update s.pairing c (some (ses.id, ses.peerA)) := by
  funext x
  rcases eq_or_ne x c with rfl | hx
  · rw [pairing_of_session (phase_set_self _ conn), Function.update_self]
  · simp [pairing, phase_set_of_ne hx, hx]

/-- A session of the new state is the new one or an old one. -/
theorem pairing_cases {t : Server κ} {a b x : κ} {id id' : Bytes}
    (hpair : t.pairing = Function.update s.pairing c (some (id, a)))
    (hb : t.pairing b = some (id', x)) :
    b = c ∧ id' = id ∧ x = a ∨ s.pairing b = some (id', x) := by
  rw [hpair] at hb
  rcases eq_or_ne b c with rfl | hne
  · exact Or.inl ⟨rfl, by simpa [eq_comm] using hb⟩
  · exact Or.inr (by simpa [hne] using hb)

theorem lookup_of_none {id : Bytes} (h : s.waiting.lookup id = none) :
    s.lookup c id =
      { s with waiting := s.waiting.insert id c }.set c (.waiting id) (s.conn c) := by
  simp [lookup, h, set]

theorem lookup_of_some {id : Bytes} {a : κ} (h : s.waiting.lookup id = some a) :
    s.lookup c id = { s with
      waiting := s.waiting.erase id
      sessions := s.sessions.insert id c }.set c (.session { id := id, peerA := a })
        (s.conn c) := by
  simp [lookup, h, set]

section SetSession

variable {b : κ} {ses ses' : Session κ} {connA connB : Conn}

@[simp] theorem phase_setSession_self :
    (s.setSession b ses' connA connB).phase b = .session ses' := by simp [setSession]

theorem phase_setSession_of_ne {x : κ} (h : x ≠ b) :
    (s.setSession b ses' connA connB).phase x = s.phase x := by simp [setSession, h]

@[simp] theorem conn_setSession_self : (s.setSession b ses' connA connB).conn b = connB := by
  simp [setSession]

theorem conn_setSession_peerA (h : ses'.peerA ≠ b) :
    (s.setSession b ses' connA connB).conn ses'.peerA = connA := by simp [setSession, h]

theorem conn_setSession_of_ne {x : κ} (h : x ≠ b) (hA : x ≠ ses'.peerA) :
    (s.setSession b ses' connA connB).conn x = s.conn x := by simp [setSession, h, hA]

theorem pairing_setSession (hb : s.phase b = .session ses) (hid : ses'.id = ses.id)
    (hpeer : ses'.peerA = ses.peerA) : (s.setSession b ses' connA connB).pairing = s.pairing := by
  funext x
  rcases eq_or_ne x b with rfl | hx
  · rw [pairing_of_session hb, pairing_of_session phase_setSession_self, hid, hpeer]
  · simp [pairing, phase_setSession_of_ne hx]

theorem step_removeSession (hb : s.phase b = .session ses) (hst : ses.stage = .removing) :
    s.step (.removeSession b) = some ({ s with sessions := s.sessions.erase ses.id }.setSession b
      { ses with stage := .closing } (s.conn ses.peerA) (s.conn b)) := by
  simp [step, hb, hst, setSession]

/-- The session has to have ended. -/
theorem removing_of_step (hs : s.step (.removeSession b) = some s') :
    ∃ ses, s.phase b = .session ses ∧ ses.stage = .removing := by
  simp only [step] at hs
  split at hs
  · next ses hb =>
      split at hs
      · next hst => exact ⟨ses, hb, hst⟩
      · cases hs
  · cases hs

end SetSession

end Server

/-! ### Requests -/

/-- The peer has sent a connect request for the session. -/
def Asked (id : Bytes) (c : Conn) : Prop :=
  id.length ≤ maxSessionIDLen ∧ message relayMsgConnect id <+: c.sent

theorem Asked.mono {id : Bytes} {c c' : Conn} (h : Asked id c) (hsent : c.sent <+: c'.sent) :
    Asked id c' := ⟨h.1, h.2.trans hsent⟩

/-- The length in its header says where a message ends. -/
theorem message_append_inj {type type' : UInt8} {p p' rest rest' : Bytes} (hp : p.length < 2 ^ 32)
    (hp' : p'.length < 2 ^ 32) (h : message type p ++ rest = message type' p' ++ rest') :
    p = p' ∧ rest = rest' := by
  simp only [message, List.cons_append, List.append_assoc, List.cons.injEq] at h
  obtain ⟨hlen, hrest⟩ := List.append_inj h.2 rfl
  have hnum := congrArg Binary.uint32 hlen
  rw [Binary.uint32_putUint32, Binary.uint32_putUint32, Nat.mod_eq_of_lt hp,
    Nat.mod_eq_of_lt hp'] at hnum
  exact List.append_inj hrest hnum

/-- A connection asks for one session only. -/
theorem Asked.unique {id id' : Bytes} {c : Conn} (h : Asked id c) (h' : Asked id' c) :
    id = id' := by
  have hlt {x : Bytes} (hx : x.length ≤ maxSessionIDLen) : x.length < 2 ^ 32 :=
    hx.trans_lt (by decide)
  obtain ⟨rest, hrest⟩ := h.2
  obtain ⟨rest', hrest'⟩ := h'.2
  exact (message_append_inj (hlt h.1) (hlt h'.1) (hrest.trans hrest'.symm)).1

/-- What the peer of `c` has sent when its handler is in the phase. -/
def Request {κ : Type} (phase : Phase κ) (c : Conn) : Prop :=
  match phase with
  | .absent => c.sent = []
  | .header => c.taken = 0
  | .sessionID len => c.taken = 5 ∧ len ≤ maxSessionIDLen ∧
      relayMsgConnect :: Binary.putUint32 len <+: c.sent
  | .lookup id | .waiting id | .fired id => Asked id c
  | .session ses => Asked ses.id c
  | .refusing _ | .leaving | .returned => True

theorem Request.mono {κ : Type} {phase : Phase κ} {c c' : Conn} (h : Request phase c)
    (hsent : c.sent <+: c'.sent) (habsent : phase = .absent → c'.sent = c.sent)
    (htaken : c'.taken = c.taken) : Request phase c' := by
  cases phase with
  | absent => exact (habsent rfl).trans h
  | header => exact htaken.trans h
  | sessionID len => exact ⟨htaken.trans h.1, h.2.1, h.2.2.trans hsent⟩
  | lookup | waiting | fired | session => exact Asked.mono h hsent
  | refusing | leaving | returned => trivial

/-- Once the request is read, the rest does not matter. -/
theorem Request.of_settled {κ : Type} {phase : Phase κ} {c c' : Conn} (h : Request phase c)
    (hs : Settled phase) (hsent : c.sent <+: c'.sent) : Request phase c' := by
  cases phase with
  | absent | header | sessionID | lookup | session => exact hs.elim
  | waiting | fired => exact Asked.mono h hsent
  | refusing | leaving | returned => trivial

/-- The request is read as it was sent. -/
theorem Request.handler {κ : Type} {phase phase' : Phase κ} {c c' : Conn}
    (h : Request phase c) (hm : HandlerMove c phase phase' c') :
    Request phase' c' ∧ c'.sent = c.sent := by
  cases hm with
  | readHeader hn =>
    have htaken : c.taken = 0 := h
    rw [Conn.unread, htaken, List.drop_zero] at hn ⊢
    refine ⟨?_, rfl⟩
    unfold checkHeader
    split
    · trivial
    split
    · trivial
    · next htype hlen =>
        -- The header is the type and the four bytes of the length.
        have hhead : (c.sent.take 5).length = 5 := by simpa using hn
        obtain ⟨t, len, hsplit⟩ : ∃ t len, c.sent.take 5 = t :: len := by
          cases hc : c.sent.take 5 with
          | nil => simp [hc] at hhead
          | cons t len => exact ⟨t, len, rfl⟩
        rw [hsplit] at htype hlen hhead ⊢
        obtain rfl : t = relayMsgConnect := by simpa using htype
        refine ⟨by simp, not_lt.1 hlen, ?_⟩
        rw [List.drop_one, List.tail_cons, Binary.putUint32_uint32 (by simpa using hhead),
          ← hsplit]
        exact List.take_prefix 5 _
  | readSessionID len hn =>
    obtain ⟨htaken, hlen, rest, hrest⟩ := h
    rw [Conn.unread, htaken] at hn ⊢
    have hlen' : ((c.sent.drop 5).take len).length = len := by simpa using hn
    have hdrop : c.sent.drop 5 = rest := by rw [← hrest]; rfl
    refine ⟨⟨hlen'.trans_le hlen, ?_⟩, rfl⟩
    rw [message, hlen', hdrop, ← hrest]
    exact (List.prefix_append_right_inj _).2 (List.take_prefix len rest)
  | headerFails | sessionIDFails | sendError | close => exact ⟨trivial, rfl⟩

/-! ### Events -/

namespace Server

variable {κ : Type} [DecidableEq κ]

/-- What each event needs and does. -/
inductive Happens (s : Server κ) : Event κ → Server κ → Prop
  | accept {c : κ} (hc : s.phase c = .absent) : Happens s (.accept c) (s.set c .header {})
  | send {c : κ} {data : Bytes} (hc : s.phase c ≠ .absent) :
      Happens s (.send c data)
        (s.set c (s.phase c) { s.conn c with sent := (s.conn c).sent ++ data })
  | leave {c : κ} : Happens s (.leave c) (s.set c (s.phase c) { s.conn c with gone := true })
  | handler {c : κ} {e : HandlerEvent} {phase : Phase κ} {conn : Conn}
      (hm : HandlerMove (s.conn c) (s.phase c) phase conn) :
      Happens s (.handler c e) (s.set c phase conn)
  | wait {c : κ} {id : Bytes} (hc : s.phase c = .lookup id) (hnone : s.waiting.lookup id = none) :
      Happens s (.lookup c)
        ({ s with waiting := s.waiting.insert id c }.set c (.waiting id) (s.conn c))
  | pair {c a : κ} {id : Bytes} (hc : s.phase c = .lookup id) (ha : s.waiting.lookup id = some a) :
      Happens s (.lookup c) ({ s with
        waiting := s.waiting.erase id
        sessions := s.sessions.insert id c }.set c (.session { id := id, peerA := a }) (s.conn c))
  | fire {c : κ} {id : Bytes} (hc : s.phase c = .waiting id) :
      Happens s (.fire c) (s.set c (.fired id) (s.conn c))
  | forget {c : κ} {id : Bytes} (hc : s.phase c = .fired id) :
      Happens s (.forget c) ({ s with waiting := s.waiting.erase id }.set c
        (.refusing (errorMsg "timeout waiting for peer")) (s.conn c))
  | quit {c : κ} {id : Bytes} (hc : s.phase c = .waiting id) (hdone : s.done = true) :
      Happens s (.quit c) (s.set c .leaving (s.conn c))
  | session {c : κ} {e : SessionEvent} {ses ses' : Session κ} {connA connB : Conn}
      (hc : s.phase c = .session ses)
      (hm : SessionMove ses (s.conn ses.peerA) (s.conn c) ses' connA connB) :
      Happens s (.session c e) (s.setSession c ses' connA connB)
  | removeSession {c : κ} {ses : Session κ} (hc : s.phase c = .session ses)
      (hst : ses.stage = .removing) :
      Happens s (.removeSession c) ({ s with sessions := s.sessions.erase ses.id }.setSession c
        { ses with stage := .closing } (s.conn ses.peerA) (s.conn c))
  | shutdown : Happens s .shutdown { s with done := true }
  | closeAll (hdone : s.done = true) : Happens s .closeAll
      { s with conn := fun c => if c ∈ s.closes then (s.conn c).close else s.conn c }

theorem happens_of_step {s s' : Server κ} {e : Event κ} (hs : s.step e = some s') :
    Happens s e s' := by
  cases e with
  | accept c =>
    obtain ⟨⟨hc, -⟩, ⟨⟩⟩ := Option.ite_none_right_eq_some.1 hs
    exact .accept hc
  | send c data =>
    obtain ⟨⟨hc, -⟩, ⟨⟩⟩ := Option.ite_none_right_eq_some.1 hs
    exact .send hc
  | leave c =>
    obtain ⟨-, ⟨⟩⟩ := Option.ite_none_right_eq_some.1 hs
    exact .leave
  | handler c e =>
    obtain ⟨⟨phase, conn⟩, hstep, rfl⟩ := Option.map_eq_some_iff.1 hs
    exact .handler (handlerMove_of_step hstep)
  | lookup c =>
    simp only [step] at hs
    split at hs
    · next id hc =>
        obtain rfl := Option.some.inj hs
        cases ha : s.waiting.lookup id with
        | none =>
          rw [lookup_of_none ha]
          exact .wait hc ha
        | some a =>
          rw [lookup_of_some ha]
          exact .pair hc ha
    · cases hs
  | fire c =>
    simp only [step] at hs
    split at hs
    · next id hc =>
        obtain rfl := Option.some.inj hs
        exact .fire hc
    · cases hs
  | forget c =>
    simp only [step] at hs
    split at hs
    · next id hc =>
        obtain rfl := Option.some.inj hs
        exact .forget hc
    · cases hs
  | quit c =>
    simp only [step] at hs
    split at hs
    · next id hc =>
        obtain ⟨hdone, ⟨⟩⟩ := Option.ite_none_right_eq_some.1 hs
        exact .quit hc hdone
    · cases hs
  | session c e =>
    simp only [step] at hs
    split at hs
    · next ses hc =>
        obtain ⟨⟨ses', connA, connB⟩, hstep, rfl⟩ := Option.map_eq_some_iff.1 hs
        exact .session hc (sessionMove_of_step hstep)
    · cases hs
  | removeSession c =>
    obtain ⟨ses, hc, hst⟩ := removing_of_step hs
    obtain rfl := Option.some.inj ((step_removeSession hc hst).symm.trans hs)
    exact .removeSession hc hst
  | shutdown =>
    obtain rfl := Option.some.inj hs
    exact .shutdown
  | closeAll =>
    obtain ⟨hdone, ⟨⟩⟩ := Option.ite_none_right_eq_some.1 hs
    exact .closeAll hdone

/-- What an event can do to the server. -/
inductive Move (s : Server κ) : Server κ → Prop
  /-- A handler that runs no session goes on, and may remove an entry of the map. -/
  | handler {c : κ} {phase : Phase κ} {conn : Conn} {waiting : AList fun _ : Bytes => κ}
      (hold : ∀ ses, s.phase c ≠ .session ses) (hnew : ∀ ses, phase ≠ .session ses)
      (hearly : Early phase → Early (s.phase c))
      (hreq : Request (s.phase c) (s.conn c) → Request phase conn ∧ (s.conn c).sent <+: conn.sent)
      (hwait : ∀ id x, waiting.lookup id = some x → s.waiting.lookup id = some x) :
      Move s ({ s with waiting }.set c phase conn)
  /-- A session goes on, and may remove an entry of the map. -/
  | session {b : κ} {ses ses' : Session κ} {connA connB : Conn}
      {sessions : AList fun _ : Bytes => κ} (hb : s.phase b = .session ses)
      (hframe : ses.Frame (s.conn ses.peerA) (s.conn b) ses' connA connB) :
      Move s ({ s with sessions }.setSession b ses' connA connB)
  /-- A connection finds no other, and waits. -/
  | wait {c : κ} {id : Bytes} (hc : s.phase c = .lookup id) (hnone : s.waiting.lookup id = none) :
      Move s ({ s with waiting := s.waiting.insert id c }.set c (.waiting id) (s.conn c))
  /-- A connection is paired. -/
  | pair {c a : κ} {id : Bytes} (hc : s.phase c = .lookup id) (ha : s.waiting.lookup id = some a) :
      Move s ({ s with
        waiting := s.waiting.erase id
        sessions := s.sessions.insert id c }.set c (.session { id := id, peerA := a }) (s.conn c))
  /-- Peers send or leave, connections are closed, the server is shut down. -/
  | conns {conn : κ → Conn} {done : Bool}
      (hgrow : ∀ c, (s.conn c).sent <+: (conn c).sent ∧ (conn c).taken = (s.conn c).taken ∧
        (s.phase c = .absent → (conn c).sent = (s.conn c).sent)) : Move s { s with conn, done }

variable {s s' : Server κ}

/-- The handler of one connection goes on by itself. -/
theorem Move.set {c : κ} {phase : Phase κ} {conn : Conn} (hold : ∀ ses, s.phase c ≠ .session ses)
    (hnew : ∀ ses, phase ≠ .session ses) (hearly : Early phase → Early (s.phase c))
    (hreq : Request (s.phase c) (s.conn c) → Request phase conn ∧ (s.conn c).sent <+: conn.sent) :
    Move s (s.set c phase conn) := .handler hold hnew hearly hreq fun _ _ => id

/-- A connection changes, and no handler. -/
theorem Move.conn {c : κ} {conn : Conn} (hsent : (s.conn c).sent <+: conn.sent)
    (htaken : conn.taken = (s.conn c).taken)
    (habsent : s.phase c = .absent → conn.sent = (s.conn c).sent) :
    Move s (s.set c (s.phase c) conn) := by
  rw [Server.set, Function.update_eq_self]
  refine .conns fun x => ?_
  rcases eq_or_ne x c with rfl | hx
  · simpa using ⟨hsent, htaken, habsent⟩
  · simp [hx]

/-- Only a pairing makes a session, and nothing changes one. -/
theorem Move.pairing_cases (hm : Move s s') : s'.pairing = s.pairing ∨
    ∃ c a id, s.phase c = .lookup id ∧ s.waiting.lookup id = some a ∧
      s'.pairing = Function.update s.pairing c (some (id, a)) := by
  cases hm with
  | handler hold hnew _ _ _ => exact Or.inl (pairing_set hold hnew)
  | session hb hframe => exact Or.inl (pairing_setSession hb hframe.id hframe.peerA)
  | wait hc _ => exact Or.inl (pairing_set (by simp [hc]) (by simp))
  | @pair c a id hc ha => exact Or.inr ⟨c, a, id, hc, ha, pairing_set_session _ _⟩
  | conns _ => exact Or.inl rfl

/-- **What an event can do.** -/
theorem move_of_step {e : Event κ} (hs : s.step e = some s') : Move s s' := by
  cases happens_of_step hs with
  | accept hc =>
    refine .set (by simp [hc]) (by simp) (fun _ => by simp [hc, Early]) fun hreq => ⟨rfl, ?_⟩
    rw [hc] at hreq
    exact hreq ▸ List.prefix_rfl
  | send hc => exact .conn (List.prefix_append _ _) rfl fun habsent => (hc habsent).elim
  | leave => exact .conn List.prefix_rfl rfl fun _ => rfl
  | handler hm =>
    obtain ⟨hold, hnew, -, hearly⟩ := hm.frame
    refine .set hold hnew hearly fun hreq => ?_
    obtain ⟨hreq', hsent⟩ := hreq.handler hm
    exact ⟨hreq', hsent ▸ List.prefix_rfl⟩
  | wait hc ha => exact .wait hc ha
  | pair hc ha => exact .pair hc ha
  | fire hc =>
    refine .set (by simp [hc]) (by simp) False.elim fun hreq => ⟨?_, List.prefix_rfl⟩
    rwa [hc] at hreq
  | forget hc =>
    refine .handler (by simp [hc]) (by simp) False.elim (fun _ => ⟨trivial, List.prefix_rfl⟩)
      fun id' x hx => ?_
    exact (lookup_erase_eq_some.1 hx).2
  | quit hc =>
    exact .set (by simp [hc]) (by simp) False.elim fun _ => ⟨trivial, List.prefix_rfl⟩
  | session hc hm => exact .session hc hm.frame
  | removeSession hc hst => exact .session hc ⟨rfl, rfl, rfl, rfl⟩
  | shutdown => exact .conns fun _ => ⟨List.prefix_rfl, rfl, fun _ => rfl⟩
  | closeAll hdone =>
    refine .conns fun c => ?_
    split <;> exact ⟨List.prefix_rfl, rfl, fun _ => rfl⟩

end Server

end FileSync.Relay
