import FileSync.Nat.Moves

/-!
# Nat — transparency of the relay

A session is to be transparent: after both peers have been acknowledged, what is written to each is
what the other has sent, and neither connection is closed while both peers are there.

The handler of a connection that waits is not told when the connection is paired: its timer goes on,
and when it expires the handler writes an error to the connection and closes it
(`timer_breaks_session`).  This is all that can go wrong:

* `SessionInv` is what holds of a session and its two connections, and its events keep it
  (`SessionInv.move`).
* `Server.Inv` is what holds of all connections, their handlers and the map of those that wait, and
  `Server.Timely s e` says that `e` is no timer of an open session, no pairing with a connection
  whose timer has expired, and not the end of the server; such events keep it (`inv_step`).
* `transparent_of_timely`: in every run of timely events every session is transparent.
-/

open Transition

namespace FileSync.Relay

/-! ### The two directions of a session -/

/-- How many bytes a connect request has. -/
def requestLength (sessionID : Bytes) : ℕ := 5 + sessionID.length

/-- What a goroutine has read and not written. -/
def Copier.held : Copier → Bytes
  | .reading => []
  | .writing buf => buf
  | .ended => []

/-- One direction of a session: `taken` bytes of what was `sent` have been read, and after the
acknowledgement the same bytes have been `written`, but for those that the goroutine holds. -/
def Flow (sessionID : Bytes) (ack : Ack) (copier : Copier) (sent : Bytes) (taken : ℕ)
    (written : Bytes) : Prop :=
  match ack with
  | .due => written = [] ∧ taken = requestLength sessionID ∧ copier = .reading
  | .written => ∃ p, written = connectAck sessionID ++ p ∧
      p ++ copier.held <+: sent.drop (requestLength sessionID) ∧
      (copier ≠ .ended → taken = requestLength sessionID + (p ++ copier.held).length)
  | .failed => True

theorem Flow.grows {sessionID : Bytes} {ack : Ack} {copier : Copier} {sent sent' : Bytes}
    {taken : ℕ} {written : Bytes} (h : Flow sessionID ack copier sent taken written)
    (hsent : sent <+: sent') :
    Flow sessionID ack copier sent' taken written := by
  cases ack with
  | due => exact h
  | written =>
    obtain ⟨p, hw, hpre, htaken⟩ := h
    exact ⟨p, hw, hpre.trans (List.IsPrefix.drop hsent _), htaken⟩
  | failed => trivial

/-- The acknowledgement. -/
theorem Flow.ack {sessionID : Bytes} {copier : Copier} {src dst dst' : Conn} {out : Outcome}
    (h : Flow sessionID .due copier src.sent src.taken dst.written)
    (hw : dst.write (connectAck sessionID) out = some dst') :
    Flow sessionID out.ack copier src.sent src.taken dst'.written := by
  obtain ⟨hempty, htaken, rfl⟩ := h
  cases out with
  | fails n => trivial
  | ok =>
    simp only [Conn.write] at hw
    split at hw
    · cases hw
    · obtain rfl := Option.some.inj hw
      exact ⟨[], by simp [hempty], List.nil_prefix, fun _ => htaken⟩

/-- Of a connection that is open and has no deadline a call fails only if the peer is gone. -/
theorem Conn.gone_of_canFail {c : Conn} (hopen : c.closed = false) (hquiet : c.deadline = false)
    (h : c.canFail = true) : c.gone = true := by
  simpa [Conn.canFail, hopen, hquiet] using h

/-- A round of a goroutine keeps the flow. -/
theorem Flow.round {sessionID : Bytes} {ack : Ack} {copier copier' : Copier}
    {src dst src' dst' : Conn} (h : Flow sessionID ack copier src.sent src.taken dst.written)
    (hack : ack ≠ .due) (hr : Round src dst copier copier' src' dst') :
    Flow sessionID ack copier' src'.sent src'.taken dst'.written := by
  cases ack with
  | due => exact (hack rfl).elim
  | failed => trivial
  | written =>
    obtain ⟨p, hw, hpre, htaken⟩ := h
    cases hr with
    | read n hn =>
      rw [Copier.held, List.append_nil] at hpre htaken
      have ht := htaken (by simp)
      refine ⟨p, hw, ?_, fun _ => ?_⟩
      · -- What is read next follows what was written.
        obtain ⟨rest, hrest⟩ := hpre
        have hunread : src.unread = rest := by
          rw [Conn.unread, ht, ← List.drop_drop, ← hrest, List.drop_left]
        rw [Copier.held, hunread, ← hrest]
        exact List.prefix_append_right_inj p |>.2 (List.take_prefix n rest)
      · simp only [Copier.held, List.length_append, List.length_take, min_eq_left hn]
        omega
    | readFails _ => exact ⟨p, hw, hpre, fun h => (h rfl).elim⟩
    | write buf =>
      refine ⟨p ++ buf, by simp [hw], by simpa [Copier.held] using hpre, fun _ => ?_⟩
      simpa [Copier.held] using htaken (by simp)
    | writeFails buf n _ =>
      refine ⟨p ++ buf.take n, by simp [hw], ?_, fun h => (h rfl).elim⟩
      rw [Copier.held, List.append_nil]
      exact ((List.prefix_append_right_inj p).2 (List.take_prefix n buf)).trans hpre

/-! ### A session -/

/-- What the peer of a connection does to it: it sends more, or leaves. -/
structure Grows (c c' : Conn) : Prop where
  sent : c.sent <+: c'.sent
  taken : c'.taken = c.taken
  written : c'.written = c.written
  closed : c'.closed = c.closed
  deadline : c'.deadline = c.deadline
  gone : c.gone = true → c'.gone = true

theorem Grows.refl (c : Conn) : Grows c c := ⟨List.prefix_rfl, rfl, rfl, rfl, rfl, id⟩

/-- The acknowledgements are due in their stages. -/
def Acked (ackA ackB : Ack) : Stage → Prop
  | .ackA => ackA = .due ∧ ackB = .due
  | .ackB => ackA ≠ .due ∧ ackB = .due
  | .clearing | .relaying | .removing | .closing | .over => ackA ≠ .due ∧ ackB ≠ .due

/-- What holds of a session and the connections of its two peers. -/
structure SessionInv {κ : Type} (ses : Session κ) (a b : Conn) : Prop where
  toA : Flow ses.id ses.ackA ses.toA b.sent b.taken a.written
  toB : Flow ses.id ses.ackB ses.toB a.sent a.taken b.written
  acked : Acked ses.ackA ses.ackB ses.stage
  opened : ses.stage ≠ .over → a.closed = false ∧ b.closed = false
  quiet : ses.stage = .relaying → a.deadline = false ∧ b.deadline = false
  ended : ses.toA = .ended ∨ ses.toB = .ended → a.gone = true ∨ b.gone = true
  last : ses.stage = .removing ∨ ses.stage = .closing ∨ ses.stage = .over → ses.toA = .ended

namespace SessionInv

variable {κ : Type} {ses ses' : Session κ} {a b a' b' : Conn}

/-- While the session relays, only a peer that has left makes a read or a write fail. -/
theorem gone_of_canFail (h : SessionInv ses a b) (hst : ses.stage = .relaying)
    (hfail : a.canFail = true ∨ b.canFail = true) : a.gone = true ∨ b.gone = true := by
  obtain ⟨ha, hb⟩ := h.opened (by simp [hst])
  obtain ⟨hqa, hqb⟩ := h.quiet hst
  exact hfail.imp (Conn.gone_of_canFail ha hqa) (Conn.gone_of_canFail hb hqb)

/-- **A session keeps its invariant.** -/
theorem move (h : SessionInv ses a b) (hm : SessionMove ses a b ses' a' b') :
    SessionInv ses' a' b' := by
  have hack := h.acked
  cases hm with
  | @ackA out a' hst hw =>
    rw [hst] at hack
    have hflow := Flow.ack (hack.1 ▸ h.toA) hw
    obtain ⟨⟨d, rfl⟩, -⟩ := Conn.write_eq hw
    refine ⟨hflow, h.toB, ⟨?_, hack.2⟩, fun _ => h.opened (by simp [hst]), nofun, h.ended, ?_⟩
    · cases out <;> simp [Outcome.ack]
    · simp
  | @ackB out b' hst hw =>
    rw [hst] at hack
    have hflow := Flow.ack (hack.2 ▸ h.toB) hw
    obtain ⟨⟨d, rfl⟩, -⟩ := Conn.write_eq hw
    refine ⟨h.toA, hflow, ⟨hack.1, ?_⟩, fun _ => h.opened (by simp [hst]), nofun, h.ended, ?_⟩
    · cases out <;> simp [Outcome.ack]
    · simp
  | clear hst =>
    rw [hst] at hack
    exact ⟨h.toA, h.toB, hack, fun _ => h.opened (by simp [hst]), fun _ => ⟨rfl, rfl⟩, h.ended,
      by simp⟩
  | toB hst hround =>
    rw [hst] at hack
    have hflow := h.toB.round hack.2 hround
    obtain ⟨⟨n, rfl⟩, ⟨d, rfl⟩, hend⟩ := hround.frame
    refine ⟨h.toA, hflow, h.acked, h.opened, h.quiet, ?_, h.last⟩
    rintro (he | he)
    · exact h.ended (.inl he)
    · exact h.gone_of_canFail hst (hend he)
  | toA hst hround =>
    rw [hst] at hack
    have hflow := h.toA.round hack.1 hround
    obtain ⟨⟨n, rfl⟩, ⟨d, rfl⟩, hend⟩ := hround.frame
    refine ⟨hflow, h.toB, h.acked, h.opened, h.quiet, ?_, ?_⟩
    · rintro (he | he)
      · exact h.gone_of_canFail hst (hend he).symm
      · exact h.ended (.inr he)
    · simp [hst]
  | wait hst hA hB =>
    rw [hst] at hack
    exact ⟨h.toA, h.toB, hack, fun _ => h.opened (by simp [hst]), nofun, h.ended, fun _ => hA⟩
  | close hst =>
    rw [hst] at hack
    exact ⟨h.toA, h.toB, hack, fun hne => absurd rfl hne, nofun, h.ended,
      fun _ => h.last (by simp [hst])⟩

theorem grows (h : SessionInv ses a b) (ha : Grows a a') (hb : Grows b b') :
    SessionInv ses a' b' := by
  obtain ⟨hsa, hta, hwa, hca, hda, hga⟩ := ha
  obtain ⟨hsb, htb, hwb, hcb, hdb, hgb⟩ := hb
  refine ⟨?_, ?_, h.acked, ?_, ?_, fun he => (h.ended he).imp hga hgb, h.last⟩
  · rw [htb, hwa]
    exact h.toA.grows hsb
  · rw [hta, hwb]
    exact h.toB.grows hsa
  · rw [hca, hcb]
    exact h.opened
  · rw [hda, hdb]
    exact h.quiet

/-- The session leaves the map. -/
theorem remove (h : SessionInv ses a b) (hst : ses.stage = .removing) :
    SessionInv { ses with stage := .closing } a b := by
  have hack := h.acked
  rw [hst] at hack
  exact ⟨h.toA, h.toB, hack, fun _ => h.opened (by simp [hst]), nofun, h.ended,
    fun _ => h.last (Or.inl hst)⟩

end SessionInv

/-! ### The server -/

/-- The handler has stopped waiting. -/
def Past {κ : Type} : Phase κ → Prop
  | .fired _ | .refusing _ | .leaving | .returned => True
  | _ => False

theorem Early.not_past {κ : Type} {phase : Phase κ} (h : Early phase) : ¬ Past phase := by
  cases phase with
  | absent | header | sessionID | lookup => exact not_false
  | waiting | fired | refusing | leaving | returned | session => exact h.elim

/-- What holds of a connection that is in no session. -/
def Fresh {κ : Type} (phase : Phase κ) (c : Conn) : Prop :=
  match phase with
  | .header => c.taken = 0 ∧ c.written = [] ∧ c.closed = false
  | .sessionID _ => c.taken = 5 ∧ c.written = [] ∧ c.closed = false
  | .lookup sessionID | .waiting sessionID =>
    c.taken = requestLength sessionID ∧ c.written = [] ∧ c.closed = false
  | _ => True

namespace Server

variable {κ : Type} [DecidableEq κ] {s s' : Server κ} {c : κ}

/-- What holds in every run of timely events. -/
structure Inv (s : Server κ) : Prop where
  running : s.done = false
  fresh : ∀ c, ¬ s.Paired c → Fresh (s.phase c) (s.conn c)
  registered : ∀ id c, s.waiting.lookup id = some c →
    (s.phase c = .waiting id ∨ s.phase c = .fired id) ∧ ¬ s.Paired c
  session : ∀ b ses, s.phase b = .session ses → SessionInv ses (s.conn ses.peerA) (s.conn b)
  peer : ∀ b ses, s.phase b = .session ses → s.phase ses.peerA = .waiting ses.id ∨
    (s.conn ses.peerA).closed = true ∧ Past (s.phase ses.peerA)
  unique : ∀ b b' ses ses', s.phase b = .session ses → s.phase b' = .session ses' →
    ses.peerA = ses'.peerA → b = b'

theorem inv_start : Inv (start : Server κ) where
  running := rfl
  fresh _ _ := trivial
  registered id c h := by simp [start] at h
  session b ses h := nomatch h
  peer b ses h := nomatch h
  unique b b' ses ses' h := nomatch h

namespace Inv

theorem phase_of_paired (h : Inv s) (hc : s.Paired c) :
    (∃ id, s.phase c = .waiting id) ∨ (s.conn c).closed = true ∧ Past (s.phase c) := by
  obtain ⟨b, ses, hb, rfl⟩ := hc
  exact (h.peer b ses hb).imp_left fun hw => ⟨ses.id, hw⟩

theorem not_paired (h : Inv s) (he : Early (s.phase c)) : ¬ s.Paired c := by
  intro hp
  rcases h.phase_of_paired hp with ⟨id, hw⟩ | ⟨-, hpast⟩
  · rw [hw] at he
    exact he
  · exact he.not_past hpast

theorem not_registered (h : Inv s) (hwait : ∀ id, s.phase c ≠ .waiting id)
    (hfired : ∀ id, s.phase c ≠ .fired id) (id : Bytes) : s.waiting.lookup id ≠ some c := by
  intro hid
  rcases (h.registered id c hid).1 with hw | hf
  · exact hwait id hw
  · exact hfired id hf

/-- The handler of a `PeerA` runs no session. -/
theorem peer_ne_session (h : Inv s) {b : κ} {ses ses' : Session κ} (hb : s.phase b = .session ses) :
    s.phase ses.peerA ≠ .session ses' := by
  intro hs
  rcases h.peer b ses hb with hw | ⟨-, hp⟩
  · exact nomatch hs.symm.trans hw
  · rw [hs] at hp
    exact hp

theorem peerA_ne (h : Inv s) {b : κ} {ses : Session κ} (hb : s.phase b = .session ses) :
    ses.peerA ≠ b := fun heq => h.peer_ne_session hb (heq ▸ hb)

theorem withSessions (h : Inv s) (m : AList fun _ : Bytes => κ) : Inv { s with sessions := m } :=
  ⟨h.running, h.fresh, h.registered, h.session, h.peer, h.unique⟩

/-- Entries of the map of waiting connections may go. -/
theorem withWaiting (h : Inv s) {m : AList fun _ : Bytes => κ}
    (hm : ∀ id c, m.lookup id = some c → s.waiting.lookup id = some c) :
    Inv { s with waiting := m } :=
  ⟨h.running, h.fresh, fun id c hc => h.registered id c (hm id c hc), h.session, h.peer, h.unique⟩

theorem grows (h : Inv s) {conn : κ → Conn} (hg : ∀ c, Grows (s.conn c) (conn c)) :
    Inv { s with conn := conn } := by
  refine ⟨h.running, fun c hc => ?_, h.registered,
    fun b ses hb => (h.session b ses hb).grows (hg _) (hg _), fun b ses hb => ?_, h.unique⟩
  · have hf := h.fresh c hc
    unfold Fresh at hf ⊢
    rw [(hg c).taken, (hg c).written, (hg c).closed]
    exact hf
  · rw [(hg ses.peerA).closed]
    exact h.peer b ses hb

/-- A handler that runs no session moves on.  If its connection is in a session, it leaves it as it
is. -/
theorem set (h : Inv s) {phase : Phase κ} {conn : Conn} (hses : ∀ ses, s.phase c ≠ .session ses)
    (hses' : ∀ ses, phase ≠ .session ses)
    (hreg : ∀ id, s.waiting.lookup id = some c → phase = .waiting id ∨ phase = .fired id)
    (hfree : ¬ s.Paired c → Fresh phase conn)
    (hpaired : s.Paired c → conn = s.conn c ∧ (s.conn c).closed = true ∧ Past phase) :
    Inv (s.set c phase conn) := by
  have hphase (x : κ) (ses : Session κ) :
      (s.set c phase conn).phase x = .session ses ↔ s.phase x = .session ses := by
    rcases eq_or_ne x c with rfl | hx
    · simp [hses, hses']
    · rw [phase_set_of_ne hx]
  have hpair (x : κ) : (s.set c phase conn).Paired x ↔ s.Paired x :=
    paired_congr (pairing_set hses hses')
  have hconn (x : κ) (hx : s.Paired x) : (s.set c phase conn).conn x = s.conn x := by
    rcases eq_or_ne x c with rfl | hne
    · rw [conn_set_self, (hpaired hx).1]
    · exact conn_set_of_ne hne phase conn
  refine ⟨h.running, fun x hx => ?_, fun id x hx => ?_, fun b ses hb => ?_, fun b ses hb => ?_,
    fun b b' ses ses' hb hb' =>
      h.unique b b' ses ses' ((hphase b ses).1 hb) ((hphase b' ses').1 hb')⟩
  · rw [hpair] at hx
    rcases eq_or_ne x c with rfl | hne
    · rw [phase_set_self, conn_set_self]
      exact hfree hx
    · rw [phase_set_of_ne hne, conn_set_of_ne hne]
      exact h.fresh x hx
  · rw [hpair]
    refine ⟨?_, (h.registered id x hx).2⟩
    rcases eq_or_ne x c with rfl | hne
    · rw [phase_set_self]
      exact hreg id hx
    · rw [phase_set_of_ne hne]
      exact (h.registered id x hx).1
  · rw [hphase] at hb
    have hbc : b ≠ c := fun heq => hses ses (heq ▸ hb)
    rw [hconn _ ⟨b, ses, hb, rfl⟩, conn_set_of_ne hbc]
    exact h.session b ses hb
  · rw [hphase] at hb
    rw [hconn _ ⟨b, ses, hb, rfl⟩]
    rcases eq_or_ne ses.peerA c with heq | hne
    · obtain ⟨-, hclosed, hpast⟩ := hpaired ⟨b, ses, hb, heq⟩
      rw [heq, phase_set_self]
      exact .inr ⟨hclosed, hpast⟩
    · rw [phase_set_of_ne hne]
      exact h.peer b ses hb

/-- A session moves on. -/
theorem setSession (h : Inv s) {b : κ} {ses ses' : Session κ} {connA connB : Conn}
    (hb : s.phase b = .session ses) (hid : ses'.id = ses.id) (hpeer : ses'.peerA = ses.peerA)
    (hinv : SessionInv ses' connA connB)
    (hclosed : (s.conn ses.peerA).closed = true → connA.closed = true) :
    Inv (s.setSession b ses' connA connB) := by
  have hne : ses.peerA ≠ b := h.peerA_ne hb
  have hconnA : (s.setSession b ses' connA connB).conn ses.peerA = connA :=
    hpeer ▸ conn_setSession_peerA (hpeer ▸ hne)
  have hconn {x : κ} (hx : x ≠ b) (hx' : x ≠ ses.peerA) :
      (s.setSession b ses' connA connB).conn x = s.conn x :=
    conn_setSession_of_ne hx (hpeer ▸ hx')
  have hpairing : (s.setSession b ses' connA connB).pairing = s.pairing :=
    pairing_setSession hb hid hpeer
  have hpair (x : κ) : (s.setSession b ses' connA connB).Paired x ↔ s.Paired x :=
    paired_congr hpairing
  -- A session of the new state is one of the old state, up to what `ses'` changed.
  have hold (x : κ) (t : Session κ) (ht : (s.setSession b ses' connA connB).phase x = .session t) :
      ∃ t', s.phase x = .session t' ∧ t'.peerA = t.peerA := by
    obtain ⟨t', ht', -, hp⟩ := pairing_eq_some.1 (hpairing ▸ pairing_of_session ht)
    exact ⟨t', ht', hp⟩
  refine ⟨h.running, fun x hx => ?_, fun id x hx => ?_, fun x t ht => ?_, fun x t ht => ?_,
    fun x x' t t' ht ht' heq => ?_⟩
  · rw [hpair] at hx
    rcases eq_or_ne x b with rfl | hxb
    · rw [phase_setSession_self]
      trivial
    · have hxA : x ≠ ses.peerA := fun heq => hx ⟨b, ses, hb, heq.symm⟩
      rw [phase_setSession_of_ne hxb, hconn hxb hxA]
      exact h.fresh x hx
  · obtain ⟨hw, hfree⟩ := h.registered id x hx
    refine ⟨?_, mt (hpair x).1 hfree⟩
    rw [phase_setSession_of_ne fun heq => by simp [heq, hb] at hw]
    exact hw
  · rcases eq_or_ne x b with rfl | hxb
    · obtain rfl : ses' = t := Phase.session.inj (phase_setSession_self.symm.trans ht)
      rw [hpeer, hconnA, conn_setSession_self]
      exact hinv
    · rw [phase_setSession_of_ne hxb] at ht
      rw [hconn hxb fun heq => h.peer_ne_session hb (heq ▸ ht),
        hconn (fun heq => h.peer_ne_session ht (heq ▸ hb))
          fun heq => hxb (h.unique x b t ses ht hb heq)]
      exact h.session x t ht
  · rcases eq_or_ne x b with rfl | hxb
    · obtain rfl : ses' = t := Phase.session.inj (phase_setSession_self.symm.trans ht)
      rw [hpeer, hid, hconnA, phase_setSession_of_ne hne]
      exact (h.peer x ses hb).imp_right fun ⟨hc, hp⟩ => ⟨hclosed hc, hp⟩
    · rw [phase_setSession_of_ne hxb] at ht
      have htb : t.peerA ≠ b := fun heq => h.peer_ne_session ht (heq ▸ hb)
      rw [phase_setSession_of_ne htb, hconn htb fun heq => hxb (h.unique x b t ses ht hb heq)]
      exact h.peer x t ht
  · obtain ⟨u, hu, hut⟩ := hold x t ht
    obtain ⟨u', hu', hut'⟩ := hold x' t' ht'
    exact h.unique x x' u u' hu hu' (hut.trans (heq.trans hut'.symm))

/-- A handler that has not looked for a session moves on. -/
theorem set_early (h : Inv s) {phase : Phase κ} {conn : Conn} (he : Early (s.phase c))
    (hses : ∀ ses, phase ≠ .session ses) (hfresh : Fresh phase conn) :
    Inv (s.set c phase conn) := by
  refine h.set (fun ses hc => ?_) hses (fun id hid => (h.not_registered ?_ ?_ id hid).elim)
    (fun _ => hfresh) fun hp => (h.not_paired he hp).elim
  · rw [hc] at he
    exact he
  all_goals
    intro id hc
    rw [hc] at he
    exact he

/-- A handler on its way out moves on; what it does to a closed connection has no effect. -/
theorem set_late (h : Inv s) {phase : Phase κ} {conn : Conn}
    (hc : (∃ msg, s.phase c = .refusing msg) ∨ s.phase c = .leaving)
    (hphase : phase = .leaving ∨ phase = .returned)
    (hconn : (s.conn c).closed = true → conn = s.conn c) : Inv (s.set c phase conn) := by
  have hne (p : Phase κ) (hp : s.phase c = p) : (∃ msg, p = .refusing msg) ∨ p = .leaving := hp ▸ hc
  have hpast : Past phase := by rcases hphase with rfl | rfl <;> trivial
  refine h.set (fun ses hp => by simpa using hne _ hp) (fun ses hp => by simp [hp] at hphase)
    (fun id hid => (h.not_registered (fun id hp => by simpa using hne _ hp)
      (fun id hp => by simpa using hne _ hp) id hid).elim) (fun _ => ?_) fun hp => ?_
  · rcases hphase with rfl | rfl <;> trivial
  · rcases h.phase_of_paired hp with ⟨id, hw⟩ | ⟨hclosed, -⟩
    · simpa using hne _ hw
    · exact ⟨hconn hclosed, hclosed, hpast⟩

/-- The first connection that asks for a session waits. -/
theorem wait (h : Inv s) {id : Bytes} (hc : s.phase c = .lookup id) :
    Inv ({ s with waiting := s.waiting.insert id c }.set c (.waiting id) (s.conn c)) := by
  have hearly : Early (s.phase c) := by simp [hc, Early]
  have hset : Inv (s.set c (.waiting id) (s.conn c)) := by
    refine h.set_early hearly (by simp) ?_
    have hf := h.fresh c (h.not_paired hearly)
    rwa [hc] at hf
  have hpair : (s.set c (.waiting id) (s.conn c)).Paired c ↔ s.Paired c :=
    paired_congr (pairing_set (by simp [hc]) (by simp))
  refine ⟨hset.running, hset.fresh, fun id' x hx => ?_, hset.session, hset.peer, hset.unique⟩
  rcases lookup_insert_eq_some.1 hx with ⟨rfl, rfl⟩ | ⟨-, hx⟩
  · exact ⟨.inl (phase_set_self _ _), mt hpair.1 (h.not_paired hearly)⟩
  · exact hset.registered id' x hx

/-- The second one is paired with it. -/
theorem pair (h : Inv s) {id : Bytes} {a : κ} (hc : s.phase c = .lookup id)
    (ha : s.waiting.lookup id = some a) (hwait : s.phase a = .waiting id) :
    Inv ({ s with waiting := s.waiting.erase id }.set c (.session { id := id, peerA := a })
      (s.conn c)) := by
  have hfreeA := (h.registered id a ha).2
  have hfreeC : ¬ s.Paired c := h.not_paired (by simp [hc, Early])
  have hac : a ≠ c := by
    rintro rfl
    cases hc.symm.trans hwait
  obtain ⟨htA, hwA, hoA⟩ : Fresh (.waiting id : Phase κ) (s.conn a) := hwait ▸ h.fresh a hfreeA
  obtain ⟨htC, hwC, hoC⟩ : Fresh (.lookup id : Phase κ) (s.conn c) := hc ▸ h.fresh c hfreeC
  set ses : Session κ := { id := id, peerA := a }
  set s' := { s with waiting := s.waiting.erase id }.set c (.session ses) (s.conn c) with hs'
  have hnew : SessionInv ses (s.conn a) (s.conn c) :=
    ⟨⟨hwA, htC, rfl⟩, ⟨hwC, htA, rfl⟩, ⟨rfl, rfl⟩, fun _ => ⟨hoA, hoC⟩, by simp [ses],
      by simp [ses], by simp [ses]⟩
  have hconn : s'.conn = s.conn := Function.update_eq_self c s.conn
  have hother {x : κ} (hx : x ≠ c) : s'.phase x = s.phase x := phase_set_of_ne hx _ _
  have hphase (x : κ) (t : Session κ) (ht : s'.phase x = .session t) :
      x = c ∧ t = ses ∨ x ≠ c ∧ s.phase x = .session t := by
    rcases eq_or_ne x c with rfl | hx
    · exact .inl ⟨rfl, Phase.session.inj (ht.symm.trans (phase_set_self _ _))⟩
    · exact .inr ⟨hx, hother hx ▸ ht⟩
  have hold (x : κ) (hx : s.Paired x) : s'.Paired x := by
    obtain ⟨b, t, hb, rfl⟩ := hx
    have hbc : b ≠ c := by
      rintro rfl
      cases hc.symm.trans hb
    exact ⟨b, t, (hother hbc).trans hb, rfl⟩
  refine ⟨h.running, fun x hx => ?_, fun id' x hx => ?_, fun x t ht => ?_, fun x t ht => ?_,
    fun x x' t t' ht ht' heq => ?_⟩
  · rcases eq_or_ne x c with rfl | hxc
    · rw [hs', phase_set_self]
      trivial
    · rw [hconn, hother hxc]
      exact h.fresh x (mt (hold x) hx)
  · obtain ⟨hid, hx⟩ := lookup_erase_eq_some.1 hx
    obtain ⟨hw, hfree⟩ := h.registered id' x hx
    have hxc : x ≠ c := by
      rintro rfl
      simp [hc] at hw
    refine ⟨(hother hxc).symm ▸ hw, fun hpaired => ?_⟩
    obtain ⟨b, t, hb, hbx⟩ := hpaired
    rcases hphase b t hb with ⟨-, rfl⟩ | ⟨-, hb⟩
    · obtain rfl : a = x := hbx
      simp [hwait, hid.symm] at hw
    · exact hfree ⟨b, t, hb, hbx⟩
  · rw [hconn]
    rcases hphase x t ht with ⟨rfl, rfl⟩ | ⟨-, ht⟩
    · exact hnew
    · exact h.session x t ht
  · rw [hconn]
    rcases hphase x t ht with ⟨rfl, rfl⟩ | ⟨-, ht⟩
    · exact .inl ((hother hac).trans hwait)
    · have htc : t.peerA ≠ c := fun heq => hfreeC ⟨x, t, ht, heq⟩
      rw [hother htc]
      exact h.peer x t ht
  · rcases hphase x t ht with ⟨hx, rfl⟩ | ⟨-, hxt⟩ <;>
      rcases hphase x' t' ht' with ⟨hx', rfl⟩ | ⟨-, hxt'⟩
    · exact hx.trans hx'.symm
    · exact (hfreeA ⟨x', t', hxt', heq.symm⟩).elim
    · exact (hfreeA ⟨x, t, hxt, heq⟩).elim
    · exact h.unique x x' t t' hxt hxt' heq

/-- What a handler does by itself. -/
theorem handler (h : Inv s) {phase : Phase κ} {conn : Conn}
    (hm : HandlerMove (s.conn c) (s.phase c) phase conn) : Inv (s.set c phase conn) := by
  generalize hp : s.phase c = p at hm
  have hfresh (he : Early p) : Fresh p (s.conn c) := hp ▸ h.fresh c (h.not_paired (hp ▸ he))
  cases hm with
  | readHeader hn =>
    obtain ⟨htaken, hrest⟩ := hfresh trivial
    rcases checkHeader_cases κ ((s.conn c).unread.take 5) with ⟨msg, hck⟩ | ⟨len, hck⟩ <;>
      rw [hck]
    · exact h.set_early (by simp [hp, Early]) (by simp) trivial
    · exact h.set_early (by simp [hp, Early]) (by simp) ⟨by simp [htaken], hrest⟩
  | readSessionID len hn =>
    obtain ⟨htaken, hrest⟩ := hfresh trivial
    exact h.set_early (by simp [hp, Early]) (by simp)
      ⟨by simp [requestLength, htaken, hn], hrest⟩
  | headerFails | sessionIDFails => exact h.set_early (by simp [hp, Early]) (by simp) trivial
  | sendError msg written hclosed =>
    refine h.set_late (Or.inl ⟨msg, hp⟩) (Or.inl rfl) fun hc => ?_
    rw [hclosed hc]
  | close =>
    exact h.set_late (Or.inr hp) (Or.inr rfl) fun hclosed => by simp [Conn.close, ← hclosed]

/-- A timer expires. -/
theorem fire (h : Inv s) {id : Bytes} (hc : s.phase c = .waiting id)
    (hclosed : s.Paired c → (s.conn c).closed = true) : Inv (s.set c (.fired id) (s.conn c)) := by
  refine h.set (by simp [hc]) (by simp) (fun id' hid => Or.inr ?_) (fun _ => trivial)
    fun hp => ⟨rfl, hclosed hp, trivial⟩
  rcases (h.registered id' c hid).1 with hw | hf
  · exact congrArg _ (Phase.waiting.inj (hc.symm.trans hw))
  · exact nomatch hc.symm.trans hf

/-- The handler whose timer has expired removes the entry of its session ID. -/
theorem forget (h : Inv s) {id msg : Bytes} (hc : s.phase c = .fired id) :
    Inv ({ s with waiting := s.waiting.erase id }.set c (.refusing msg) (s.conn c)) := by
  refine (h.withWaiting fun id' x hx => (lookup_erase_eq_some.1 hx).2).set (by simp [hc]) (by simp)
    (fun id' hid => ?_) (fun _ => trivial) fun hp => ⟨rfl, ?_, trivial⟩
  · obtain ⟨hne, hid⟩ := lookup_erase_eq_some.1 hid
    rcases (h.registered id' c hid).1 with hw | hf
    · exact nomatch hc.symm.trans hw
    · exact (hne (Phase.fired.inj (hf.symm.trans hc))).elim
  · rcases h.phase_of_paired hp with ⟨id', hw⟩ | ⟨hclosed, -⟩
    · exact nomatch hc.symm.trans hw
    · exact hclosed

/-- A peer sends more, or leaves. -/
theorem grow (h : Inv s) {conn : Conn} (hg : Grows (s.conn c) conn) :
    Inv (s.set c (s.phase c) conn) := by
  rw [Server.set, Function.update_eq_self]
  refine h.grows fun x => ?_
  rcases eq_or_ne x c with rfl | hx
  · simpa using hg
  · simpa [hx] using Grows.refl (s.conn x)

end Inv

/-- The event is not the timer of a connection in an open session, nor a pairing with a connection
whose timer has expired, nor the end of the server. -/
def Timely (s : Server κ) : Event κ → Prop
  | .fire c => s.Paired c → (s.conn c).closed = true
  | .lookup c => ∀ id a, s.phase c = .lookup id → s.waiting.lookup id = some a →
      s.phase a = .waiting id
  | .shutdown => False
  | _ => True

/-- **A timely event keeps the invariant.** -/
theorem inv_step {e : Event κ} (h : Inv s) (ht : s.Timely e) (hs : s.step e = some s') :
    Inv s' := by
  cases happens_of_step hs with
  | accept hc => exact h.set_early (by simp [hc, Early]) (by simp) ⟨rfl, rfl, rfl⟩
  | send hc => exact h.grow ⟨List.prefix_append _ _, rfl, rfl, rfl, rfl, id⟩
  | leave => exact h.grow ⟨List.prefix_rfl, rfl, rfl, rfl, rfl, fun _ => rfl⟩
  | handler hm => exact h.handler hm
  | wait hc ha => exact h.wait hc
  | pair hc ha => exact (h.pair hc ha (ht _ _ hc ha)).withSessions _
  | fire hc => exact h.fire hc ht
  | forget hc => exact h.forget hc
  | quit hc hdone => cases h.running.symm.trans hdone
  | session hc hm =>
    exact h.setSession hc hm.frame.id hm.frame.peerA ((h.session _ _ hc).move hm) hm.closed
  | removeSession hc hst =>
    exact (h.withSessions _).setSession hc rfl rfl ((h.session _ _ hc).remove hst) id
  | shutdown => exact ht.elim
  | closeAll hdone => cases h.running.symm.trans hdone

theorem inv_of_run {es : List (Event κ)} (h : Run step Timely start es s) : Inv s :=
  h.invariant (fun _ _ _ hinv ht hs => inv_step hinv ht hs) inv_start

/-! ### Transparency -/

/-- After both acknowledgements, each peer has been written a part of what the other has sent, from
its beginning, and no connection is closed before a peer is gone. -/
def Transparent (s : Server κ) : Prop :=
  ∀ b ses, s.phase b = .session ses → ses.ackA = .written → ses.ackB = .written →
    (∃ p, (s.conn ses.peerA).written = connectAck ses.id ++ p ∧
      p <+: (s.conn b).sent.drop (requestLength ses.id)) ∧
    (∃ p, (s.conn b).written = connectAck ses.id ++ p ∧
      p <+: (s.conn ses.peerA).sent.drop (requestLength ses.id)) ∧
    ((s.conn ses.peerA).closed = true ∨ (s.conn b).closed = true →
      (s.conn ses.peerA).gone = true ∨ (s.conn b).gone = true)

end Server

theorem Flow.relayed {sessionID sent written : Bytes} {copier : Copier} {taken : ℕ}
    (h : Flow sessionID .written copier sent taken written) :
    ∃ p, written = connectAck sessionID ++ p ∧ p <+: sent.drop (requestLength sessionID) := by
  obtain ⟨p, hw, hpre, -⟩ := h
  exact ⟨p, hw, (List.prefix_append _ _).trans hpre⟩

theorem SessionInv.gone {κ : Type} {ses : Session κ} {a b : Conn} (h : SessionInv ses a b)
    (hclosed : a.closed = true ∨ b.closed = true) : a.gone = true ∨ b.gone = true := by
  have hover : ses.stage = .over := by
    by_contra hne
    obtain ⟨ha, hb⟩ := h.opened hne
    simp [ha, hb] at hclosed
  exact h.ended (Or.inl (h.last (Or.inr (Or.inr hover))))

/-- **Transparency.**  In every run of timely events, every session is transparent. -/
theorem transparent_of_timely {κ : Type} [DecidableEq κ] {es : List (Event κ)} {s : Server κ}
    (h : Run Server.step Server.Timely Server.start es s) : s.Transparent := by
  intro b ses hb hackA hackB
  have hses := (Server.inv_of_run h).session b ses hb
  have hflowA := hses.toA
  have hflowB := hses.toB
  rw [hackA] at hflowA
  rw [hackB] at hflowB
  exact ⟨hflowA.relayed, hflowB.relayed, hses.gone⟩

/-- Two peers ask for the session `[9]` and are acknowledged. -/
def pairing : List (Event ℕ) :=
  asks 0 [9] ++ asks 1 [9] ++
    [.session 1 (.ack .ok), .session 1 (.ack .ok), .session 1 .clearDeadlines]

/-- A byte of the first peer reaches the second. -/
theorem transparent_of_timely_pairing :
    ∃ s, exec Server.step Server.start (pairing ++
        [.send 0 [7], .session 1 (.read .toB 1), .session 1 (.write .toB .ok)]) = some s ∧
      (s.conn 1).written = connectAck [9] ++ [7] ∧ s.Transparent := by
  have hrun : ∃ s, Run Server.step Server.Timely Server.start (pairing ++
        [.send 0 [7], .session 1 (.read .toB 1), .session 1 (.write .toB .ok)]) s ∧
      (s.conn 1).written = connectAck [9] ++ [7] := by
    refine ⟨_, .cons trivial rfl <| .cons trivial rfl <| .cons trivial rfl <| .cons trivial rfl <|
      .cons (fun id a _ ha => ?_) rfl <| .cons trivial rfl <| .cons trivial rfl <|
      .cons trivial rfl <| .cons trivial rfl <| .cons (fun id a hid ha => ?_) rfl <|
      .cons trivial rfl <| .cons trivial rfl <| .cons trivial rfl <| .cons trivial rfl <|
      .cons trivial rfl <| .cons trivial rfl <| .nil _, rfl⟩
    · cases ha
    · cases hid
      cases ha
      rfl
  obtain ⟨s, hrun, hs⟩ := hrun
  exact ⟨s, hrun.exec_eq, hs, transparent_of_timely hrun⟩

/-- The timer of the first peer expires in the session: the peer is sent an error in the stream of
the second, and cut off. -/
theorem timer_breaks_session :
    ∃ s, exec Server.step Server.start (pairing ++
        [.fire 0, .forget 0, .handler 0 (.sendError .ok), .handler 0 .close]) = some s ∧
      (s.conn 0).written = connectAck [9] ++ errorMsg "timeout waiting for peer" ∧
      (s.conn 0).closed = true ∧ (s.conn 0).gone = false ∧ (s.conn 1).gone = false ∧
      ¬ s.Transparent := by
  refine ⟨_, rfl, rfl, rfl, rfl, rfl, fun h => ?_⟩
  have hgone := (h 1 _ rfl rfl rfl).2.2 (Or.inl rfl)
  exact absurd hgone (by decide)

end FileSync.Relay
