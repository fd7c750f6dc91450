import FileSync.Nat.Pairing

/-!
# Nat — the maps of the relay

What the maps `waiting` and `sessions` are to say: an entry of `waiting` is there for exactly the
connections that wait unpaired, each is the one that the next request for its session is paired
with, an entry goes only when its own connection is paired or gives up, and a session that relays
has an entry in `sessions` (`Server.Registry`, `Server.Keeps`).

The handlers remove entries by their session ID alone.  A connection whose session was made long ago
still removes, when its timer expires, the entry of a later connection with the same ID
(`timeout_removes_other`); a session that ends removes the entry of a later session with the same
ID.  This is all that can go wrong:

* `Server.Undisturbed s e` says that `e` is no timeout while another connection waits for the ID,
  and no end of a session while another with the ID relays.
* `registry_iff`: a run in which the server is not shut down keeps the maps right if and only if all
  its events are undisturbed.
-/

open Transition

namespace FileSync.Relay

namespace Server

variable {κ : Type} [DecidableEq κ] {s s' : Server κ}

/-- The connection has asked for the session, is not paired and has not given up. -/
def Awaits (s : Server κ) (id : Bytes) (c : κ) : Prop :=
  Waits id (s.phase c) ∧ ¬ s.Paired c

structure Registry (s : Server κ) : Prop where
  waiting : ∀ id c, s.waiting.lookup id = some c ↔ s.Awaits id c
  next : ∀ id c b, s.Awaits id c → s.phase b = .lookup id →
    ∃ s', s.step (.lookup b) = some s' ∧ s'.pairing b = some (id, c)
  sessions : ∀ b ses, s.phase b = .session ses → ses.stage.Relaying →
    ∃ b', s.sessions.lookup ses.id = some b'

/-- An entry of `waiting` goes only when its connection gives up or is paired. -/
def Keeps (s : Server κ) (e : Event κ) : Prop :=
  ∀ s' id c, s.step e = some s' → s.waiting.lookup id = some c → s'.waiting.lookup id ≠ some c →
    e = .forget c ∨ ∃ b, e = .lookup b ∧ s'.pairing b = some (id, c)

/-- The event is no timeout while another connection waits for the session ID, and no end of a
session while another session with the ID relays. -/
def Undisturbed (s : Server κ) : Event κ → Prop
  | .forget c => ∀ id c', s.phase c = .fired id → s.Awaits id c' → c' = c
  | .removeSession c => ∀ ses b ses', s.phase c = .session ses → s.phase b = .session ses' →
      ses'.id = ses.id → ¬ ses'.stage.Relaying
  | _ => True

theorem registry_start : Registry (start : Server κ) where
  waiting id c := by simp [start, Awaits, Waits]
  next id c b h := by simp [start, Awaits, Waits] at h
  sessions b ses h := nomatch h

/-- The next request is paired with the connection in the map. -/
theorem Registry.of_waiting (hwait : ∀ id c, s.waiting.lookup id = some c ↔ s.Awaits id c)
    (hses : ∀ b ses, s.phase b = .session ses → ses.stage.Relaying →
      ∃ b', s.sessions.lookup ses.id = some b') : Registry s := by
  refine ⟨hwait, fun id c b hc hb => ?_, hses⟩
  refine ⟨s.lookup b id, by simp [step, hb], ?_⟩
  rw [lookup_of_some ((hwait id c).2 hc), pairing_set_session, Function.update_self]

/-- A change that no map and no waiting connection takes part in. -/
theorem Registry.of_same (h : Registry s) (hwait : s'.waiting = s.waiting)
    (hsessions : s'.sessions = s.sessions) (hawaits : ∀ id c, s'.Awaits id c ↔ s.Awaits id c)
    (hses : ∀ b ses, s'.phase b = .session ses → ses.stage.Relaying →
      ∃ ses', s.phase b = .session ses' ∧ ses'.id = ses.id ∧ ses'.stage.Relaying) :
    Registry s' := by
  refine .of_waiting (fun id c => ?_) fun b ses hb hrel => ?_
  · rw [hwait, hawaits, h.waiting]
  · obtain ⟨ses', hb', hid, hrel'⟩ := hses b ses hb hrel
    rw [hsessions, ← hid]
    exact h.sessions b ses' hb' hrel'

theorem session_of_update {f : κ → Phase κ} {b c : κ} {phase : Phase κ}
    {ses : Session κ} (hnew : ∀ ses, phase ≠ .session ses)
    (hb : Function.update f c phase b = .session ses) : f b = .session ses := by
  rcases eq_or_ne b c with rfl | hne
  · rw [Function.update_self] at hb
    exact (hnew ses hb).elim
  · rwa [Function.update_of_ne hne] at hb

theorem awaits_set {c : κ} {phase : Phase κ} {conn : Conn} (hold : ∀ ses, s.phase c ≠ .session ses)
    (hnew : ∀ ses, phase ≠ .session ses) (hwaits : ∀ id, Waits id phase ↔ Waits id (s.phase c))
    (id : Bytes) (x : κ) : (s.set c phase conn).Awaits id x ↔ s.Awaits id x := by
  rw [Awaits, Awaits, paired_congr (pairing_set hold hnew)]
  rcases eq_or_ne x c with rfl | hne
  · rw [phase_set_self, hwaits]
  · rw [phase_set_of_ne hne]

/-- A handler moves on and neither begins nor ends to wait. -/
theorem Registry.set (h : Registry s) {c : κ} {phase : Phase κ} {conn : Conn}
    (hold : ∀ ses, s.phase c ≠ .session ses) (hnew : ∀ ses, phase ≠ .session ses)
    (hwaits : ∀ id, Waits id phase ↔ Waits id (s.phase c)) : Registry (s.set c phase conn) :=
  h.of_same rfl rfl (awaits_set hold hnew hwaits) fun _ ses hb hrel =>
    ⟨ses, session_of_update hnew hb, rfl, hrel⟩

/-- A session moves on. -/
theorem Registry.setSession (h : Registry s) {b : κ} {ses ses' : Session κ} {connA connB : Conn}
    (hb : s.phase b = .session ses) (hid : ses'.id = ses.id) (hpeer : ses'.peerA = ses.peerA)
    (hrel : ses'.stage.Relaying → ses.stage.Relaying) :
    Registry (s.setSession b ses' connA connB) := by
  refine h.of_same rfl rfl (fun id x => ?_) fun x t ht hrel' => ?_
  · rw [Awaits, Awaits, paired_congr (pairing_setSession hb hid hpeer)]
    rcases eq_or_ne x b with rfl | hne
    · simp [Waits, hb]
    · rw [phase_setSession_of_ne hne]
  · rcases eq_or_ne x b with rfl | hne
    · obtain rfl : ses' = t := by simpa using ht
      exact ⟨ses, hb, hid.symm, hrel hrel'⟩
    · rw [phase_setSession_of_ne hne] at ht
      exact ⟨t, ht, rfl, hrel'⟩

/-- A connection that has just asked is known to nobody. -/
theorem WF.not_paired (h : WF s) {c : κ} {id : Bytes} (hc : s.phase c = .lookup id) :
    ¬ s.Paired c := fun hp => WF.ne_of_settled hc (h.settled_of_paired hp) rfl

/-- The first connection that asks for a session. -/
theorem Registry.wait (h : Registry s) (hwf : WF s) {c : κ} {id : Bytes}
    (hc : s.phase c = .lookup id) (hnone : s.waiting.lookup id = none) :
    Registry ({ s with waiting := s.waiting.insert id c }.set c (.waiting id) (s.conn c)) := by
  have hpair (x : κ) : ({ s with waiting := s.waiting.insert id c }.set c (.waiting id)
      (s.conn c)).Paired x ↔ s.Paired x := by
    refine paired_congr ?_
    exact pairing_set (by simp [hc]) (by simp)
  refine .of_waiting (fun id' x => ?_) fun b ses hb hrel =>
    h.sessions b ses (session_of_update (by simp) hb) hrel
  rw [Awaits, hpair]
  rcases eq_or_ne x c with rfl | hx
  · -- The connection itself is in the map, under its ID only.
    have hself : s.waiting.lookup id' ≠ some x := fun hin => by
      simpa [Awaits, Waits, hc] using (h.waiting id' x).1 hin
    rcases eq_or_ne id' id with rfl | hid
    · simp [Server.set, Waits, hwf.not_paired hc]
    · simp [Server.set, Waits, hid, hid.symm, hself]
  · rw [phase_set_of_ne hx]
    rcases eq_or_ne id' id with rfl | hid
    · have hno : ¬ s.Awaits id' x := fun haw => by simp [(h.waiting id' x).2 haw] at hnone
      simpa [Server.set, hx.symm, Awaits] using hno
    · simpa [Server.set, hid, Awaits] using h.waiting id' x

/-- The second. -/
theorem Registry.pair (h : Registry s) {c a : κ} {id : Bytes} (hc : s.phase c = .lookup id)
    (ha : s.waiting.lookup id = some a) :
    Registry ({ s with
      waiting := s.waiting.erase id
      sessions := s.sessions.insert id c }.set c (.session { id := id, peerA := a })
        (s.conn c)) := by
  obtain ⟨hwaits, hfree⟩ := (h.waiting id a).1 ha
  generalize ht : ({ s with
      waiting := s.waiting.erase id
      sessions := s.sessions.insert id c }.set c (.session { id := id, peerA := a })
        (s.conn c)) = t
  have hpair : t.pairing = Function.update s.pairing c (some (id, a)) :=
    ht ▸ pairing_set_session _ _
  have hpaired (x : κ) : t.Paired x ↔ s.Paired x ∨ x = a := by
    simp only [paired_iff, hpair]
    constructor
    · rintro ⟨b, i, hb⟩
      rcases pairing_cases hpair (hpair ▸ hb) with ⟨-, -, hx⟩ | hb
      · exact Or.inr hx
      · exact Or.inl ⟨b, i, hb⟩
    · rintro (⟨b, i, hb⟩ | rfl)
      · have hne : b ≠ c := by
          rintro rfl
          simp [pairing, hc] at hb
        exact ⟨b, i, by simpa [hne] using hb⟩
      · exact ⟨c, id, by simp⟩
  have hawaits (id' : Bytes) (x : κ) : t.Awaits id' x ↔ s.Awaits id' x ∧ x ≠ a := by
    rw [Awaits, Awaits, hpaired, not_or, and_assoc]
    rcases eq_or_ne x c with rfl | hne
    · simp [← ht, Waits, hc]
    · rw [← ht, phase_set_of_ne hne]
  refine .of_waiting (fun id' x => ?_) fun b ses hb hrel => ?_
  · rw [hawaits, ← h.waiting]
    rcases eq_or_ne id' id with rfl | hid
    · simp [← ht, Server.set, ha, eq_comm]
    · -- The connection that is paired was in the map under one ID only.
      have hne (hin : s.waiting.lookup id' = some x) : x ≠ a := by
        rintro rfl
        exact hid (((h.waiting id' x).1 hin).1.unique hwaits)
      simpa [← ht, Server.set, hid] using hne
  · rcases eq_or_ne id ses.id with rfl | hid
    · exact ⟨c, by simp [← ht, Server.set]⟩
    · have hne : b ≠ c := by
        rintro rfl
        rw [← ht, phase_set_self] at hb
        exact hid (congrArg Session.id (Phase.session.inj hb))
      rw [← ht, phase_set_of_ne hne] at hb
      simpa [← ht, Server.set, hid.symm] using h.sessions b ses hb hrel

/-! ### The events that remove entries -/

theorem Keeps.of_step {e : Event κ} (hs : s.step e = some s')
    (h : ∀ id c, s.waiting.lookup id = some c → s'.waiting.lookup id ≠ some c →
      e = .forget c ∨ ∃ b, e = .lookup b ∧ s'.pairing b = some (id, c)) : s.Keeps e := by
  intro t id c ht hin hout
  obtain rfl := Option.some.inj (hs.symm.trans ht)
  exact h id c hin hout

/-- A timeout removes the entry of its session ID, whoever it is for. -/
theorem forget_exact (h : Registry s) {c : κ} {id msg : Bytes} (hc : s.phase c = .fired id)
    (hs : s.step (.forget c) =
      some ({ s with waiting := s.waiting.erase id }.set c (.refusing msg) (s.conn c))) :
    s.Keeps (.forget c) ∧
        Registry ({ s with waiting := s.waiting.erase id }.set c (.refusing msg) (s.conn c)) ↔
      s.Undisturbed (.forget c) := by
  generalize ht : ({ s with waiting := s.waiting.erase id }.set c (.refusing msg) (s.conn c)) = t
    at hs ⊢
  have hpair : t.pairing = s.pairing := by
    rw [← ht]
    exact pairing_set (by simp [hc]) (by simp)
  have hawaits (id' : Bytes) (x : κ) : t.Awaits id' x ↔ s.Awaits id' x ∧ x ≠ c := by
    rw [Awaits, Awaits, paired_congr hpair]
    rcases eq_or_ne x c with rfl | hne
    · simp [← ht, Waits]
    · simp [← ht, phase_set_of_ne hne, hne]
  have hlookup (id' : Bytes) (x : κ) :
      t.waiting.lookup id' = some x ↔ id' ≠ id ∧ s.waiting.lookup id' = some x := by
    rcases eq_or_ne id' id with rfl | hid
    · simp [← ht, Server.set]
    · simp [← ht, Server.set, hid]
  constructor
  · rintro ⟨-, hreg⟩ id' x hid' hx
    obtain rfl : id = id' := Phase.fired.inj (hc.symm.trans hid')
    by_contra hne
    exact ((hlookup id x).1 ((hreg.waiting id x).2 ((hawaits id x).2 ⟨hx, hne⟩))).1 rfl
  · intro hg
    refine ⟨.of_step hs fun id' x hin hout => Or.inl ?_, .of_waiting (fun id' x => ?_) ?_⟩
    · obtain rfl : id' = id := by
        by_contra hid
        exact hout ((hlookup id' x).2 ⟨hid, hin⟩)
      rw [hg id' x hc ((h.waiting id' x).1 hin)]
    · rw [hlookup, hawaits, h.waiting]
      constructor
      · rintro ⟨hid, hx⟩
        refine ⟨hx, ?_⟩
        rintro rfl
        exact hid (hx.1.unique (Or.inr hc))
      · rintro ⟨hx, hne⟩
        refine ⟨?_, hx⟩
        rintro rfl
        exact hne (hg id' x hc hx)
    · intro b ses hb hrel
      rw [← ht] at hb ⊢
      exact h.sessions b ses (session_of_update (by simp) hb) hrel

/-- The end of a session removes the entry of its ID, whichever session it is for. -/
theorem removeSession_exact (h : Registry s) {c : κ} {ses : Session κ}
    (hc : s.phase c = .session ses) (hst : ses.stage = .removing)
    (hs : s.step (.removeSession c) =
      some ({ s with sessions := s.sessions.erase ses.id }.setSession
        c { ses with stage := .closing } (s.conn ses.peerA) (s.conn c))) :
    s.Keeps (.removeSession c) ∧
        Registry ({ s with sessions := s.sessions.erase ses.id }.setSession c
          { ses with stage := .closing } (s.conn ses.peerA) (s.conn c)) ↔
      s.Undisturbed (.removeSession c) := by
  generalize ht : ({ s with sessions := s.sessions.erase ses.id }.setSession c
    { ses with stage := .closing } (s.conn ses.peerA) (s.conn c)) = t at hs ⊢
  have hpair : t.pairing = s.pairing := by
    rw [← ht]
    exact pairing_setSession hc rfl rfl
  have hawaits (id : Bytes) (x : κ) : t.Awaits id x ↔ s.Awaits id x := by
    rw [Awaits, Awaits, paired_congr hpair]
    rcases eq_or_ne x c with rfl | hne
    · simp [← ht, Waits, hc]
    · simp [← ht, phase_setSession_of_ne hne]
  have hphase {b : κ} {ses' : Session κ} (hrel : ses'.stage.Relaying) :
      t.phase b = .session ses' ↔ s.phase b = .session ses' := by
    rcases eq_or_ne b c with rfl | hne
    · rw [hc, ← ht, phase_setSession_self]
      constructor <;> rintro ⟨⟩
      · exact hrel.elim
      · rw [hst] at hrel
        exact hrel.elim
    · rw [← ht, phase_setSession_of_ne hne]
  have hlookup (id : Bytes) (hid : id ≠ ses.id) : t.sessions.lookup id = s.sessions.lookup id := by
    simp [← ht, Server.setSession, hid]
  constructor
  · rintro ⟨-, hreg⟩ ses₁ b ses' hc' hb hid hrel
    obtain rfl : ses = ses₁ := Phase.session.inj (hc.symm.trans hc')
    obtain ⟨b', hb'⟩ := hreg.sessions b ses' ((hphase hrel).2 hb) hrel
    rw [hid, ← ht] at hb'
    simp [Server.setSession] at hb'
  · intro hg
    refine ⟨.of_step hs fun id x hin hout => ?_, .of_waiting (fun id x => ?_) ?_⟩
    · rw [← ht] at hout
      exact (hout hin).elim
    · rw [hawaits, ← h.waiting, ← ht]
      rfl
    · intro b ses' hb hrel
      have hb' := (hphase hrel).1 hb
      rw [hlookup _ fun hid => hg ses b ses' hc hb' hid hrel]
      exact h.sessions b ses' hb' hrel

/-! ### Runs -/

theorem done_of_step {e : Event κ} (he : e ≠ .shutdown) (hs : s.step e = some s') :
    s'.done = s.done := by
  cases happens_of_step hs with
  | shutdown => exact (he rfl).elim
  | _ => rfl

/-- **Exactly the undisturbed events keep the maps right.** -/
theorem registry_step {e : Event κ} (hwf : WF s) (hrunning : s.done = false) (h : Registry s)
    (hs : s.step e = some s') (he : e ≠ .shutdown) :
    s.Keeps e ∧ Registry s' ↔ s.Undisturbed e := by
  -- An event that leaves the map `waiting` alone removes no entry.
  have hsame (hwait : s'.waiting = s.waiting) : s.Keeps e :=
    .of_step hs fun id c hin hout => (hout (hwait ▸ hin)).elim
  cases happens_of_step hs with
  | accept hc =>
    exact iff_of_true ⟨hsame rfl, h.set (by simp [hc]) (by simp) (by simp [hc, Waits])⟩ trivial
  | send | leave =>
    refine iff_of_true ⟨hsame rfl, ?_⟩ trivial
    rw [Server.set, Function.update_eq_self]
    exact .of_waiting h.waiting h.sessions
  | handler hm =>
    obtain ⟨hold, hnew, hwaits, -⟩ := hm.frame
    exact iff_of_true ⟨hsame rfl, h.set hold hnew fun id =>
      iff_of_false (hwaits id).2 (hwaits id).1⟩ trivial
  | @wait c id hc ha =>
    refine iff_of_true ⟨.of_step hs fun id' x hin hout => (hout ?_).elim, h.wait hwf hc ha⟩
      trivial
    have hne : id' ≠ id := by
      rintro rfl
      cases ha.symm.trans hin
    exact lookup_insert_eq_some.2 (.inr ⟨hne, hin⟩)
  | @pair c a id hc ha =>
    refine iff_of_true ⟨.of_step hs fun id' x hin hout => .inr ⟨c, rfl, ?_⟩, h.pair hc ha⟩ trivial
    obtain rfl : id' = id := by
      by_contra hne
      exact hout (lookup_erase_eq_some.2 ⟨hne, hin⟩)
    obtain rfl : a = x := Option.some.inj (ha.symm.trans hin)
    rw [pairing_set_session, Function.update_self]
  | fire hc =>
    exact iff_of_true ⟨hsame rfl, h.set (by simp [hc]) (by simp) (by simp [hc, Waits])⟩ trivial
  | forget hc => exact forget_exact h hc hs
  | quit hc hdone => cases hrunning.symm.trans hdone
  | session hc hm =>
    exact iff_of_true ⟨hsame rfl, h.setSession hc hm.frame.id hm.frame.peerA hm.relaying⟩ trivial
  | removeSession hc hst => exact removeSession_exact h hc hst hs
  | shutdown => exact (he rfl).elim
  | closeAll hdone => cases hrunning.symm.trans hdone

end Server

/-- **The maps of the relay.**  Throughout a run in which the server is not shut down the maps are
right, and entries go only when they should, if and only if every event is undisturbed. -/
theorem registry_iff {κ : Type} [DecidableEq κ] {es : List (Event κ)} {s : Server κ}
    (h : exec Server.step Server.start es = some s) (hup : Event.shutdown ∉ es) :
    Run Server.step (fun s e => s.Registry ∧ s.Keeps e) Server.start es s ∧ s.Registry ↔
      Run Server.step Server.Undisturbed Server.start es s := by
  refine Run.iff_of_exact (J := fun s => s.WF ∧ s.done = false) (E := (· ≠ .shutdown)) ?_ ?_ h
    (fun e he heq => hup (heq ▸ he)) ⟨Server.wf_start, rfl⟩ Server.registry_start
  · rintro s e s' ⟨hwf, hrunning⟩ he hs
    exact ⟨hwf.move (Server.move_of_step hs), (Server.done_of_step he hs).trans hrunning⟩
  · rintro s e s' ⟨hwf, hrunning⟩ hreg he hs
    exact Server.registry_step hwf hrunning hreg hs he

/-- Connections 0 and 1 are paired; connection 2, which asks for a session with the same ID, waits
alone and gives up. -/
theorem registry_iff_reused_id :
    ∃ s, exec Server.step Server.start
        ((asks 0 [9] ++ asks 1 [9] ++ asks 2 [9] ++ [.fire 2]) ++ [.forget 2]) = some s ∧
      s.pairing 1 = some ([9], 0) ∧ s.waiting.lookup [9] = none ∧ s.Registry := by
  obtain ⟨s₁, s, hexec, hfired, hwaits, hstep, hpair, hnone⟩ : ∃ s₁ s,
      exec Server.step Server.start (asks 0 [9] ++ asks 1 [9] ++ asks 2 [9] ++ [.fire 2]) =
        some s₁ ∧
      s₁.phase 2 = .fired [9] ∧ s₁.waiting.lookup [9] = some 2 ∧ s₁.step (.forget 2) = some s ∧
      s.pairing 1 = some ([9], 0) ∧ s.waiting.lookup [9] = none :=
    ⟨_, _, rfl, rfl, rfl, rfl, rfl, rfl⟩
  have hbefore := Run.of_exec (G := Server.Undisturbed) hexec (by simp [asks, Server.Undisturbed])
  have hlast : s₁.Undisturbed (.forget 2) := by
    intro id c hid hc
    -- The map is right so far, and it has connection 2.
    have hreg := ((registry_iff hexec (by decide)).2 hbefore).2
    obtain rfl := Phase.fired.inj (hfired.symm.trans hid)
    exact (Option.some.inj (hwaits.symm.trans ((hreg.waiting _ c).2 hc))).symm
  have hrun := hbefore.append (.cons hlast hstep (.nil s))
  exact ⟨s, hrun.exec_eq, hpair, hnone, ((registry_iff hrun.exec_eq (by decide)).2 hrun).2⟩

/-- Connections 0 and 1 are paired, connection 2 waits for a session with the same ID, and the timer
of connection 0 expires: its handler removes the entry of connection 2. -/
theorem timeout_removes_other :
    ∃ s s', exec Server.step Server.start
        (asks 0 [9] ++ asks 1 [9] ++ asks 2 [9] ++ [.fire 0]) = some s ∧
      s.waiting.lookup [9] = some 2 ∧ s.step (.forget 0) = some s' ∧
      s'.waiting.lookup [9] = none ∧ s'.phase 2 = .waiting [9] ∧ ¬ s.Keeps (.forget 0) := by
  refine ⟨_, _, rfl, rfl, rfl, rfl, rfl, fun h => ?_⟩
  rcases h _ [9] 2 rfl rfl (by decide) with heq | ⟨b, heq, -⟩ <;> simp at heq

end FileSync.Relay
