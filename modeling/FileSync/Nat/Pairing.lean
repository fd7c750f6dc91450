import FileSync.Nat.Moves

/-!
# Nat — who is paired with whom

In every run of the relay, with any session IDs, timers and interleaving, and also when the server
is shut down:

* `Server.WF` holds: a connection that waits or is paired has asked for that session, has left the
  reading of its request behind and runs no session itself, and no two handlers run a session with
  it (`Server.wf_of_exec`).
* A session stays what it is (`Server.Move.pairing_eq`), and a connection that has left the map
  unpaired is never paired (`Server.Dropped.move`).
* `pairing_safe`: a connection is in one session at most over its whole life, the two ends of a
  session are different and have asked for it, and a connection that was removed by its own timeout
  is in none afterwards.
-/

open Transition

namespace FileSync.Relay

namespace Server

variable {κ : Type} [DecidableEq κ] {s s' : Server κ}

structure WF (s : Server κ) : Prop where
  request : ∀ c, Request (s.phase c) (s.conn c)
  waiting : ∀ id c, s.waiting.lookup id = some c →
    Asked id (s.conn c) ∧ Settled (s.phase c) ∧ ¬ s.Paired c
  peer : ∀ b id a, s.pairing b = some (id, a) → Asked id (s.conn a) ∧ Settled (s.phase a)
  unique : ∀ b b' id id' a, s.pairing b = some (id, a) → s.pairing b' = some (id', a) → b = b'

theorem wf_start : WF (start : Server κ) where
  request _ := rfl
  waiting id c h := by simp [start] at h
  peer b id a h := by simp [pairing, start] at h
  unique b b' id id' a h := by simp [pairing, start] at h

/-- What others know of a connection is kept when its peer has only sent more and its handler stays
settled. -/
theorem WF.of_settled (h : WF s) (hreq : ∀ c, Request (s'.phase c) (s'.conn c))
    (hwait : ∀ id c, s'.waiting.lookup id = some c → s.waiting.lookup id = some c)
    (hpair : s'.pairing = s.pairing)
    (hsettled : ∀ c, Settled (s.phase c) →
      Settled (s'.phase c) ∧ (s.conn c).sent <+: (s'.conn c).sent) : WF s' := by
  refine ⟨hreq, fun id c hc => ?_, fun b id a hb => ?_, hpair ▸ h.unique⟩
  · obtain ⟨hasked, hset, hfree⟩ := h.waiting id c (hwait id c hc)
    obtain ⟨hset', hsent⟩ := hsettled c hset
    exact ⟨hasked.mono hsent, hset', (paired_congr hpair).not.2 hfree⟩
  · obtain ⟨hasked, hset⟩ := h.peer b id a (hpair ▸ hb)
    obtain ⟨hset', hsent⟩ := hsettled a hset
    exact ⟨hasked.mono hsent, hset'⟩

theorem WF.settled_of_paired (h : WF s) {c : κ} (hc : s.Paired c) : Settled (s.phase c) := by
  obtain ⟨b, id, hb⟩ := paired_iff.1 hc
  exact (h.peer b id c hb).2

/-- A handler in its lookup moves on: no other handler knows its connection. -/
theorem WF.ne_of_settled {c x : κ} {id : Bytes} (hc : s.phase c = .lookup id)
    (hx : Settled (s.phase x)) : x ≠ c := by
  rintro rfl
  rw [hc] at hx
  exact hx

theorem WF.asked (h : WF s) {c : κ} {id : Bytes} (hc : s.phase c = .lookup id) :
    Asked id (s.conn c) := by
  have hreq := h.request c
  rwa [hc] at hreq

/-- The first connection that asks for a session. -/
theorem WF.wait (h : WF s) {c : κ} {id : Bytes} (hc : s.phase c = .lookup id) :
    WF ({ s with waiting := s.waiting.insert id c }.set c (.waiting id) (s.conn c)) := by
  have hpair : ({ s with waiting := s.waiting.insert id c }.set c (.waiting id)
      (s.conn c)).pairing = s.pairing := pairing_set (by simp [hc]) (by simp)
  have hconn (x : κ) : ({ s with waiting := s.waiting.insert id c }.set c (.waiting id)
      (s.conn c)).conn x = s.conn x := by simp [set]
  refine ⟨fun x => ?_, fun id' x hx => ?_, fun b id' a hb => ?_, hpair ▸ h.unique⟩
  · rw [hconn]
    rcases eq_or_ne x c with rfl | hne
    · rw [phase_set_self]
      exact h.asked hc
    · rw [phase_set_of_ne hne]
      exact h.request x
  · rw [hconn, paired_congr hpair]
    rcases eq_or_ne id' id with rfl | hid
    · obtain rfl : c = x := by simpa [set] using hx
      refine ⟨h.asked hc, by simp [Settled], fun hp => ?_⟩
      exact WF.ne_of_settled hc (h.settled_of_paired hp) rfl
    · obtain ⟨hasked, hset, hfree⟩ := h.waiting id' x (by simpa [set, hid] using hx)
      refine ⟨hasked, ?_, hfree⟩
      rwa [phase_set_of_ne (WF.ne_of_settled hc hset)]
  · obtain ⟨hasked, hset⟩ := h.peer b id' a (hpair ▸ hb)
    rw [hconn, phase_set_of_ne (WF.ne_of_settled hc hset)]
    exact ⟨hasked, hset⟩

/-- The second. -/
theorem WF.pair (h : WF s) {c a : κ} {id : Bytes} (hc : s.phase c = .lookup id)
    (ha : s.waiting.lookup id = some a) :
    WF ({ s with
      waiting := s.waiting.erase id
      sessions := s.sessions.insert id c }.set c (.session { id := id, peerA := a })
        (s.conn c)) := by
  obtain ⟨haskedA, hsetA, hfreeA⟩ := h.waiting id a ha
  generalize ht : ({ s with
      waiting := s.waiting.erase id
      sessions := s.sessions.insert id c }.set c (.session { id := id, peerA := a })
        (s.conn c)) = t
  have hpair : t.pairing = Function.update s.pairing c (some (id, a)) :=
    ht ▸ pairing_set_session _ _
  have hconn (x : κ) : t.conn x = s.conn x := by simp [← ht, set]
  have hphase {x : κ} (hx : x ≠ c) : t.phase x = s.phase x := by rw [← ht, phase_set_of_ne hx]
  refine ⟨fun x => ?_, fun id' x hx => ?_, fun b id' x hb => ?_, fun b b' i i' x hb hb' => ?_⟩
  · rw [hconn]
    rcases eq_or_ne x c with rfl | hne
    · rw [← ht, phase_set_self]
      exact h.asked hc
    · rw [hphase hne]
      exact h.request x
  · have hid : id' ≠ id := by
      rintro rfl
      simp [← ht, set] at hx
    obtain ⟨hasked, hset, hfree⟩ := h.waiting id' x (by simpa [← ht, set, hid] using hx)
    rw [hconn, hphase (WF.ne_of_settled hc hset)]
    refine ⟨hasked, hset, fun hp => ?_⟩
    obtain ⟨b, i, hb⟩ := paired_iff.1 hp
    rcases pairing_cases hpair hb with ⟨-, -, rfl⟩ | hb
    · exact hid (hasked.unique haskedA)
    · exact hfree (paired_iff.2 ⟨b, i, hb⟩)
  · rw [hconn]
    rcases pairing_cases hpair hb with ⟨-, rfl, rfl⟩ | hb
    · rw [hphase (WF.ne_of_settled hc hsetA)]
      exact ⟨haskedA, hsetA⟩
    · obtain ⟨hasked, hset⟩ := h.peer b id' x hb
      rw [hphase (WF.ne_of_settled hc hset)]
      exact ⟨hasked, hset⟩
  · rcases pairing_cases hpair hb with ⟨rfl, -, rfl⟩ | hb <;>
      rcases pairing_cases hpair hb' with ⟨rfl, -, hx⟩ | hb'
    · rfl
    · exact (hfreeA (paired_iff.2 ⟨b', i', hb'⟩)).elim
    · exact (hfreeA (paired_iff.2 ⟨b, i, hx ▸ hb⟩)).elim
    · exact h.unique b b' i i' x hb hb'

/-- **Every event keeps `WF`.** -/
theorem WF.move (h : WF s) (hm : Move s s') : WF s' := by
  cases hm with
  | @handler c phase conn waiting hold hnew hearly hreq hwait =>
    obtain ⟨hreq', hsent⟩ := hreq (h.request c)
    refine h.of_settled (fun x => ?_) hwait (pairing_set hold hnew) fun x hx => ?_
    · rcases eq_or_ne x c with rfl | hne
      · simpa using hreq'
      · rw [phase_set_of_ne hne, conn_set_of_ne hne]
        exact h.request x
    · rcases eq_or_ne x c with rfl | hne
      · simpa using ⟨settled_iff.2 ⟨fun he => (settled_iff.1 hx).1 (hearly he), hnew⟩, hsent⟩
      · rw [phase_set_of_ne hne, conn_set_of_ne hne]
        exact ⟨hx, List.prefix_rfl⟩
  | @session b ses ses' connA connB sessions hb hframe =>
    obtain ⟨-, hsettled⟩ := h.peer b _ _ (pairing_of_session hb)
    have hsent (x : κ) : (s.conn x).sent <+:
        (({ s with sessions }.setSession b ses' connA connB).conn x).sent := by
      rcases eq_or_ne x b with rfl | hxb
      · rw [conn_setSession_self, hframe.sentB]
      rcases eq_or_ne x ses'.peerA with rfl | hxA
      · rw [conn_setSession_peerA hxb, hframe.sentA, hframe.peerA]
      · rw [conn_setSession_of_ne hxb hxA]
    refine h.of_settled (fun x => ?_) (fun _ _ => id)
      (pairing_setSession hb hframe.id hframe.peerA) fun x hx => ⟨?_, hsent x⟩
    · rcases eq_or_ne x b with rfl | hxb
      · have hasked : Asked ses'.id (s.conn x) := by
          have hreq := h.request x
          rw [hb] at hreq
          exact hframe.id ▸ hreq
        rw [phase_setSession_self]
        exact hasked.mono (hsent x)
      rw [phase_setSession_of_ne hxb]
      rcases eq_or_ne x ses'.peerA with rfl | hxA
      · exact (h.request _).of_settled (hframe.peerA ▸ hsettled) (hsent _)
      · rw [conn_setSession_of_ne hxb hxA]
        exact h.request x
    · have hxb : x ≠ b := fun heq => (settled_iff.1 hx).2 ses (heq ▸ hb)
      rwa [phase_setSession_of_ne hxb]
  | @wait c id hc hnone => exact h.wait hc
  | @pair c a id hc ha => exact h.pair hc ha
  | @conns conn done hgrow =>
    refine h.of_settled (fun c => ?_) (fun _ _ => id) rfl fun c hc => ⟨hc, (hgrow c).1⟩
    obtain ⟨hsent, htaken, habsent⟩ := hgrow c
    exact (h.request c).mono hsent habsent htaken

theorem wf_of_exec {es : List (Event κ)} (h : exec step start es = some s) : WF s :=
  exec_invariant h (fun _ _ _ hwf hs => hwf.move (move_of_step hs)) wf_start

/-! ### Sessions stay -/

/-- A session stays what it is. -/
theorem Move.pairing_eq (hm : Move s s') {b : κ} {x : Bytes × κ} (hb : s.pairing b = some x) :
    s'.pairing b = some x := by
  rcases hm.pairing_cases with heq | ⟨c, a, id, hc, -, heq⟩
  · rw [heq, hb]
  · have hne : b ≠ c := by
      rintro rfl
      simp [pairing, hc] at hb
    rw [heq, Function.update_of_ne hne, hb]

theorem pairing_of_exec {es : List (Event κ)} (h : exec step s es = some s') {b : κ}
    {x : Bytes × κ} (hb : s.pairing b = some x) : s'.pairing b = some x :=
  exec_invariant (I := fun t => t.pairing b = some x) h
    (fun _ _ _ ht hs => (move_of_step hs).pairing_eq ht) hb

/-- The connection is in no session and in no way to one. -/
structure Dropped (s : Server κ) (c : κ) : Prop where
  settled : Settled (s.phase c)
  absent : ∀ id, s.waiting.lookup id ≠ some c
  free : ¬ s.Paired c

theorem Dropped.not_paired {c : κ} (h : s.Dropped c) (hm : Move s s') : ¬ s'.Paired c := by
  rcases hm.pairing_cases with heq | ⟨x, a, id, -, ha, heq⟩
  · exact (paired_congr heq).not.2 h.free
  · intro hp
    obtain ⟨b, i, hb⟩ := paired_iff.1 hp
    rw [heq] at hb
    rcases eq_or_ne b x with rfl | hbx
    · obtain ⟨-, rfl⟩ : id = i ∧ a = c := by simpa using hb
      exact h.absent id ha
    · rw [Function.update_of_ne hbx] at hb
      exact h.free (paired_iff.2 ⟨b, i, hb⟩)

theorem Dropped.move {c : κ} (h : s.Dropped c) (hm : Move s s') : s'.Dropped c := by
  have hfree := h.not_paired hm
  cases hm with
  | @handler x phase conn waiting hold hnew hearly _ hwait =>
    refine ⟨?_, fun id hid => h.absent id (hwait id c hid), hfree⟩
    rcases eq_or_ne c x with rfl | hne
    · rw [phase_set_self]
      exact settled_iff.2 ⟨fun he => (settled_iff.1 h.settled).1 (hearly he), hnew⟩
    · rw [phase_set_of_ne hne]
      exact h.settled
  | @session b ses ses' connA connB sessions hb hframe =>
    have hne : c ≠ b := fun heq => (settled_iff.1 h.settled).2 ses (heq ▸ hb)
    refine ⟨?_, h.absent, hfree⟩
    rw [phase_setSession_of_ne hne]
    exact h.settled
  | @wait x id hc hnone =>
    have hne : c ≠ x := WF.ne_of_settled hc h.settled
    refine ⟨?_, fun id' hid => ?_, hfree⟩
    · rw [phase_set_of_ne hne]
      exact h.settled
    · rcases eq_or_ne id' id with rfl | hid'
      · exact hne (by simpa [set, eq_comm] using hid)
      · exact h.absent id' (by simpa [set, hid'] using hid)
  | @pair x a id hc ha =>
    refine ⟨?_, fun id' hid => ?_, hfree⟩
    · rw [phase_set_of_ne (WF.ne_of_settled hc h.settled)]
      exact h.settled
    · have hid' : id' ≠ id := by
        rintro rfl
        simp [set] at hid
      exact h.absent id' (by simpa [set, hid'] using hid)
  | conns _ => exact ⟨h.settled, h.absent, hfree⟩

/-- The timeout of a connection that waits drops it. -/
theorem WF.dropped_of_forget (h : WF s) {c : κ} {id : Bytes}
    (hin : s.waiting.lookup id = some c) (hc : s.phase c = .fired id)
    (hs : s.step (.forget c) = some s') : s'.Dropped c := by
  obtain ⟨hasked, -, hfree⟩ := h.waiting id c hin
  simp only [step, hc, Option.some.injEq] at hs
  subst hs
  refine ⟨by simp [Settled], fun id' hid => ?_, ?_⟩
  · have hne : id' ≠ id := by
      rintro rfl
      simp [set] at hid
    have hid' : s.waiting.lookup id' = some c := by simpa [set, hne] using hid
    exact hne ((h.waiting id' c hid').1.unique hasked)
  · refine (paired_congr ?_).not.2 hfree
    exact pairing_set (by simp [hc]) (by simp)

/-- The connection is one of the two ends of the session that the handler of `b` runs. -/
def IsEnd (s : Server κ) (b c : κ) : Prop :=
  ∃ id a, s.pairing b = some (id, a) ∧ (c = b ∨ c = a)

theorem WF.ne_peer (h : WF s) {b a : κ} {id : Bytes} (hb : s.pairing b = some (id, a)) : a ≠ b := by
  rintro rfl
  obtain ⟨ses, hses, -⟩ := pairing_eq_some.1 hb
  exact (settled_iff.1 (h.peer _ _ _ hb).2).2 ses hses

theorem Dropped.not_isEnd {b c : κ} (h : s.Dropped c) : ¬ s.IsEnd b c := by
  rintro ⟨id, a, hp, rfl | rfl⟩
  · obtain ⟨ses, hses, -⟩ := pairing_eq_some.1 hp
    exact (settled_iff.1 h.settled).2 ses hses
  · exact h.free (paired_iff.2 ⟨b, id, hp⟩)

theorem WF.isEnd_unique (h : WF s) {b b' c : κ} (hb : s.IsEnd b c) (hb' : s.IsEnd b' c) :
    b = b' := by
  -- The handler of a `PeerA` is settled, so it runs no session.
  have hcross {b b' a' : κ} {id' : Bytes} (hb : ∃ id a, s.pairing b = some (id, a))
      (hb' : s.pairing b' = some (id', a')) : b ≠ a' := by
    rintro rfl
    obtain ⟨id, a, hb⟩ := hb
    obtain ⟨ses, hses, -⟩ := pairing_eq_some.1 hb
    exact (settled_iff.1 (h.peer _ _ _ hb').2).2 ses hses
  obtain ⟨id, a, hp, rfl | rfl⟩ := hb <;> obtain ⟨id', a', hp', hc⟩ := hb' <;>
    rcases hc with hc | hc
  · exact hc
  · exact (hcross ⟨id, a, hp⟩ hp' hc).elim
  · exact (hcross ⟨id', a', hp'⟩ hp hc.symm).elim
  · exact h.unique b b' id id' c hp (hc ▸ hp')

end Server

/-- **Pairing is safe.**  Let a run lead to `s`.  However it goes on, a connection in a session of
`s` is in no other session, and the session stays; the ends of a session are different and have
asked for it; and a connection that its own timeout takes out of the map is in no session
afterwards. -/
theorem pairing_safe {κ : Type} [DecidableEq κ] {es : List (Event κ)} {s : Server κ}
    (h : exec Server.step Server.start es = some s) :
    (∀ es' s' b b' c, exec Server.step s es' = some s' → s.IsEnd b c → s'.IsEnd b' c →
      b = b' ∧ s'.pairing b = s.pairing b) ∧
    (∀ b id a, s.pairing b = some (id, a) →
      a ≠ b ∧ Asked id (s.conn a) ∧ Asked id (s.conn b)) ∧
    (∀ c id s₁ es' s', s.phase c = .fired id → s.waiting.lookup id = some c →
      s.step (.forget c) = some s₁ → exec Server.step s₁ es' = some s' → ∀ b, ¬ s'.IsEnd b c) := by
  have hwf := Server.wf_of_exec h
  refine ⟨?_, ?_, ?_⟩
  · rintro es' s' b b' c h' ⟨id, a, hp, hc⟩ hb'
    have hp' := Server.pairing_of_exec h' hp
    have hwf' := exec_invariant h' (fun _ _ _ hwf hs => hwf.move (Server.move_of_step hs)) hwf
    exact ⟨hwf'.isEnd_unique ⟨id, a, hp', hc⟩ hb', hp'.trans hp.symm⟩
  · intro b id a hp
    obtain ⟨ses, hses, rfl, -⟩ := Server.pairing_eq_some.1 hp
    have hasked := hwf.request b
    rw [hses] at hasked
    exact ⟨hwf.ne_peer hp, (hwf.peer b _ a hp).1, hasked⟩
  · intro c id s₁ es' s' hc hin hs h' b
    have hdropped := hwf.dropped_of_forget hin hc hs
    exact (exec_invariant (I := (Server.Dropped · c)) h'
      (fun _ _ _ ht hs => ht.move (Server.move_of_step hs)) hdropped).not_isEnd

/-- Two peers that ask for the session `[9]`. -/
theorem pairing_safe_two_peers :
    ∃ s, exec Server.step Server.start (asks 0 [9] ++ asks 1 [9]) = some s ∧
      s.pairing 1 = some ([9], 0) ∧ 0 ≠ 1 ∧ Asked [9] (s.conn 0) ∧ Asked [9] (s.conn 1) := by
  have hrun : ∃ s, exec Server.step Server.start (asks 0 [9] ++ asks 1 [9]) = some s ∧
      s.pairing 1 = some ([9], 0) := ⟨_, rfl, rfl⟩
  obtain ⟨s, hs, hp⟩ := hrun
  exact ⟨s, hs, hp, (pairing_safe hs).2.1 1 [9] 0 hp⟩

end FileSync.Relay
