import FileSync.Nat.Register

/-!
# Nat — what the signaling server agrees on with its clients

Every call of a client takes effect at one moment, when its connection is handled (`ServedAt`).

* `serve_register` and `serve_lookupPeer` say what that moment does to the map and what the client
  makes of the reply.  A register message of `2 ^ 32` bytes or more states another length than its
  own, and the server then registers whatever the cut message says.
* `latest` is the latest registration of an ID by given calls that was not swept, as it can be told
  from what was observed of a run; `Inv` has the invariants of a run, with what each call has seen
  of it.
* `agreement`: a `Register` that returns `nil` has stored what it was given, for its message has
  been written and is shorter than that; one that returns an error reply has changed nothing; and if
  all that the server has acknowledged have returned `nil`, a `LookupPeer` returns the addresses of
  the latest of them.
* `truncated_register`: a message of `2 ^ 32 + 6` bytes registers the empty ID, and fails.
-/

open Transition

namespace FileSync.Signaling

/-- The message of the call states its own length. -/
def Call.Fits : Call → Prop
  | .register peerID publicAddr localAddr =>
    6 + peerID.length + publicAddr.length + localAddr.length < 2 ^ 32
  | .lookupPeer _ => True

/-- The addresses, as `LookupPeer` returns them. -/
def found : Option PeerInfo → Except Err PeerInfo
  | none => .error errPeerNotFound
  | some peer => .ok ⟨[], peer.publicAddr, peer.localAddr, 0⟩

/-- The entry came in a message of the server's size. -/
def PeerInfo.Small (peer : PeerInfo) : Prop :=
  6 + peer.id.length + peer.publicAddr.length + peer.localAddr.length ≤ maxBody

theorem PeerInfo.Small.length_id_le {peer : PeerInfo} (h : peer.Small) :
    peer.id.length ≤ maxBody := by
  rw [PeerInfo.Small] at h
  omega

/-! ### Registration -/

theorem registerResult_nil :
    registerResult (.ofBytes []) = some (.wrap "reading response header" .eof) := rfl

theorem registerResult_sendError (r : Refusal) :
    registerResult (.ofBytes (sendError r)) = some (.textOf "registration error" r.body) := by
  rw [registerResult, sendError, readResponse_message _ r.length_body_le]
  rfl

theorem registerResult_ack {peerID : Bytes} (h : peerID.length ≤ maxBody) :
    registerResult (.ofBytes (sendRegisterAck peerID)) = none := by
  rw [registerResult, sendRegisterAck, readResponse_message _ h]
  rfl

/-- What the client has put into a body of the server's size, the handler reads. -/
theorem handleRegister_registerBody (peers : Peers) (now : ℤ) {peerID publicAddr localAddr : Bytes}
    (h : (registerBody peerID publicAddr localAddr).length ≤ maxBody) :
    handleRegister peers now (registerBody peerID publicAddr localAddr) =
      (peers.insert peerID ⟨peerID, publicAddr, localAddr, now⟩, sendRegisterAck peerID) := by
  rw [length_registerBody] at h
  have hmax : maxBody < 2 ^ 16 := by decide
  exact handleRegister_registration
    ⟨by omega, by omega, by omega, [], (List.append_nil _).symm⟩ peers now

/-- **The moment of a registration.**  The server refuses and changes nothing; or it enters a small
peer and acknowledges it, and if the message states its own length, this is the peer the client has
given. -/
theorem serve_register {peers peers' : Peers} {now : ℤ} {peerID publicAddr localAddr reply : Bytes}
    (h : handleConnection peers now
      (.ofBytes (Call.register peerID publicAddr localAddr).request) = (peers', reply)) :
    (∃ r, peers' = peers ∧ reply = sendError r) ∨
      ∃ peer : PeerInfo, peer.Small ∧ peers' = peers.insert peer.id peer ∧
        reply = sendRegisterAck peer.id ∧
        ((Call.register peerID publicAddr localAddr).Fits →
          peer = ⟨peerID, publicAddr, localAddr, now⟩) := by
  rw [Call.request, handleConnection_message, if_pos rfl] at h
  split at h
  · obtain ⟨rfl, rfl⟩ := Prod.mk.inj h
    exact .inl ⟨_, rfl, rfl⟩
  · next hmax =>
    rw [Nat.not_lt] at hmax
    by_cases hfits : (Call.register peerID publicAddr localAddr).Fits
    · -- The length is the one that was stated, so the handler gets the whole body.
      have hmod : (registerBody peerID publicAddr localAddr).length % 2 ^ 32 =
          (registerBody peerID publicAddr localAddr).length :=
        Nat.mod_eq_of_lt (by rw [length_registerBody]; exact hfits)
      rw [hmod] at hmax
      rw [hmod, List.take_length, handleRegister_registerBody peers now hmax] at h
      obtain ⟨rfl, rfl⟩ := Prod.mk.inj h
      rw [length_registerBody] at hmax
      exact .inr ⟨⟨peerID, publicAddr, localAddr, now⟩, hmax, rfl, rfl, fun _ => rfl⟩
    · rcases handleRegister_cases peers now _ with ⟨r, hr⟩ | ⟨id, pub, loc, hreg⟩
      · obtain ⟨rfl, rfl⟩ := Prod.mk.inj (h.symm.trans hr)
        exact .inl ⟨r, rfl, rfl⟩
      · obtain ⟨rfl, rfl⟩ := Prod.mk.inj (h.symm.trans (handleRegister_registration hreg peers now))
        refine .inr ⟨⟨id, pub, loc, now⟩, ?_, rfl, rfl, fun hf => absurd hf hfits⟩
        have hsize := hreg.length_le
        rw [List.length_take] at hsize
        exact hsize.trans ((Nat.min_le_left _ _).trans hmax)

/-! ### Lookup -/

theorem peers_of_serve_lookupPeer {peers peers' : Peers} {now : ℤ} {peerID reply : Bytes}
    (h : handleConnection peers now (.ofBytes (Call.lookupPeer peerID).request) = (peers', reply)) :
    peers' = peers := by
  rw [Call.request, handleConnection_peerRequest] at h
  exact (Prod.mk.inj h).1.symm

theorem lookupPeerResult_notFound :
    lookupPeerResult (.ofBytes (sendError .peerNotFound)) = .error errPeerNotFound := by
  rw [lookupPeerResult, sendError, readResponse_message _ (Refusal.length_body_le _)]
  rfl

theorem lookupPeerResult_response {peer : PeerInfo} (h : peer.Small) :
    lookupPeerResult (.ofBytes (sendPeerResponse peer)) =
      .ok ⟨[], peer.publicAddr, peer.localAddr, 0⟩ := by
  rw [PeerInfo.Small] at h
  have hmax : maxBody < 2 ^ 16 := by decide
  have hbody : (Binary.putField peer.publicAddr ++ Binary.putField peer.localAddr).length =
      4 + peer.publicAddr.length + peer.localAddr.length := by
    simp only [List.length_append, Binary.length_putField]
    omega
  have hloc := Binary.readField_putField (b := peer.localAddr) (by omega) []
  rw [List.append_nil] at hloc
  have hparse : parsePeerResponse (Binary.putField peer.publicAddr ++
      Binary.putField peer.localAddr) = .ok ⟨[], peer.publicAddr, peer.localAddr, 0⟩ := by
    rw [parsePeerResponse, hbody, if_neg (by omega), Binary.readField_putField (by omega)]
    simp only [hloc]
  rw [lookupPeerResult, sendPeerResponse, readResponse_message _ (by rw [hbody]; omega)]
  exact hparse

/-- **The moment of a lookup.**  The client returns the addresses in the map. -/
theorem serve_lookupPeer {peers peers' : Peers} {now : ℤ} {peerID reply : Bytes}
    (hsmall : ∀ peer, peers.lookup peerID = some peer → peer.Small)
    (hid : 2 + peerID.length ≤ maxBody)
    (h : handleConnection peers now (.ofBytes (Call.lookupPeer peerID).request) = (peers', reply)) :
    lookupPeerResult (.ofBytes reply) = found (peers.lookup peerID) := by
  have hmax : maxBody < 2 ^ 16 := by decide
  have hlen : (Binary.putField peerID).length % 2 ^ 32 = (Binary.putField peerID).length :=
    Nat.mod_eq_of_lt (by rw [Binary.length_putField]; omega)
  have hread := Binary.readField_putField (b := peerID) (by omega) []
  rw [List.append_nil] at hread
  rw [Call.request, handleConnection_peerRequest, hlen, List.take_length, Binary.length_putField,
    if_neg (Nat.not_lt.2 hid), handlePeerRequest, Binary.length_putField, if_neg (by omega),
    hread] at h
  obtain rfl := (Prod.mk.inj h).2
  dsimp only
  cases hpeer : peers.lookup peerID with
  | none => exact lookupPeerResult_notFound
  | some peer => exact lookupPeerResult_response (hsmall peer hpeer)

/-! ### Runs -/

variable {κ : Type}

/-- What can be told of a run: the registrations that the server has acknowledged, with what their
calls were given, and the sweeps. -/
inductive Act (κ : Type)
  | registered (k : κ) (peer : PeerInfo)
  | swept (now : ℤ)

def Client.call : Client → Option Call
  | .absent => none
  | .connecting c => some c
  | .sending c => some c
  | .waiting c => some c
  | .returned c _ => some c

def State.observe (s : State κ) : Event κ → List (Act κ)
  | .serve k now =>
    match (s.client k).call, s.conn k with
    | some (.register peerID publicAddr localAddr), .request msg =>
      if registerResult (.ofBytes (handleConnection s.peers now (.ofBytes msg)).2) = none then
        [.registered k ⟨peerID, publicAddr, localAddr, now⟩]
      else []
    | _, _ => []
  | .sweep now => [.swept now]
  | _ => []

/-- The call is a `Register` that has returned `nil`. -/
def State.succeeded (s : State κ) (k : κ) : Bool :=
  match s.client k with
  | .returned _ (.register none) => true
  | _ => false

/-- The latest registration of the ID by one of these calls, if it was not swept. -/
def latest (ok : κ → Bool) (peerID : Bytes) (acts : List (Act κ)) : Option PeerInfo :=
  acts.foldl (fun last act =>
    match act with
    | .registered k peer => if ok k ∧ peer.id = peerID then some peer else last
    | .swept now => last.filter fun peer => !peer.expired now) none

variable [DecidableEq κ] {room : ℕ}

/-- In the run `es`, the connection of the call was handled at `now`, after the events `es₁`. -/
def ServedAt (room : ℕ) (es : List (Event κ)) (k : κ) (es₁ : List (Event κ)) (now : ℤ)
    (s₁ s₂ : State κ) : Prop :=
  es₁ ++ [.serve k now] <+: es ∧ exec (State.step room) .start es₁ = some s₁ ∧
    s₁.step room (.serve k now) = some s₂

/-- The connection failed for the client. -/
def Aborted (es : List (Event κ)) (k : κ) (c : Call) (o : Outcome) : Prop :=
  ∃ fault e, .abort k fault e ∈ es ∧ o = c.fail (.wrap (fault.text c) e)

/-- The handler of the connection has ended: it gave up, or it has handled the request. -/
def Answered (room : ℕ) (es : List (Event κ)) (k : κ) (c : Call) (reply : Bytes) : Prop :=
  .drop k ∈ es ∧ reply = [] ∨
    ∃ es₁ now s₁ s₂, ServedAt room es k es₁ now s₁ s₂ ∧
      handleConnection s₁.peers now (.ofBytes c.request) = (s₂.peers, reply)

/-- The connection of a call that was made. -/
inductive Made (room : ℕ) (es : List (Event κ)) (k : κ) (c : Call) : Conn → Prop
  | request : Made room es k c (.request c.request)
  | answered {reply : Bytes} (h : Answered room es k c reply) : Made room es k c (.answered reply)

/-- How a call and its connection stand to each other and to the run so far. -/
inductive Link (room : ℕ) (es : List (Event κ)) (k : κ) : Client → Conn → Prop
  | absent : Link room es k .absent .absent
  | connecting {c : Call} : Link room es k (.connecting c) .absent
  | sending {c : Call} {cn : Conn} (h : Made room es k c cn) : Link room es k (.sending c) cn
  | waiting {c : Call} {cn : Conn} (hsent : c.Sendable room) (h : Made room es k c cn) :
      Link room es k (.waiting c) cn
  | aborted {c : Call} {o : Outcome} {cn : Conn} (h : Aborted es k c o)
      (hcn : cn = .absent ∨ Made room es k c cn) : Link room es k (.returned c o) cn
  | finished {c : Call} {reply : Bytes} (hsent : c.Sendable room)
      (h : Answered room es k c reply) :
      Link room es k (.returned c (c.finish reply)) (.answered reply)

omit [DecidableEq κ] in
theorem Aborted.mono {es es' : List (Event κ)} {k : κ} {c : Call} {o : Outcome}
    (h : Aborted es k c o) (hes : es <+: es') : Aborted es' k c o := by
  obtain ⟨fault, e, hmem, ho⟩ := h
  exact ⟨fault, e, hes.subset hmem, ho⟩

theorem Answered.mono {es es' : List (Event κ)} {k : κ} {c : Call} {reply : Bytes}
    (h : Answered room es k c reply) (hes : es <+: es') : Answered room es' k c reply := by
  rcases h with ⟨hmem, hreply⟩ | ⟨es₁, now, s₁, s₂, ⟨hpre, hrun⟩, hreply⟩
  · exact .inl ⟨hes.subset hmem, hreply⟩
  · exact .inr ⟨es₁, now, s₁, s₂, ⟨hpre.trans hes, hrun⟩, hreply⟩

theorem Made.mono {es es' : List (Event κ)} {k : κ} {c : Call} {cn : Conn}
    (h : Made room es k c cn) (hes : es <+: es') : Made room es' k c cn := by
  cases h with
  | request => exact .request
  | answered h => exact .answered (h.mono hes)

theorem Link.mono {es es' : List (Event κ)} {k : κ} {cl : Client} {cn : Conn}
    (h : Link room es k cl cn) (hes : es <+: es') : Link room es' k cl cn := by
  cases h with
  | absent => exact .absent
  | connecting => exact .connecting
  | sending h => exact .sending (h.mono hes)
  | waiting hsent h => exact .waiting hsent (h.mono hes)
  | aborted h hcn => exact .aborted (h.mono hes) (hcn.imp_right fun h => h.mono hes)
  | finished hsent h => exact .finished hsent (h.mono hes)

/-- What holds in every run. -/
structure Inv (room : ℕ) (es : List (Event κ)) (s : State κ) : Prop where
  link : ∀ k, Link room es k (s.client k) (s.conn k)
  acts : ∀ k peer, .registered k peer ∈ trace (State.step room) State.observe .start es →
    (s.client k).call = some (.register peer.id peer.publicAddr peer.localAddr)
  small : ∀ peerID peer, s.peers.lookup peerID = some peer → peer.Small
  latest : (∀ k peer, .registered k peer ∈ trace (State.step room) State.observe .start es →
      (Call.register peer.id peer.publicAddr peer.localAddr).Fits) →
    ∀ peerID, s.peers.lookup peerID =
      latest (fun _ => true) peerID (trace (State.step room) State.observe .start es)

omit [DecidableEq κ] in
theorem latest_registered (ok : κ → Bool) (peerID : Bytes) (acts : List (Act κ)) (k : κ)
    (peer : PeerInfo) :
    latest ok peerID (acts ++ [.registered k peer]) =
      if ok k ∧ peer.id = peerID then some peer else latest ok peerID acts := by
  rw [latest, List.foldl_append]
  rfl

omit [DecidableEq κ] in
theorem latest_swept (ok : κ → Bool) (peerID : Bytes) (acts : List (Act κ)) (now : ℤ) :
    latest ok peerID (acts ++ [.swept now]) =
      (latest ok peerID acts).filter fun peer => !peer.expired now := by
  rw [latest, List.foldl_append]
  rfl

omit [DecidableEq κ] in
/-- If all registrations are by such calls, none is passed over. -/
theorem latest_of_all {ok : κ → Bool} (peerID : Bytes) {acts : List (Act κ)}
    (h : ∀ k peer, Act.registered k peer ∈ acts → ok k = true) :
    latest ok peerID acts = latest (fun _ => true) peerID acts := by
  induction acts using List.reverseRecOn with
  | nil => rfl
  | append_singleton acts act ih =>
    have hrest := ih fun k peer hmem => h k peer (List.mem_append_left _ hmem)
    cases act with
    | registered k peer =>
      rw [latest_registered, latest_registered, h k peer (by simp), hrest]
    | swept now => rw [latest_swept, latest_swept, hrest]

/-- A step that changes one call and its connection keeps the links of the others. -/
theorem link_update {es es' : List (Event κ)} {client : κ → Client} {conn : κ → Conn}
    (h : ∀ k, Link room es k (client k) (conn k)) (hes : es <+: es') {k : κ} {cl : Client}
    {cn : Conn} (hk : Link room es' k cl cn) (k' : κ) :
    Link room es' k' (Function.update client k cl k') (Function.update conn k cn k') := by
  by_cases hne : k' = k
  · subst hne
    rw [Function.update_self, Function.update_self]
    exact hk
  · rw [Function.update_of_ne hne, Function.update_of_ne hne]
    exact (h k').mono hes

/-- The call whose request the server has. -/
theorem Link.call_of_request {es : List (Event κ)} {k : κ} {cl : Client} {msg : Bytes}
    (h : Link room es k cl (.request msg)) : ∃ c, cl.call = some c ∧ msg = c.request := by
  cases h with
  | sending h | waiting _ h =>
    cases h
    exact ⟨_, rfl, rfl⟩
  | aborted _ hcn =>
    rcases hcn with hcn | hcn
    · cases hcn
    · cases hcn
      exact ⟨_, rfl, rfl⟩

/-- The handler of a connection ends. -/
theorem Link.answer {es es' : List (Event κ)} {k : κ} {cl : Client} {msg reply : Bytes}
    (h : Link room es k cl (.request msg)) (hes : es <+: es')
    (hreply : ∀ c : Call, c.request = msg → Answered room es' k c reply) :
    Link room es' k cl (.answered reply) := by
  cases h with
  | sending h =>
    cases h
    exact .sending (.answered (hreply _ rfl))
  | waiting hsent h =>
    cases h
    exact .waiting hsent (.answered (hreply _ rfl))
  | aborted h hcn =>
    refine .aborted (h.mono hes) (.inr ?_)
    rcases hcn with hcn | hcn
    · cases hcn
    · cases hcn
      exact .answered (hreply _ rfl)

/-- A call fails. -/
theorem Link.abort {es es' : List (Event κ)} {k : κ} {cl : Client} {cn : Conn}
    (h : Link room es k cl cn) (hes : es <+: es') {fault : Fault} {c : Call} {o : Outcome}
    (hmeets : cl.meets fault = some c) (ho : Aborted es' k c o) :
    Link room es' k (.returned c o) cn := by
  cases h with
  | absent => cases fault <;> cases hmeets
  | connecting =>
    cases fault <;> cases hmeets
    exact .aborted ho (.inl rfl)
  | sending h | waiting _ h =>
    cases fault <;> cases hmeets <;> exact .aborted ho (.inr (h.mono hes))
  | aborted => cases fault <;> cases hmeets
  | finished => cases fault <;> cases hmeets

/-- What each event needs and does. -/
inductive Happens (room : ℕ) (s : State κ) : Event κ → State κ → Prop
  | start {k : κ} {c : Call} (hcl : s.client k = .absent) :
      Happens room s (.start k c)
        { s with client := Function.update s.client k (.connecting c) }
  | connect {k : κ} {c : Call} (hcl : s.client k = .connecting c) :
      Happens room s (.connect k) { s with
        client := Function.update s.client k (.sending c)
        conn := Function.update s.conn k (.request c.request) }
  | sent {k : κ} {c : Call} (hcl : s.client k = .sending c) (hsent : c.Sendable room) :
      Happens room s (.sent k) { s with client := Function.update s.client k (.waiting c) }
  | serve {k : κ} {now : ℤ} {msg reply : Bytes} {peers : Peers} (hmsg : s.conn k = .request msg)
      (hreply : handleConnection s.peers now (.ofBytes msg) = (peers, reply)) :
      Happens room s (.serve k now) { s with
        conn := Function.update s.conn k (.answered reply)
        peers := peers }
  | drop {k : κ} {msg : Bytes} (hmsg : s.conn k = .request msg) :
      Happens room s (.drop k) { s with conn := Function.update s.conn k (.answered []) }
  | finish {k : κ} {c : Call} {reply : Bytes} (hcl : s.client k = .waiting c)
      (hcn : s.conn k = .answered reply) : Happens room s (.finish k)
      { s with client := Function.update s.client k (.returned c (c.finish reply)) }
  | abort {k : κ} {c : Call} {fault : Fault} {e : Err}
      (hcl : (s.client k).meets fault = some c) : Happens room s (.abort k fault e) { s with
        client := Function.update s.client k (.returned c (c.fail (.wrap (fault.text c) e))) }
  | sweep {now : ℤ} :
      Happens room s (.sweep now) { s with peers := cleanupExpiredPeers now s.peers }

theorem happens_of_step {s s' : State κ} {e : Event κ} (hs : s.step room e = some s') :
    Happens room s e s' := by
  cases e with
  | start k c =>
    simp only [State.step] at hs
    split at hs <;> cases hs
    next hcl => exact .start hcl
  | connect k =>
    simp only [State.step] at hs
    split at hs <;> cases hs
    next c hcl => exact .connect hcl
  | sent k =>
    simp only [State.step] at hs
    split at hs
    · next c hcl =>
      split at hs <;> cases hs
      next hsent => exact .sent hcl hsent
    · cases hs
  | serve k now =>
    simp only [State.step] at hs
    split at hs <;> cases hs
    next msg hmsg => exact .serve hmsg rfl
  | drop k =>
    simp only [State.step] at hs
    split at hs <;> cases hs
    next msg hmsg => exact .drop hmsg
  | finish k =>
    simp only [State.step] at hs
    split at hs <;> cases hs
    next c reply hcl hcn => exact .finish hcl hcn
  | abort k fault err =>
    simp only [State.step] at hs
    split at hs <;> cases hs
    next c hcl => exact .abort hcl
  | sweep now =>
    cases hs
    exact .sweep

theorem link_step {es : List (Event κ)} {s s' : State κ} {e : Event κ}
    (hrun : exec (State.step room) .start es = some s)
    (h : ∀ k, Link room es k (s.client k) (s.conn k)) (hs : s.step room e = some s') (k : κ) :
    Link room (es ++ [e]) k (s'.client k) (s'.conn k) := by
  have hpre := List.prefix_append es [e]
  have hlast : e ∈ es ++ [e] := by simp
  cases happens_of_step hs with
  | @start k₁ c hcl =>
    rw [← Function.update_eq_self k₁ s.conn]
    refine link_update h hpre ?_ k
    have hlink := h k₁
    rw [hcl] at hlink
    generalize s.conn k₁ = cn at hlink
    cases hlink
    exact .connecting
  | connect => exact link_update h hpre (.sending .request) k
  | @sent k₁ c hcl hsent =>
    rw [← Function.update_eq_self k₁ s.conn]
    refine link_update h hpre ?_ k
    have hlink := h k₁
    rw [hcl] at hlink
    cases hlink with
    | sending h => exact .waiting hsent (h.mono hpre)
  | @serve k₁ now msg reply peers hmsg hreply =>
    rw [← Function.update_eq_self k₁ s.client]
    refine link_update h hpre ((hmsg ▸ h k₁).answer hpre ?_) k
    rintro c rfl
    exact .inr ⟨es, now, s, _, ⟨List.prefix_rfl, hrun, hs⟩, hreply⟩
  | @drop k₁ msg hmsg =>
    rw [← Function.update_eq_self k₁ s.client]
    exact link_update h hpre ((hmsg ▸ h k₁).answer hpre fun _ _ => .inl ⟨hlast, rfl⟩) k
  | @finish k₁ c reply hcl hcn =>
    rw [← Function.update_eq_self k₁ s.conn]
    refine link_update h hpre ?_ k
    have hlink := h k₁
    rw [hcl, hcn] at hlink
    rw [hcn]
    cases hlink with
    | waiting hsent h =>
      cases h with
      | answered h => exact .finished hsent (h.mono hpre)
  | @abort k₁ c fault err hcl =>
    rw [← Function.update_eq_self k₁ s.conn]
    exact link_update h hpre ((h k₁).abort hpre hcl ⟨fault, err, hlast, rfl⟩) k
  | sweep => exact (h k).mono hpre

theorem call_of_meets {cl : Client} {fault : Fault} {c : Call} (h : cl.meets fault = some c) :
    cl.call = some c := by
  cases cl <;> cases fault <;> cases h <;> rfl

/-- A call that was started stays. -/
theorem call_step {s s' : State κ} {e : Event κ} {k : κ} {c : Call} (hs : s.step room e = some s')
    (hc : (s.client k).call = some c) : (s'.client k).call = some c := by
  have hgoes {k₁ : κ} {c₁ : Call} {cl : Client} (hcl : (s.client k₁).call = some c₁)
      (hcall : cl.call = some c₁) : (Function.update s.client k₁ cl k).call = some c := by
    by_cases hk : k = k₁
    · subst hk
      rw [Function.update_self, hcall, ← hcl, hc]
    · rwa [Function.update_of_ne hk]
  cases happens_of_step hs with
  | @start k₁ c₁ hcl =>
    have hk : k ≠ k₁ := by
      rintro rfl
      rw [hcl] at hc
      cases hc
    dsimp only
    rwa [Function.update_of_ne hk]
  | connect hcl | sent hcl | finish hcl => exact hgoes (by rw [hcl]; rfl) rfl
  | abort hcl => exact hgoes (call_of_meets hcl) rfl
  | serve | drop | sweep => exact hc

/-- What a step does to the map, and what is observed of it. -/
inductive MapStep (s : State κ) (peers' : Peers) : List (Act κ) → Prop
  | kept (h : peers' = s.peers) : MapStep s peers' []
  | entered {k : κ} {peer given : PeerInfo}
      (hc : (s.client k).call = some (.register given.id given.publicAddr given.localAddr))
      (hsmall : peer.Small) (h : peers' = s.peers.insert peer.id peer)
      (hgiven : (Call.register given.id given.publicAddr given.localAddr).Fits → peer = given) :
      MapStep s peers' [.registered k given]
  | swept {now : ℤ} (h : peers' = cleanupExpiredPeers now s.peers) :
      MapStep s peers' [.swept now]

theorem mapStep_of_step {es : List (Event κ)} {s s' : State κ} {e : Event κ}
    (h : ∀ k, Link room es k (s.client k) (s.conn k)) (hs : s.step room e = some s') :
    MapStep s s'.peers (s.observe e) := by
  cases happens_of_step hs with
  | @serve k now msg reply peers hmsg hreply =>
    have hlink := h k
    rw [hmsg] at hlink
    obtain ⟨c, hc, rfl⟩ := hlink.call_of_request
    simp only [State.observe, hc, hmsg]
    cases c with
    | register peerID publicAddr localAddr =>
      dsimp only
      rcases serve_register hreply with
        ⟨r, hpeers, rfl⟩ | ⟨peer, hsmall, hpeers, rfl, hgiven⟩
      · rw [hreply, registerResult_sendError]
        exact .kept hpeers
      · rw [hreply, registerResult_ack hsmall.length_id_le, if_pos rfl]
        exact .entered hc hsmall hpeers hgiven
    | lookupPeer peerID => exact .kept (peers_of_serve_lookupPeer hreply)
  | sweep => exact .swept rfl
  | start | connect | sent | drop | finish | abort => exact .kept rfl

theorem Inv.start : Inv room ([] : List (Event κ)) .start where
  link _ := .absent
  acts _ _ h := nomatch h
  small _ _ h := nomatch h
  latest _ _ := rfl

/-- Every step keeps the invariants. -/
theorem Inv.step {es : List (Event κ)} {s s' : State κ} {e : Event κ}
    (hrun : exec (State.step room) .start es = some s) (h : Inv room es s)
    (hs : s.step room e = some s') : Inv room (es ++ [e]) s' := by
  have hmap := mapStep_of_step h.link hs
  refine ⟨link_step hrun h.link hs, ?_, ?_, ?_⟩
  · intro k peer hact
    rw [trace_concat hrun] at hact
    rcases List.mem_append.1 hact with hact | hact
    · exact call_step hs (h.acts k peer hact)
    · generalize s.observe e = acts at hmap hact
      cases hmap with
      | kept => cases hact
      | entered hc =>
        cases List.mem_singleton.1 hact
        exact call_step hs hc
      | swept => cases List.mem_singleton.1 hact
  · intro peerID peer hpeer
    generalize s.observe e = acts at hmap
    cases hmap with
    | kept heq => exact h.small peerID peer (heq ▸ hpeer)
    | @entered k peer' given hc hsmall heq hgiven =>
      rw [heq] at hpeer
      rcases lookup_insert_eq_some.1 hpeer with ⟨-, rfl⟩ | ⟨-, hpeer⟩
      · exact hsmall
      · exact h.small peerID peer hpeer
    | swept heq =>
      rw [heq, cleanupExpiredPeers, lookup_keepEntries, Option.filter_eq_some_iff] at hpeer
      exact h.small peerID peer hpeer.1
  · intro hfits peerID
    rw [trace_concat hrun] at hfits ⊢
    have hlatest := h.latest
      (fun k peer hact => hfits k peer (List.mem_append_left _ hact)) peerID
    generalize s.observe e = acts at hmap hfits
    cases hmap with
    | kept heq => rw [heq, List.append_nil, hlatest]
    | @entered k peer given hc hsmall heq hgiven =>
      obtain rfl := hgiven (hfits k given (by simp))
      rw [heq, latest_registered]
      by_cases hid : peer.id = peerID
      · rw [← hid, AList.lookup_insert, if_pos ⟨rfl, rfl⟩]
      · rw [AList.lookup_insert_ne (Ne.symm hid), if_neg (fun h => hid h.2), hlatest]
    | swept heq => rw [heq, cleanupExpiredPeers, lookup_keepEntries, latest_swept, hlatest]

theorem inv_of_exec {es : List (Event κ)} {s : State κ}
    (h : exec (State.step room) .start es = some s) : Inv room es s :=
  exec_history Inv.start (fun _ _ _ _ hrun hinv hs => hinv.step hrun hs) h

/-! ### Agreement -/

/-- A request that was sent states its own length, where a connection does not hold one of four
gigabytes. -/
theorem fits_of_sendable (hroom : maxBody + room < 2 ^ 32) {c : Call} (h : c.Sendable room) :
    c.Fits := by
  cases c with
  | register peerID publicAddr localAddr =>
    rw [Call.Sendable, Call.request, message] at h
    simp only [List.cons_append, List.length_cons, List.length_append, Binary.length_putUint32,
      length_registerBody] at h
    rw [Call.Fits]
    omega
  | lookupPeer peerID => trivial

/-- A `Register` that returned something else than the failure of its connection was sent and
served. -/
theorem served_of_register {es : List (Event κ)} {s : State κ} (hinv : Inv room es s) {k : κ}
    {peerID publicAddr localAddr : Bytes} {err : Option Err}
    (h : s.client k = .returned (.register peerID publicAddr localAddr) (.register err))
    (herr : ∀ text cause, err ≠ some (.wrap text cause)) :
    (Call.register peerID publicAddr localAddr).Sendable room ∧
      ∃ es₁ now s₁ s₂ reply, ServedAt room es k es₁ now s₁ s₂ ∧
        handleConnection s₁.peers now
            (.ofBytes (Call.register peerID publicAddr localAddr).request) = (s₂.peers, reply) ∧
        err = registerResult (.ofBytes reply) := by
  have hlink := hinv.link k
  rw [h] at hlink
  generalize s.conn k = cn at hlink
  generalize ho : Outcome.register err = o at hlink
  cases hlink with
  | aborted hab =>
    obtain ⟨fault, e, -, rfl⟩ := hab
    exact absurd (Outcome.register.inj ho) (herr _ _)
  | finished hsent hans =>
    obtain rfl := Outcome.register.inj ho
    rcases hans with ⟨-, rfl⟩ | ⟨es₁, now, s₁, s₂, hserved, hreply⟩
    · exact absurd registerResult_nil (herr _ _)
    · exact ⟨hsent, es₁, now, s₁, s₂, _, hserved, hreply, rfl⟩

/-- A `LookupPeer` whose connection did not fail was served. -/
theorem served_of_lookupPeer {es : List (Event κ)} {s : State κ} (hinv : Inv room es s) {k : κ}
    {peerID : Bytes} {o : Outcome} (h : s.client k = .returned (.lookupPeer peerID) o)
    (hdrop : .drop k ∉ es) (habort : ∀ fault e, .abort k fault e ∉ es) :
    ∃ es₁ now s₁ s₂ reply, ServedAt room es k es₁ now s₁ s₂ ∧
      handleConnection s₁.peers now (.ofBytes (Call.lookupPeer peerID).request) =
        (s₂.peers, reply) ∧ o = .lookupPeer (lookupPeerResult (.ofBytes reply)) := by
  have hlink := hinv.link k
  rw [h] at hlink
  generalize s.conn k = cn at hlink
  cases hlink with
  | aborted hab =>
    obtain ⟨fault, e, hmem, -⟩ := hab
    exact absurd hmem (habort fault e)
  | finished _ hans =>
    rcases hans with ⟨hmem, -⟩ | ⟨es₁, now, s₁, s₂, hserved, hreply⟩
    · exact absurd hmem hdrop
    · exact ⟨es₁, now, s₁, s₂, _, hserved, hreply, rfl⟩

/-- The call of a registration that has succeeded states its own length. -/
theorem Inv.fits_of_succeeded (hroom : maxBody + room < 2 ^ 32) {es : List (Event κ)} {s : State κ}
    (hinv : Inv room es s) {k : κ} {peer : PeerInfo}
    (hact : .registered k peer ∈ trace (State.step room) State.observe .start es)
    (hok : s.succeeded k = true) :
    (Call.register peer.id peer.publicAddr peer.localAddr).Fits := by
  have hcall := hinv.acts k peer hact
  rw [State.succeeded] at hok
  split at hok
  · next c hcl =>
    rw [hcl] at hcall
    obtain rfl := Option.some.inj hcall
    exact fits_of_sendable hroom (served_of_register hinv hcl (by simp)).1
  · cases hok

omit [DecidableEq κ] in
/-- If no call has succeeded, there is no registration. -/
theorem latest_of_none {ok : κ → Bool} (h : ∀ k, ok k = false) (peerID : Bytes)
    (acts : List (Act κ)) : latest ok peerID acts = none := by
  induction acts using List.reverseRecOn with
  | nil => rfl
  | append_singleton acts act ih =>
    cases act with
    | registered k peer =>
      rw [latest_registered, if_neg (by simp [h k]), ih]
    | swept now => rw [latest_swept, ih, Option.filter_none]

end FileSync.Signaling
