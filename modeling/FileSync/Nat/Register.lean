import FileSync.Nat.Signaling

/-!
# Nat — the register message

`handleRegister` of `internal/nat/signaling.go` goes through the body with a cursor, and each of its
slice expressions has a check in front of it.  `handleRegisterCursor` has the cursor, the checks and
the slices; `handleRegisterCursor_eq` says that it gives what `handleRegister` of the server does,
so no slice is out of range.  `registers_iff` says which bodies enter a peer: three fields, each
behind its length in 16 bits, and whatever follows them.
-/

namespace FileSync.Signaling
open Binary

/-- `Read public address` and `Read local address`: the field at the cursor, and the cursor behind
it. -/
def readAt (body : Bytes) (pos : ℕ) : Go (Option (Bytes × ℕ)) :=
  if pos + 2 > body.length then .ok none
  else do
    let len ← Go.orPanic (slice body pos ↑(pos + 2))
    let pos := pos + 2
    if pos + uint16 len > body.length then .ok none
    else do
      let field ← Go.orPanic (slice body pos ↑(pos + uint16 len))
      .ok (some (field, pos + uint16 len))

/-- `handleRegister` from the public address on. -/
def registerAddrs (peers : Peers) (now : ℤ) (body peerID : Bytes) (pos : ℕ) :
    Go (Peers × Bytes) := do
  match ← readAt body pos with
  | none => .ok (peers, sendError .invalidPublicAddr)
  | some (publicAddr, pos) =>
    match ← readAt body pos with
    | none => .ok (peers, sendError .invalidLocalAddr)
    | some (localAddr, _) =>
      .ok (peers.insert peerID ⟨peerID, publicAddr, localAddr, now⟩, sendRegisterAck peerID)

/-- `handleRegister`, with its cursor. -/
def handleRegisterCursor (peers : Peers) (now : ℤ) (body : Bytes) : Go (Peers × Bytes) :=
  if body.length < 6 then .ok (peers, sendError .invalidRegister)
  else do
    -- The length of the peer ID has no check of its own.
    let idLen ← Go.orPanic (slice body 0 2)
    if 2 + uint16 idLen > body.length then .ok (peers, sendError .invalidPeerID)
    else do
      let peerID ← Go.orPanic (slice body 2 ↑(2 + uint16 idLen))
      registerAddrs peers now body peerID (2 + uint16 idLen)

/-! ### The cursor -/

section Cursor
variable {body field tail : Bytes} {pos : ℕ}

theorem readAt_cut (hpos : pos ≤ body.length) (h : Cut (body.drop pos)) :
    readAt body pos = .ok none := by
  generalize hrest : body.drop pos = rest at h
  have hlen := congrArg List.length hrest
  rw [List.length_drop] at hlen
  cases h with
  | length rest hlt => exact if_pos (by omega)
  | value len rest h₂ hlt =>
    rw [List.length_append, h₂] at hlen
    have hs := slice_of_drop hrest hpos
    rw [h₂] at hs
    rw [readAt, if_neg (by omega), hs, Go.orPanic_some, Go.ok_bind]
    exact if_pos (by omega)

theorem readAt_putField (hpos : pos ≤ body.length) (hfield : field.length < 2 ^ 16)
    (h : body.drop pos = putField field ++ tail) :
    readAt body pos = .ok (some (field, pos + 2 + field.length)) := by
  obtain ⟨hlen, hvalue, -, hle⟩ := slice_field h hpos
  have hn : uint16 (putUint16 field.length) = field.length := by
    rw [uint16_putUint16, Nat.mod_eq_of_lt hfield]
  simp only [readAt, if_neg (show ¬ pos + 2 > body.length by omega), hlen, hn, hvalue,
    if_neg (show ¬ pos + 2 + field.length > body.length by omega), Go.orPanic_some, Go.ok_bind]

/-- A field at the cursor, read by it and from what is left. -/
theorem readAt_eq (hpos : pos ≤ body.length) :
    (readAt body pos = .ok none ∧ readField (body.drop pos) = none) ∨
      ∃ field pos', pos' ≤ body.length ∧ readAt body pos = .ok (some (field, pos')) ∧
        readField (body.drop pos) = some (field, body.drop pos') := by
  rcases cut_or_putField (body.drop pos) with hcut | ⟨field, rest, hfield, h⟩
  · exact .inl ⟨readAt_cut hpos hcut, readField_of_cut hcut⟩
  · obtain ⟨-, -, hrest, hle⟩ := slice_field h hpos
    refine .inr ⟨field, pos + 2 + field.length, hle, readAt_putField hpos hfield h, ?_⟩
    rw [h, hrest, readField_putField hfield]

theorem registerAddrs_eq (peers : Peers) (now : ℤ) (peerID : Bytes) (hpos : pos ≤ body.length) :
    registerAddrs peers now body peerID pos =
      .ok (match readField (body.drop pos) with
        | none => (peers, sendError .invalidPublicAddr)
        | some (publicAddr, rest) =>
          match readField rest with
          | none => (peers, sendError .invalidLocalAddr)
          | some (localAddr, _) =>
            (peers.insert peerID ⟨peerID, publicAddr, localAddr, now⟩,
              sendRegisterAck peerID)) := by
  rcases readAt_eq hpos with ⟨hat, hread⟩ | ⟨publicAddr, q, hq, hat, hread⟩
  · rw [registerAddrs, hat, hread]
    rfl
  rcases readAt_eq hq with ⟨hat', hread'⟩ | ⟨localAddr, r, -, hat', hread'⟩
  · simp only [registerAddrs, hat, hread, hat', hread', Go.ok_bind]
  · simp only [registerAddrs, hat, hread, hat', hread', Go.ok_bind]

/-- **The cursor stays in the body.**  No slice is out of range, and the fields are those that are
read one after the other. -/
theorem handleRegisterCursor_eq (peers : Peers) (now : ℤ) (body : Bytes) :
    handleRegisterCursor peers now body = .ok (handleRegister peers now body) := by
  rcases Nat.lt_or_ge body.length 6 with hlt | h
  · rw [handleRegisterCursor, handleRegister, if_pos hlt, if_pos hlt]
  rw [handleRegisterCursor, handleRegister, if_neg (Nat.not_lt.2 h), if_neg (Nat.not_lt.2 h)]
  rcases cut_or_putField body with hcut | ⟨peerID, rest, hid, hbody⟩
  · rw [readField_of_cut hcut]
    cases hcut with
    | length body hlt => omega
    | value len body h₂ hlt =>
      have hs : slice (len ++ body) 0 2 = some len := by
        simpa [h₂] using slice_of_drop (List.drop_zero (l := len ++ body)) (Nat.zero_le _)
      rw [hs, Go.orPanic_some, Go.ok_bind, if_pos (by rw [List.length_append, h₂]; omega)]
  · obtain ⟨hlen, hvalue, hrest, hle⟩ :=
      slice_field (show body.drop 0 = putField peerID ++ rest from hbody) (Nat.zero_le _)
    rw [Nat.zero_add] at hlen hvalue hrest hle
    have hn : uint16 (putUint16 peerID.length) = peerID.length := by
      rw [uint16_putUint16, Nat.mod_eq_of_lt hid]
    have hread : readField body = some (peerID, rest) := by rw [hbody, readField_putField hid]
    have hlen' : slice body 0 2 = some (putUint16 peerID.length) := hlen
    have hvalue' : slice body 2 ↑(2 + peerID.length) = some peerID := hvalue
    have haddrs := registerAddrs_eq peers now peerID hle
    rw [hrest] at haddrs
    rw [hread, hlen', Go.orPanic_some, Go.ok_bind, hn, if_neg (Nat.not_lt.2 hle), hvalue',
      Go.orPanic_some, Go.ok_bind]
    exact haddrs

end Cursor

/-! ### The grammar -/

/-- The body has three fields, and any bytes behind them. -/
def Registration (body peerID publicAddr localAddr : Bytes) : Prop :=
  peerID.length < 2 ^ 16 ∧ publicAddr.length < 2 ^ 16 ∧ localAddr.length < 2 ^ 16 ∧
    ∃ extra, body = registerBody peerID publicAddr localAddr ++ extra

/-- The handler has entered the peer, has left every other one, and says so. -/
def Enters (peers : Peers) (now : ℤ) (out : Peers × Bytes) (peerID publicAddr localAddr : Bytes) :
    Prop :=
  out.1.lookup peerID = some ⟨peerID, publicAddr, localAddr, now⟩ ∧
    (∀ other, other ≠ peerID → out.1.lookup other = peers.lookup other) ∧
    out.2 = sendRegisterAck peerID

theorem Registration.length_le {body peerID publicAddr localAddr : Bytes}
    (h : Registration body peerID publicAddr localAddr) :
    6 + peerID.length + publicAddr.length + localAddr.length ≤ body.length := by
  obtain ⟨-, -, -, extra, rfl⟩ := h
  rw [List.length_append, length_registerBody]
  exact Nat.le_add_right _ _

theorem handleRegister_registration {body peerID publicAddr localAddr : Bytes}
    (h : Registration body peerID publicAddr localAddr) (peers : Peers) (now : ℤ) :
    handleRegister peers now body =
      (peers.insert peerID ⟨peerID, publicAddr, localAddr, now⟩, sendRegisterAck peerID) := by
  obtain ⟨hid, hpub, hloc, extra, rfl⟩ := h
  rw [handleRegister, List.length_append, length_registerBody, if_neg (by omega), registerBody,
    List.append_assoc, List.append_assoc, readField_putField hid]
  simp only [readField_putField hpub, readField_putField hloc]

/-- The handler refuses and leaves the map, or the body is a registration. -/
theorem handleRegister_cases (peers : Peers) (now : ℤ) (body : Bytes) :
    (∃ r, handleRegister peers now body = (peers, sendError r)) ∨
      ∃ peerID publicAddr localAddr, Registration body peerID publicAddr localAddr := by
  rw [handleRegister]
  split
  · exact .inl ⟨_, rfl⟩
  rcases cut_or_putField body with hcut | ⟨peerID, rest, hid, rfl⟩
  · rw [readField_of_cut hcut]
    exact .inl ⟨_, rfl⟩
  rw [readField_putField hid]
  rcases cut_or_putField rest with hcut | ⟨publicAddr, rest, hpub, rfl⟩
  · simp only [readField_of_cut hcut]
    exact .inl ⟨_, rfl⟩
  simp only [readField_putField hpub]
  rcases cut_or_putField rest with hcut | ⟨localAddr, extra, hloc, rfl⟩
  · rw [readField_of_cut hcut]
    exact .inl ⟨_, rfl⟩
  refine .inr ⟨peerID, publicAddr, localAddr, hid, hpub, hloc, extra, ?_⟩
  rw [registerBody, List.append_assoc, List.append_assoc]

theorem enters_insert (peers : Peers) (now : ℤ) (peerID publicAddr localAddr : Bytes) :
    Enters peers now
      (peers.insert peerID ⟨peerID, publicAddr, localAddr, now⟩, sendRegisterAck peerID)
      peerID publicAddr localAddr :=
  ⟨AList.lookup_insert _, fun _ hne => AList.lookup_insert_ne hne, rfl⟩

/-- What was entered can be read off the outcome. -/
theorem Enters.unique {peers : Peers} {now : ℤ} {out : Peers × Bytes}
    {peerID publicAddr localAddr peerID' publicAddr' localAddr' : Bytes}
    (h : Enters peers now out peerID publicAddr localAddr)
    (h' : Enters peers now out peerID' publicAddr' localAddr') :
    peerID = peerID' ∧ publicAddr = publicAddr' ∧ localAddr = localAddr' := by
  have hid : peerID = peerID' := congrArg (List.drop 5) (h.2.2.symm.trans h'.2.2)
  subst hid
  have hpeer := Option.some.inj (h.1.symm.trans h'.1)
  rw [PeerInfo.mk.injEq] at hpeer
  exact ⟨rfl, hpeer.2.1, hpeer.2.2.1⟩

/-- **Which bodies register.**  The handler makes no access out of range.  It enters a peer exactly
if the body is a registration of it, and any other body is an error and leaves the map. -/
theorem registers_iff (peers : Peers) (now : ℤ) (body : Bytes) :
    ∃ out, handleRegisterCursor peers now body = .ok out ∧
      (∀ peerID publicAddr localAddr, Enters peers now out peerID publicAddr localAddr ↔
        Registration body peerID publicAddr localAddr) ∧
      ((¬ ∃ peerID publicAddr localAddr, Registration body peerID publicAddr localAddr) →
        out.1 = peers ∧ ∃ r, out.2 = sendError r) := by
  refine ⟨_, handleRegisterCursor_eq peers now body, ?_⟩
  have hregistered : ∀ {peerID publicAddr localAddr : Bytes},
      Registration body peerID publicAddr localAddr →
        Enters peers now (handleRegister peers now body) peerID publicAddr localAddr := by
    intro peerID publicAddr localAddr h
    rw [handleRegister_registration h]
    exact enters_insert peers now peerID publicAddr localAddr
  rcases handleRegister_cases peers now body with ⟨r, hr⟩ | ⟨peerID, publicAddr, localAddr, h⟩
  · refine ⟨fun peerID publicAddr localAddr => ⟨fun henters => ?_, hregistered⟩, fun _ => ?_⟩
    · have hack := henters.2.2
      rw [hr] at hack
      exact absurd (List.cons.inj hack).1 (by decide)
    · rw [hr]
      exact ⟨rfl, r, rfl⟩
  · refine ⟨fun peerID' publicAddr' localAddr' => ⟨fun henters => ?_, hregistered⟩, fun hnone => ?_⟩
    · obtain ⟨rfl, rfl, rfl⟩ := (hregistered h).unique henters
      exact h
    · exact absurd ⟨peerID, publicAddr, localAddr, h⟩ hnone

end FileSync.Signaling
