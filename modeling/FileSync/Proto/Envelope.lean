import FileSync.Proto
import FileSync.Support.Binary
import Mathlib.Data.List.Forall2
import Mathlib.Logic.Equiv.Nat

/-!
# Proto — Envelope

How messages are framed on a stream: `WriteEnvelope` and `ReadEnvelope`.

* The encoding of messages is a parameter, `Codec`; what is assumed of it is `Codec.Inverse`, that
  decoding undoes an encoding that succeeded.
* `readEnvelope_frame_iff`: a frame is read back whole exactly when its data are within
  `maxMessageSize`.  The writer checks no size, and the length it writes is cut to 32 bits.
* `readAll_stream_iff` carries this over a stream of frames, by induction on the messages.
* `stream_agreement_iff`: over any sequence of messages that were all written without error, the
  reader stays in step with the writer if and only if every encoded envelope is within that size.
-/

namespace FileSync.Proto

/-- `proto.Envelope`. -/
structure Envelope where
  type : MessageType
  requestId : UInt64
  payload : Bytes
deriving DecidableEq

/-- `proto.Marshal` of a message, and `proto.Marshal` and `proto.Unmarshal` of an envelope. -/
structure Codec (μ : Type) where
  marshal : μ → Except Err Bytes
  marshalEnvelope : Envelope → Except Err Bytes
  unmarshalEnvelope : Bytes → Except Err Envelope

/-- The arguments of one `WriteEnvelope`. -/
structure Message (μ : Type) where
  msgType : MessageType
  requestID : UInt64
  msg : μ

/-- The largest message `ReadEnvelope` takes, 16 MB. -/
def maxMessageSize : ℕ := 16 * 1024 * 1024

namespace Codec

variable {μ : Type} (codec : Codec μ)

def writeEnvelope (w : Sink) (m : Message μ) : Except Err Sink :=
  match codec.marshal m.msg with
  | .error e => .error (.wrap "marshaling payload" e)
  | .ok payload =>
    match codec.marshalEnvelope ⟨m.msgType, m.requestID, payload⟩ with
    | .error e => .error (.wrap "marshaling envelope" e)
    | .ok data =>
      match w.write (Binary.putUint32 data.length) with
      | .error e => .error (.wrap "writing length" e)
      | .ok w =>
        match w.write data with
        | .error e => .error (.wrap "writing data" e)
        | .ok w => .ok w

def readEnvelope (r : Reader) : Except Err Envelope × Reader :=
  match r.readFull 4 with
  | ((_, some e), r) => (.error (.wrap "reading length" e), r)
  | ((lenBuf, none), r) =>
    let length := Binary.uint32 lenBuf
    if length > maxMessageSize then
      (.error (.text ("message too large: " ++ toString length ++ " bytes")), r)
    else
      match r.readFull length with
      | ((_, some e), r) => (.error (.wrap "reading data" e), r)
      | ((data, none), r) =>
        match codec.unmarshalEnvelope data with
        | .error e => (.error (.wrap "unmarshaling envelope" e), r)
        | .ok env => (.ok env, r)

/-- One `WriteEnvelope` after the other, up to the first that fails. -/
def writeAll (w : Sink) : List (Message μ) → Except Err Sink
  | [] => .ok w
  | m :: ms =>
    match codec.writeEnvelope w m with
    | .error e => .error e
    | .ok w => writeAll w ms

/-- `n` calls of `ReadEnvelope`, up to the first that fails. -/
def readAll (r : Reader) : ℕ → Except Err (List Envelope) × Reader
  | 0 => (.ok [], r)
  | n + 1 =>
    match codec.readEnvelope r with
    | (.error e, r) => (.error e, r)
    | (.ok env, r) =>
      match readAll r n with
      | (.error e, r) => (.error e, r)
      | (.ok envs, r) => (.ok (env :: envs), r)

/-- What is assumed of the encoding: decoding undoes it. -/
def Inverse : Prop :=
  ∀ env data, codec.marshalEnvelope env = .ok data → codec.unmarshalEnvelope data = .ok env

/-- The envelope of a message and its encoding. -/
def Sends (m : Message μ) (p : Envelope × Bytes) : Prop :=
  p.1.type = m.msgType ∧ p.1.requestId = m.requestID ∧ codec.marshal m.msg = .ok p.1.payload ∧
    codec.marshalEnvelope p.1 = .ok p.2

/-- What stands on the stream for the data of one envelope. -/
def frame (data : Bytes) : Bytes := Binary.putUint32 data.length ++ data

/-- The frames of a sequence of envelopes. -/
def stream (sent : List (Envelope × Bytes)) : Bytes := sent.flatMap fun p => frame p.2

@[simp] theorem stream_nil : stream [] = [] := rfl

@[simp] theorem stream_cons (p : Envelope × Bytes) (sent : List (Envelope × Bytes)) :
    stream (p :: sent) = frame p.2 ++ stream sent := rfl

variable {codec}

/-! ### One frame -/

theorem write_eq_ok {w w' : Sink} {p : Bytes} (h : w.write p = .ok w') :
    w'.out = w.out ++ p := by
  rw [Sink.write] at h
  split at h
  · cases h
  · cases h
    rfl

/-- A call that returns `nil` has put one frame on the stream. -/
theorem sends_of_writeEnvelope {w w' : Sink} {m : Message μ}
    (h : codec.writeEnvelope w m = .ok w') :
    ∃ p, codec.Sends m p ∧ w'.out = w.out ++ frame p.2 := by
  rw [writeEnvelope] at h
  split at h
  · cases h
  · next payload hpayload =>
    split at h
    · cases h
    · next data hdata =>
      split at h
      · cases h
      · next w₁ hlen =>
        split at h
        · cases h
        · next w₂ hput =>
          cases h
          refine ⟨(⟨m.msgType, m.requestID, payload⟩, data), ⟨rfl, rfl, hpayload, hdata⟩, ?_⟩
          rw [write_eq_ok hput, write_eq_ok hlen, List.append_assoc, frame]

/-- The two reads of a call that finds a frame: the length, cut to 32 bits, and as many bytes. -/
theorem readEnvelope_frame (data rest : Bytes) (f : Option Err) :
    codec.readEnvelope ⟨frame data ++ rest, f⟩ =
      if data.length % 2 ^ 32 > maxMessageSize then
        (.error (.text ("message too large: " ++ toString (data.length % 2 ^ 32) ++ " bytes")),
          ⟨data ++ rest, f⟩)
      else
        match codec.unmarshalEnvelope ((data ++ rest).take (data.length % 2 ^ 32)) with
        | .error e => (.error (.wrap "unmarshaling envelope" e),
            ⟨(data ++ rest).drop (data.length % 2 ^ 32), f⟩)
        | .ok env => (.ok env, ⟨(data ++ rest).drop (data.length % 2 ^ 32), f⟩) := by
  have hlen : Reader.readFull ⟨frame data ++ rest, f⟩ 4 =
      ((Binary.putUint32 data.length, none), ⟨data ++ rest, f⟩) := by
    rw [frame, List.append_assoc, Reader.readFull_full (by simp)]
    rfl
  have hle : data.length % 2 ^ 32 ≤ (data ++ rest).length :=
    (Nat.mod_le _ _).trans (by simp)
  simp only [readEnvelope, hlen, Binary.uint32_putUint32, Reader.readFull_full hle]

/-- **A frame is read back whole exactly when its data are within the reader's limit.**  A length
beyond 32 bits may pass the reader's test once it is cut, but then data are left over. -/
theorem readEnvelope_frame_iff {env : Envelope} {data : Bytes}
    (h : codec.unmarshalEnvelope data = .ok env) (rest : Bytes) (f : Option Err) :
    codec.readEnvelope ⟨frame data ++ rest, f⟩ = (.ok env, ⟨rest, f⟩) ↔
      data.length ≤ maxMessageSize := by
  rw [readEnvelope_frame]
  constructor
  · intro hread
    by_cases hmax : data.length % 2 ^ 32 > maxMessageSize
    · rw [if_pos hmax] at hread
      cases hread
    · rw [if_neg hmax] at hread
      have hdrop : (data ++ rest).drop (data.length % 2 ^ 32) = rest := by
        split at hread
        · cases hread
        · exact congrArg (fun q => q.2.rest) hread
      have hlength := congrArg List.length hdrop
      rw [List.length_drop, List.length_append] at hlength
      have := Nat.mod_le data.length (2 ^ 32)
      omega
  · intro hmax
    have hmod : data.length % 2 ^ 32 = data.length :=
      Nat.mod_eq_of_lt (hmax.trans_lt (by decide))
    rw [hmod, if_neg (Nat.not_lt.2 hmax), List.take_left' rfl, List.drop_left' rfl, h]

/-! ### A stream of frames -/

theorem sends_of_writeAll {ms : List (Message μ)} :
    ∀ {w w' : Sink}, codec.writeAll w ms = .ok w' →
      ∃ sent, List.Forall₂ codec.Sends ms sent ∧ w'.out = w.out ++ stream sent := by
  induction ms with
  | nil =>
    intro w w' h
    cases h
    exact ⟨[], .nil, (List.append_nil _).symm⟩
  | cons m ms ih =>
    intro w w' h
    rw [writeAll] at h
    split at h
    · cases h
    · next w₁ hw =>
      obtain ⟨p, hp, hout⟩ := sends_of_writeEnvelope hw
      obtain ⟨sent, hsent, hout'⟩ := ih h
      exact ⟨p :: sent, .cons hp hsent, by rw [hout', hout, stream_cons, List.append_assoc]⟩

theorem unmarshal_of_sends (hinv : codec.Inverse) {ms : List (Message μ)}
    {sent : List (Envelope × Bytes)} (h : List.Forall₂ codec.Sends ms sent) :
    ∀ p ∈ sent, codec.unmarshalEnvelope p.2 = .ok p.1 := by
  induction h with
  | nil => simp
  | cons hp _ ih => exact List.forall_mem_cons.2 ⟨hinv _ _ hp.2.2.2, ih⟩

/-- A call more is the first frame and the calls after it. -/
theorem readAll_succ {r r' : Reader} {n : ℕ} {env : Envelope} {envs : List Envelope} :
    codec.readAll r (n + 1) = (.ok (env :: envs), r') ↔
      ∃ r₁, codec.readEnvelope r = (.ok env, r₁) ∧ codec.readAll r₁ n = (.ok envs, r') := by
  rw [readAll]
  rcases codec.readEnvelope r with ⟨_ | env₁, r₁⟩
  · simp
  · dsimp only
    rcases hrest : codec.readAll r₁ n with ⟨_ | envs₁, r₂⟩
    · simp [hrest]
    · simp only [Prod.mk.injEq, Except.ok.injEq, List.cons.injEq]
      constructor
      · rintro ⟨⟨rfl, rfl⟩, rfl⟩
        exact ⟨r₁, ⟨rfl, rfl⟩, hrest⟩
      · rintro ⟨_, ⟨rfl, rfl⟩, hrest'⟩
        rw [hrest] at hrest'
        cases hrest'
        exact ⟨⟨rfl, rfl⟩, rfl⟩

/-- The reader keeps in step over a whole stream exactly when every frame is within its limit. -/
theorem readAll_stream_iff (f : Option Err) {sent : List (Envelope × Bytes)}
    (h : ∀ p ∈ sent, codec.unmarshalEnvelope p.2 = .ok p.1) :
    (∀ k ≤ sent.length, codec.readAll ⟨stream sent, f⟩ k =
        (.ok ((sent.take k).map Prod.fst), ⟨stream (sent.drop k), f⟩)) ↔
      ∀ p ∈ sent, p.2.length ≤ maxMessageSize := by
  induction sent with
  | nil =>
    refine iff_of_true ?_ (by simp)
    intro k hk
    obtain rfl := Nat.le_zero.1 hk
    rfl
  | cons p sent ih =>
    have hp := h p List.mem_cons_self
    have ih := ih fun q hq => h q (List.mem_cons_of_mem p hq)
    rw [List.forall_mem_cons, ← ih, ← readEnvelope_frame_iff hp (stream sent) f]
    constructor
    · intro hread
      -- One call alone shows where the first frame ends; the others start there.
      obtain ⟨r, hfirst, hr⟩ := readAll_succ.1 (hread 1 (Nat.succ_pos _))
      cases hr
      refine ⟨hfirst, fun k hk => ?_⟩
      obtain ⟨r, hfirst', hrest⟩ := readAll_succ.1 (hread (k + 1) (Nat.succ_le_succ hk))
      cases hfirst.symm.trans hfirst'
      exact hrest
    · rintro ⟨hfirst, hrest⟩ (_ | k) hk
      · rfl
      · exact readAll_succ.2 ⟨_, hfirst, hrest k (Nat.le_of_succ_le_succ hk)⟩

/-! ### An encoding that inverts -/

/-- A number in unary before `rest`. -/
def unary (n : ℕ) (rest : Bytes) : Bytes := List.replicate n 1 ++ 0 :: rest

def ofUnary (data : Bytes) : ℕ × Bytes :=
  let n := (data.takeWhile (· = 1)).length
  (n, data.drop (n + 1))

@[simp] theorem ofUnary_unary (n : ℕ) (rest : Bytes) : ofUnary (unary n rest) = (n, rest) := by
  have htake : (unary n rest).takeWhile (· = 1) = List.replicate n 1 := by
    rw [unary, List.takeWhile_append_of_pos (by simp)]
    simp
  rw [ofUnary, htake, List.length_replicate, unary, List.drop_append]
  simp

/-- The message types in order, then the numbers that name none. -/
def code : MessageType → ℕ
  | .unspecified => 0
  | .handshake => 1
  | .handshakeAck => 2
  | .manifestRequest => 3
  | .manifestResponse => 4
  | .chunkRequest => 5
  | .chunkResponse => 6
  | .error => 7
  | .other number => 8 + Equiv.intEquivNat number

def ofCode : ℕ → MessageType
  | 0 => .unspecified
  | 1 => .handshake
  | 2 => .handshakeAck
  | 3 => .manifestRequest
  | 4 => .manifestResponse
  | 5 => .chunkRequest
  | 6 => .chunkResponse
  | 7 => .error
  | n + 8 => .other (Equiv.intEquivNat.symm n)

theorem ofCode_code (t : MessageType) : ofCode (code t) = t := by
  cases t with
  | other number =>
    rw [code, Nat.add_comm, ofCode, Equiv.symm_apply_apply]
  | _ => rfl

/-- Messages are bytes, and an envelope is its type and its request ID in unary and its payload. -/
def plain : Codec Bytes where
  marshal msg := .ok msg
  marshalEnvelope env := .ok (unary (code env.type) (unary env.requestId.toNat env.payload))
  unmarshalEnvelope data :=
    let (type, data) := ofUnary data
    let (requestId, payload) := ofUnary data
    .ok ⟨ofCode type, .ofNat requestId, payload⟩

theorem plain_inverse : plain.Inverse := by
  rintro env data ⟨⟩
  simp [plain, ofCode_code]

theorem sends_plain {m : Message Bytes} {p : Envelope × Bytes} (h : plain.Sends m p) :
    p = (⟨m.msgType, m.requestID, m.msg⟩,
      unary (code m.msgType) (unary m.requestID.toNat m.msg)) := by
  obtain ⟨⟨type, requestId, payload⟩, data⟩ := p
  obtain ⟨rfl, rfl, hpayload, hdata⟩ := h
  obtain rfl := Except.ok.inj hpayload
  exact congrArg (Prod.mk _) (Except.ok.inj hdata).symm

/-! ### Agreement -/

/-- **Envelope stream agreement.**  Let a sequence of messages be written to one stream by calls
that all return `nil`.  What they added are the frames of the messages' envelopes, and every number
`k` of `ReadEnvelope` calls on it returns the first `k` envelopes and leaves the frames of the
others, if and only if no encoded envelope is larger than `maxMessageSize`. -/
theorem stream_agreement_iff (hinv : codec.Inverse) {ms : List (Message μ)} {w w' : Sink}
    (hw : codec.writeAll w ms = .ok w') (f : Option Err) :
    ∃ sent, List.Forall₂ codec.Sends ms sent ∧ w'.out = w.out ++ stream sent ∧
      ((∀ k ≤ ms.length, codec.readAll ⟨stream sent, f⟩ k =
          (.ok ((sent.take k).map Prod.fst), ⟨stream (sent.drop k), f⟩)) ↔
        ∀ p ∈ sent, p.2.length ≤ maxMessageSize) := by
  obtain ⟨sent, hsent, hout⟩ := sends_of_writeAll hw
  refine ⟨sent, hsent, hout, ?_⟩
  rw [hsent.length_eq]
  exact readAll_stream_iff f (unmarshal_of_sends hinv hsent)

theorem stream_agreement_iff_two :
    ∃ w', plain.writeAll .buffer [⟨.handshake, 1, [7, 8]⟩, ⟨.error, 0, []⟩] = .ok w' ∧
      plain.readAll ⟨w'.out, none⟩ 2 =
        (.ok [⟨.handshake, 1, [7, 8]⟩, ⟨.error, 0, []⟩], ⟨[], none⟩) := by
  obtain ⟨w', hw⟩ : ∃ w', plain.writeAll .buffer
      [⟨.handshake, 1, [7, 8]⟩, ⟨.error, 0, []⟩] = .ok w' := ⟨_, rfl⟩
  refine ⟨w', hw, ?_⟩
  obtain ⟨sent, hsent, hout, hiff⟩ := stream_agreement_iff plain_inverse hw none
  -- The two envelopes are those of the messages, so that their sizes can be checked.
  obtain _ | ⟨hp, _ | ⟨hq, _ | _⟩⟩ := hsent
  rw [sends_plain hp, sends_plain hq] at hout hiff
  rw [hout]
  exact hiff.2 (by decide) 2 le_rfl

/-- An envelope of 16 MB and two bytes is sent without an error, and refused by the reader. -/
theorem large_message_refused :
    ∃ w', plain.writeEnvelope .buffer
        ⟨.unspecified, 0, List.replicate maxMessageSize 0⟩ = .ok w' ∧
      plain.readEnvelope ⟨w'.out, none⟩ =
        (.error (.text "message too large: 16777218 bytes"),
          ⟨0 :: 0 :: List.replicate maxMessageSize 0, none⟩) := by
  have hlength : (List.replicate maxMessageSize (0 : UInt8)).length = maxMessageSize :=
    List.length_replicate
  generalize List.replicate maxMessageSize (0 : UInt8) = payload at hlength
  refine ⟨⟨frame (0 :: 0 :: payload), Sink.buffer.fails⟩, rfl, ?_⟩
  have hread := @readEnvelope_frame Bytes plain (0 :: 0 :: payload) [] none
  rw [List.append_nil, List.append_nil] at hread
  rw [hread, List.length_cons, List.length_cons, hlength, if_pos (by decide)]
  rfl

end Codec

end FileSync.Proto
