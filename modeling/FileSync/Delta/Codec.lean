import FileSync.Delta.Refinement
import FileSync.Support.Binary

/-!
# Delta — the encoding

`OpCopy.Encode`, `OpData.Encode`, `Delta.Encode` and `DecodeDelta` of `internal/delta/delta.go`.
The encoder cuts the number of operations and the length of a literal to 32 bits; the decoder stops
at the announced number of operations or at the end of the data, whichever comes first, and passes
over an opcode it does not know.

* `Starts`: what the decoder can find in front of it, an operation, an unknown opcode, or an
  operation that is cut off; nothing else does (`starts_cons`).
* `decodeLoop_cases`, `decodeDelta_cases`: every outcome of the loop and of `DecodeDelta`; no access
  is out of range.
* `decode_encode_iff`: a delta is read back whole exactly when its numbers fit in 32 bits, and
  `generated_survives_iff` says for which inputs of `GenerateDelta` this is so.
-/

namespace FileSync.Deltas
open Binary
open Sha256 (Digest Hasher sum256)

/-! ### `Encode` -/

def DeltaOp.encode : DeltaOp → Bytes
  | .copy blockIndex => 0x01 :: putUint32 blockIndex.toNat
  | .data bytes => 0x02 :: (putUint32 bytes.length ++ bytes)

/-- Header: fileSize(8) + hash(32) + numOps(4). -/
def Delta.header (d : Delta) : Bytes :=
  putUint64 d.newFileSize.toUInt64.toNat ++ (d.newFileHash.bytes ++ putUint32 d.ops.length)

def Delta.encode (d : Delta) : Bytes := d.header ++ d.ops.flatMap DeltaOp.encode

/-! ### `DecodeDelta` -/

/-- `copy(hash[:], src)` into a zero hash. -/
def copyHash (src : Bytes) : Digest :=
  ⟨copyInto (List.replicate 32 0) src, (length_copyInto _ src).trans List.length_replicate⟩

/-- The operation at `offset`, if its opcode is known, and the offset behind it. -/
def decodeOp (data : Bytes) (offset : ℕ) : Go (Option DeltaOp × ℕ) := do
  let opcode ← Go.orPanic (index data offset)
  let offset := offset + 1
  if opcode = 0x01 then
    -- Copy
    if offset + 4 > data.length then .error (.err (.text "truncated copy op"))
    else do
      let blockIdx ← Go.orPanic (slice data offset ↑(offset + 4))
      .ok (some (.copy (UInt32.ofNat (uint32 blockIdx))), offset + 4)
  else if opcode = 0x02 then
    -- Data
    if offset + 4 > data.length then .error (.err (.text "truncated data op length"))
    else do
      let lenBytes ← Go.orPanic (slice data offset ↑(offset + 4))
      let dataLen := uint32 lenBytes
      let offset := offset + 4
      if offset + dataLen > data.length then .error (.err (.text "truncated data op"))
      else do
        let src ← Go.orPanic (slice data offset ↑(offset + dataLen))
        .ok (some (.data (copyInto (List.replicate dataLen 0) src)), offset + dataLen)
  else
    .ok (none, offset)

/-- The loop of `DecodeDelta`, with `n` operations to go. -/
def decodeLoop (data : Bytes) : ℕ → ℕ → List DeltaOp → Go (List DeltaOp)
  | 0, _, ops => .ok ops
  | n + 1, offset, ops =>
    if offset < data.length then do
      let (op, offset) ← decodeOp data offset
      decodeLoop data n offset (ops ++ op.toList)
    else .ok ops

def decodeDelta (data : Bytes) : Go Delta :=
  if data.length < 44 then .error (.err (.text "delta too short"))
  else do
    let size ← Go.orPanic (slice data 0 8)
    let hash ← Go.orPanic (slice data 8 40)
    let numOps ← Go.orPanic (slice data 40 44)
    let ops ← decodeLoop data (uint32 numOps) 44 []
    .ok { ops := ops, newFileSize := (UInt64.ofNat (uint64 size)).toInt64
          newFileHash := copyHash hash, blocksCopied := 0, bytesCopied := 0, bytesLiteral := 0 }

/-! ### One operation -/

/-- The operation fits in its encoding. -/
def DeltaOp.Fits : DeltaOp → Prop
  | .copy _ => True
  | .data d => d.length < 2 ^ 32

instance : DecidablePred DeltaOp.Fits
  | .copy _ => inferInstanceAs (Decidable True)
  | .data d => inferInstanceAs (Decidable (d.length < 2 ^ 32))

/-- The operation at the start of `rest` is cut off by its end. -/
inductive CutOff : Bytes → Prop
  | copy (body : Bytes) (h : body.length < 4) : CutOff (0x01 :: body)
  | dataLength (body : Bytes) (h : body.length < 4) : CutOff (0x02 :: body)
  | data (len body : Bytes) (h₄ : len.length = 4) (h : body.length < uint32 len) :
      CutOff (0x02 :: (len ++ body))

@[simp] theorem length_encode_copy (i : UInt32) : (DeltaOp.copy i).encode.length = 5 := rfl

@[simp] theorem length_encode_data (d : Bytes) : (DeltaOp.data d).encode.length = 5 + d.length := by
  simp [DeltaOp.encode]
  omega

theorem copyInto_replicate {n : ℕ} {src : Bytes} (h : src.length = n) :
    copyInto (List.replicate n 0) src = src := by
  subst h
  simp [copyInto]

section Op
variable {data tail : Bytes} {offset : ℕ}

theorem drop_succ {c : UInt8} (h : data.drop offset = c :: tail) :
    data.drop (offset + 1) = tail ∧ offset + 1 + tail.length = data.length := by
  have hlen : (data.drop offset).length = tail.length + 1 := by rw [h]; rfl
  rw [List.length_drop] at hlen
  refine ⟨?_, by omega⟩
  rw [← List.drop_drop, h]
  rfl

/-- An encoded operation is read back. -/
theorem decodeOp_encode {o : DeltaOp} (ho : o.Fits) (h : data.drop offset = o.encode ++ tail) :
    decodeOp data offset = .ok (some o, offset + o.encode.length) := by
  cases o with
  | copy i =>
    have hc : data.drop offset = 0x01 :: (putUint32 i.toNat ++ tail) := h
    obtain ⟨hbody, hlen⟩ := drop_succ hc
    rw [List.length_append, length_putUint32] at hlen
    have hs := slice_of_drop hbody (by omega)
    rw [length_putUint32] at hs
    have hi : uint32 (putUint32 i.toNat) = i.toNat := by
      rw [uint32_putUint32, Nat.mod_eq_of_lt i.toNat_lt]
    simp only [decodeOp, index_of_drop hc, Go.orPanic_some, Go.ok_bind, if_true, hs, hi,
      if_neg (show ¬ offset + 1 + 4 > data.length by omega), UInt32.ofNat_toNat,
      length_encode_copy]
  | data d =>
    have hc : data.drop offset = 0x02 :: (putUint32 d.length ++ (d ++ tail)) := by
      rw [h, DeltaOp.encode, List.cons_append, List.append_assoc]
    obtain ⟨hbody, hlen⟩ := drop_succ hc
    rw [List.length_append, List.length_append, length_putUint32] at hlen
    have hs := slice_of_drop hbody (by omega)
    rw [length_putUint32] at hs
    have hn : uint32 (putUint32 d.length) = d.length := by
      rw [uint32_putUint32, Nat.mod_eq_of_lt ho]
    have hrest := drop_behind hbody
    rw [length_putUint32] at hrest
    have hs' := slice_of_drop hrest (by omega)
    simp only [decodeOp, index_of_drop hc, Go.orPanic_some, Go.ok_bind, hs, hn, hs', if_true,
      if_neg (show ¬ (0x02 : UInt8) = 0x01 by decide),
      if_neg (show ¬ offset + 1 + 4 > data.length by omega),
      if_neg (show ¬ offset + 1 + 4 + d.length > data.length by omega),
      copyInto_replicate rfl, length_encode_data]
    rw [show offset + 1 + 4 + d.length = offset + (5 + d.length) by omega]

/-- An unknown opcode is passed over. -/
theorem decodeOp_unknown {c : UInt8} (h₁ : c ≠ 0x01) (h₂ : c ≠ 0x02)
    (h : data.drop offset = c :: tail) : decodeOp data offset = .ok (none, offset + 1) := by
  simp only [decodeOp, index_of_drop h, Go.orPanic_some, Go.ok_bind, if_neg h₁, if_neg h₂]

/-- An operation that is cut off is an error. -/
theorem decodeOp_cutOff (h : CutOff (data.drop offset)) :
    ∃ e, decodeOp data offset = .error (.err e) := by
  generalize hrest : data.drop offset = rest at h
  cases h with
  | copy body hlt =>
    obtain ⟨-, hlen⟩ := drop_succ hrest
    refine ⟨.text "truncated copy op", ?_⟩
    simp only [decodeOp, index_of_drop hrest, Go.orPanic_some, Go.ok_bind, if_true,
      if_pos (show offset + 1 + 4 > data.length by omega)]
  | dataLength body hlt =>
    obtain ⟨-, hlen⟩ := drop_succ hrest
    refine ⟨.text "truncated data op length", ?_⟩
    simp only [decodeOp, index_of_drop hrest, Go.orPanic_some, Go.ok_bind, if_true,
      if_neg (show ¬ (0x02 : UInt8) = 0x01 by decide),
      if_pos (show offset + 1 + 4 > data.length by omega)]
  | data len body h₄ hlt =>
    obtain ⟨hbody, hlen⟩ := drop_succ hrest
    rw [List.length_append, h₄] at hlen
    have hs := slice_of_drop hbody (by omega)
    rw [h₄] at hs
    refine ⟨.text "truncated data op", ?_⟩
    simp only [decodeOp, index_of_drop hrest, Go.orPanic_some, Go.ok_bind, hs, if_true,
      if_neg (show ¬ (0x02 : UInt8) = 0x01 by decide),
      if_neg (show ¬ offset + 1 + 4 > data.length by omega),
      if_pos (show offset + 1 + 4 + uint32 len > data.length by omega)]

end Op

/-- What can stand at the start of the data. -/
inductive Starts : Bytes → Prop
  | op (o : DeltaOp) (tail : Bytes) (ho : o.Fits) : Starts (o.encode ++ tail)
  | unknown (c : UInt8) (tail : Bytes) (h₁ : c ≠ 0x01) (h₂ : c ≠ 0x02) : Starts (c :: tail)
  | cutOff (rest : Bytes) (h : CutOff rest) : Starts rest

/-- Data that are not at their end start in one of the three ways. -/
theorem starts_cons (c : UInt8) (body : Bytes) : Starts (c :: body) := by
  by_cases h₁ : c = 0x01
  · subst h₁
    by_cases hlen : body.length < 4
    · exact .cutOff _ (.copy body hlen)
    · have h₄ : (body.take 4).length = 4 := by rw [List.length_take]; omega
      have hcopy : 0x01 :: body =
          (DeltaOp.copy (UInt32.ofNat (uint32 (body.take 4)))).encode ++ body.drop 4 := by
        rw [DeltaOp.encode, UInt32.toNat_ofNat', Nat.mod_eq_of_lt (uint32_lt h₄),
          putUint32_uint32 h₄, List.cons_append, List.take_append_drop]
      rw [hcopy]
      exact .op _ _ trivial
  · by_cases h₂ : c = 0x02
    · subst h₂
      by_cases hlen : body.length < 4
      · exact .cutOff _ (.dataLength body hlen)
      · have h₄ : (body.take 4).length = 4 := by rw [List.length_take]; omega
        by_cases hdata : (body.drop 4).length < uint32 (body.take 4)
        · have := CutOff.data (body.take 4) (body.drop 4) h₄ hdata
          rw [List.take_append_drop] at this
          exact .cutOff _ this
        · -- the literal, as long as its length field says
          generalize hp : (body.drop 4).take (uint32 (body.take 4)) = p
          have hplen : p.length = uint32 (body.take 4) := by rw [← hp, List.length_take]; omega
          have hsplit : 0x02 :: body =
              (DeltaOp.data p).encode ++ (body.drop 4).drop (uint32 (body.take 4)) := by
            rw [DeltaOp.encode, hplen, putUint32_uint32 h₄, List.cons_append, List.append_assoc,
              ← hp, List.take_append_drop, List.take_append_drop]
          rw [hsplit]
          exact .op _ _ (hplen.trans_lt (uint32_lt h₄))
    · exact .unknown c body h₁ h₂

/-! ### The loop -/

/-- Within the first `n` operations of the data, one is cut off. -/
inductive Cut : ℕ → Bytes → Prop
  | here (n : ℕ) (rest : Bytes) (h : CutOff rest) : Cut (n + 1) rest
  | op (n : ℕ) (o : DeltaOp) (tail : Bytes) (ho : o.Fits) (h : Cut n tail) :
      Cut (n + 1) (o.encode ++ tail)
  | unknown (n : ℕ) (c : UInt8) (tail : Bytes) (h₁ : c ≠ 0x01) (h₂ : c ≠ 0x02) (h : Cut n tail) :
      Cut (n + 1) (c :: tail)

theorem encode_ne_nil (o : DeltaOp) : o.encode ≠ [] := by
  cases o <;> exact List.cons_ne_nil _ _

theorem CutOff.ne_nil {rest : Bytes} (h : CutOff rest) : rest ≠ [] := by
  cases h <;> exact List.cons_ne_nil _ _

/-- One round of the loop when there are data. -/
theorem decodeLoop_succ {data : Bytes} {offset : ℕ} (h : data.drop offset ≠ []) (n : ℕ)
    (ops : List DeltaOp) : decodeLoop data (n + 1) offset ops =
      decodeOp data offset >>= fun p => decodeLoop data n p.2 (ops ++ p.1.toList) := by
  have hlt : offset < data.length := by
    by_contra hle
    exact h (List.drop_eq_nil_of_le (Nat.not_lt.1 hle))
  rw [decodeLoop, if_pos hlt]

/-- The loop reads back operations put one behind the other. -/
theorem decodeLoop_encode {data tail : Bytes} :
    ∀ (ops : List DeltaOp) (offset : ℕ) (acc : List DeltaOp), (∀ o ∈ ops, o.Fits) →
      data.drop offset = ops.flatMap DeltaOp.encode ++ tail →
      decodeLoop data ops.length offset acc = .ok (acc ++ ops) := by
  intro ops
  induction ops with
  | nil =>
    intro offset acc _ _
    rw [List.append_nil]
    rfl
  | cons o ops ih =>
    intro offset acc hfit h
    rw [List.flatMap_cons, List.append_assoc] at h
    have hne : data.drop offset ≠ [] := by
      rw [h]
      exact List.append_ne_nil_of_left_ne_nil (encode_ne_nil o) _
    rw [List.length_cons, decodeLoop_succ hne,
      decodeOp_encode (hfit o List.mem_cons_self) h, Go.ok_bind,
      ih _ _ (fun o' ho' => hfit o' (List.mem_cons_of_mem o ho')) (drop_behind h)]
    simp

/-- An operation that is cut off ends the loop with an error. -/
theorem decodeLoop_cut {data : Bytes} {n : ℕ} {rest : Bytes} (h : Cut n rest) :
    ∀ (offset : ℕ) (acc : List DeltaOp), data.drop offset = rest →
      ∃ e, decodeLoop data n offset acc = .error (.err e) := by
  induction h with
  | here n rest h =>
    intro offset acc hrest
    obtain ⟨e, he⟩ := decodeOp_cutOff (hrest ▸ h)
    refine ⟨e, ?_⟩
    rw [decodeLoop_succ (hrest ▸ h.ne_nil), he]
    rfl
  | op n o tail ho _ ih =>
    intro offset acc hrest
    have hne : data.drop offset ≠ [] := by
      rw [hrest]
      exact List.append_ne_nil_of_left_ne_nil (encode_ne_nil o) _
    rw [decodeLoop_succ hne, decodeOp_encode ho hrest, Go.ok_bind]
    exact ih _ _ (drop_behind hrest)
  | unknown n c tail h₁ h₂ _ ih =>
    intro offset acc hrest
    have hne : data.drop offset ≠ [] := by rw [hrest]; exact List.cons_ne_nil _ _
    rw [decodeLoop_succ hne, decodeOp_unknown h₁ h₂ hrest, Go.ok_bind]
    exact ih _ _ (drop_succ hrest).1

/-- **Every outcome of the loop.**  It returns operations that fit in their encodings, no more than
were announced and with no more literal data than there are bytes; or one is cut off, and it
returns an error. -/
theorem decodeLoop_cases (data : Bytes) :
    ∀ (n offset : ℕ) (acc : List DeltaOp),
      (∃ ops, decodeLoop data n offset acc = .ok (acc ++ ops) ∧ (∀ o ∈ ops, o.Fits) ∧
        ops.length ≤ n ∧ literalCount ops ≤ (data.drop offset).length) ∨
      Cut n (data.drop offset) ∧ ∃ e, decodeLoop data n offset acc = .error (.err e) := by
  intro n
  induction n with
  | zero =>
    intro offset acc
    refine .inl ⟨[], ?_, by simp, le_rfl, Nat.zero_le _⟩
    rw [List.append_nil]
    rfl
  | succ n ih =>
    intro offset acc
    generalize hrest : data.drop offset = rest
    cases rest with
    | nil =>
      refine .inl ⟨[], ?_, by simp, Nat.zero_le _, le_rfl⟩
      rw [decodeLoop, if_neg (Nat.not_lt.2 (List.drop_eq_nil_iff.1 hrest)), List.append_nil]
    | cons c body =>
      generalize hcb : c :: body = rest at hrest
      have hne : data.drop offset ≠ [] := by rw [hrest, ← hcb]; exact List.cons_ne_nil _ _
      rw [decodeLoop_succ hne]
      have hstart : Starts rest := hcb ▸ starts_cons c body
      cases hstart with
      | op o tail ho =>
        rw [decodeOp_encode ho hrest, Go.ok_bind]
        have htail := drop_behind hrest
        rcases ih (offset + o.encode.length) (acc ++ [o]) with ⟨ops, hloop, hfit, hn, hlit⟩ |
          ⟨hcut, herr⟩
        · rw [htail] at hlit
          refine .inl ⟨o :: ops, ?_, ?_, Nat.succ_le_succ hn, ?_⟩
          · rw [List.append_assoc] at hloop
            exact hloop
          · intro o' ho'
            rcases List.mem_cons.1 ho' with rfl | ho'
            · exact ho
            · exact hfit o' ho'
          · rw [← List.singleton_append, literalCount_append, List.length_append]
            refine Nat.add_le_add ?_ hlit
            cases o with
            | copy i => exact Nat.zero_le _
            | data d =>
              rw [literalCount_data, length_encode_data]
              exact Nat.le_add_left _ _
        · rw [htail] at hcut
          exact .inr ⟨.op n o tail ho hcut, herr⟩
      | unknown c tail h₁ h₂ =>
        rw [decodeOp_unknown h₁ h₂ hrest, Go.ok_bind]
        have htail := (drop_succ hrest).1
        rcases ih (offset + 1) (acc ++ []) with ⟨ops, hloop, hfit, hn, hlit⟩ | ⟨hcut, herr⟩
        · rw [List.append_nil] at hloop
          rw [htail] at hlit
          exact .inl ⟨ops, by rw [Option.toList_none, List.append_nil]; exact hloop, hfit,
            Nat.le_succ_of_le hn, Nat.le_succ_of_le hlit⟩
        · rw [htail] at hcut
          exact .inr ⟨.unknown n c tail h₁ h₂ hcut, herr⟩
      | cutOff _ h =>
        obtain ⟨e, he⟩ := decodeOp_cutOff (hrest ▸ h)
        exact .inr ⟨.here n _ h, e, by rw [he]; rfl⟩

/-! ### The header -/

/-- The number of operations the header announces. -/
def announced (b : Bytes) : ℕ := uint32 ((b.drop 40).take 4)

/-- What `DecodeDelta` returns for the header of `b` and the operations `ops`. -/
def fromHeader (b : Bytes) (ops : List DeltaOp) : Delta where
  ops := ops
  newFileSize := (UInt64.ofNat (uint64 (b.take 8))).toInt64
  newFileHash := copyHash ((b.drop 8).take 32)
  blocksCopied := 0
  bytesCopied := 0
  bytesLiteral := 0

/-- A field of the header. -/
theorem slice_header {b : Bytes} {lo hi : ℕ} (h : lo ≤ hi) (hb : hi ≤ b.length) :
    slice b lo hi = some ((b.drop lo).take (hi - lo)) := by
  rw [slice_natCast b h hb, List.drop_take]

theorem decodeDelta_short {b : Bytes} (h : b.length < 44) :
    decodeDelta b = .error (.err (.text "delta too short")) := if_pos h

theorem decodeDelta_eq {b : Bytes} (h : 44 ≤ b.length) :
    decodeDelta b = decodeLoop b (announced b) 44 [] >>= fun ops => .ok (fromHeader b ops) := by
  have h₁ : slice b 0 8 = some (b.take 8) := @slice_header b 0 8 (Nat.zero_le 8) (by omega)
  have h₂ : slice b 8 40 = some ((b.drop 8).take 32) :=
    @slice_header b 8 40 (by decide) (by omega)
  have h₃ : slice b 40 44 = some ((b.drop 40).take 4) :=
    @slice_header b 40 44 (by decide) h
  rw [decodeDelta, if_neg (by omega), h₁, h₂, h₃]
  rfl

theorem length_take_drop {b : Bytes} {lo n : ℕ} (h : lo + n ≤ b.length) :
    ((b.drop lo).take n).length = n := by
  rw [List.length_take, List.length_drop]
  omega

theorem copyHash_bytes {src : Bytes} (h : src.length = 32) : (copyHash src).bytes = src :=
  copyInto_replicate h

/-- The header is written as it was read, if the number of operations is the announced one. -/
theorem header_fromHeader {b : Bytes} (h : 44 ≤ b.length) {ops : List DeltaOp}
    (hn : ops.length = announced b) : (fromHeader b ops).header = b.take 44 := by
  have h₁ : (b.take 8).length = 8 := by rw [List.length_take]; omega
  have h₂ : ((b.drop 8).take 32).length = 32 := length_take_drop (by omega)
  have h₃ : ((b.drop 40).take 4).length = 4 := length_take_drop (by omega)
  have hsize : (fromHeader b ops).newFileSize.toUInt64.toNat = uint64 (b.take 8) := by
    rw [fromHeader, UInt64.toUInt64_toInt64, UInt64.toNat_ofNat', Nat.mod_eq_of_lt (uint64_lt h₁)]
  have hcount : putUint32 (fromHeader b ops).ops.length = (b.drop 40).take 4 := by
    rw [show (fromHeader b ops).ops.length = uint32 ((b.drop 40).take 4) from hn,
      putUint32_uint32 h₃]
  have hhash : (fromHeader b ops).newFileHash.bytes = (b.drop 8).take 32 := copyHash_bytes h₂
  rw [Delta.header, hsize, putUint64_uint64 h₁, hcount, hhash,
    show b.take 44 = b.take (8 + (32 + 4)) from rfl, List.take_add, List.take_add, List.drop_drop]

theorem length_header (d : Delta) : d.header.length = 44 := by
  rw [Delta.header, List.length_append, List.length_append, length_putUint64,
    d.newFileHash.length_bytes, length_putUint32]

/-- What the header of an encoded delta says. -/
theorem header_encode (d : Delta) :
    d.encode.take 8 = putUint64 d.newFileSize.toUInt64.toNat ∧
      (d.encode.drop 8).take 32 = d.newFileHash.bytes ∧
      announced d.encode = d.ops.length % 2 ^ 32 ∧
      d.encode.drop 44 = d.ops.flatMap DeltaOp.encode := by
  have hlen := d.newFileHash.length_bytes
  refine ⟨?_, ?_, ?_, List.drop_left' (length_header d)⟩
  · rw [Delta.encode, Delta.header, List.append_assoc]
    rfl
  · rw [Delta.encode, Delta.header, List.append_assoc, List.drop_left' (length_putUint64 _),
      List.append_assoc, List.take_left' hlen]
  · have hfields : (putUint64 d.newFileSize.toUInt64.toNat ++ d.newFileHash.bytes).length = 40 := by
      rw [List.length_append, length_putUint64, hlen]
    rw [announced, Delta.encode, Delta.header, ← List.append_assoc, List.append_assoc,
      List.drop_left' hfields, List.take_left' (length_putUint32 _), uint32_putUint32]

/-! ### The round trip -/

/-- **Every outcome of `DecodeDelta`**: the header's fields with operations that fit in their
encodings, or an error, for data without a header or with an operation that is cut off. -/
theorem decodeDelta_cases (b : Bytes) :
    (∃ ops, 44 ≤ b.length ∧ decodeDelta b = .ok (fromHeader b ops) ∧ (∀ o ∈ ops, o.Fits) ∧
      ops.length ≤ announced b ∧ literalCount ops ≤ (b.drop 44).length) ∨
    (b.length < 44 ∨ Cut (announced b) (b.drop 44)) ∧ ∃ e, decodeDelta b = .error (.err e) := by
  by_cases hlen : b.length < 44
  · exact .inr ⟨.inl hlen, _, decodeDelta_short hlen⟩
  · have h44 : 44 ≤ b.length := Nat.not_lt.1 hlen
    rw [decodeDelta_eq h44]
    rcases decodeLoop_cases b (announced b) 44 [] with ⟨ops, hloop, hrest⟩ | ⟨hcut, e, he⟩
    · exact .inl ⟨ops, h44, by rw [hloop]; rfl, hrest⟩
    · exact .inr ⟨.inr hcut, e, by rw [he]; rfl⟩

/-- Data that start with the announced operations are accepted. -/
theorem decodeDelta_of_ops {b : Bytes} {ops : List DeltaOp} (h : 44 ≤ b.length)
    (hn : ops.length = announced b) (hfit : ∀ o ∈ ops, o.Fits)
    (hops : ops.flatMap DeltaOp.encode <+: b.drop 44) :
    decodeDelta b = .ok (fromHeader b ops) := by
  obtain ⟨tail, htail⟩ := hops
  rw [decodeDelta_eq h, ← hn, decodeLoop_encode ops 44 [] hfit htail.symm]
  rfl

/-- A delta whose numbers fit in 32 bits is read back, without its statistics. -/
theorem decodeDelta_encode {d : Delta} (hn : d.ops.length < 2 ^ 32) (hfit : ∀ o ∈ d.ops, o.Fits) :
    decodeDelta d.encode =
      .ok { d with blocksCopied := 0, bytesCopied := 0, bytesLiteral := 0 } := by
  obtain ⟨hsize, hhash, hcount, hops⟩ := header_encode d
  have hlen : 44 ≤ d.encode.length := by
    rw [Delta.encode, List.length_append, length_header]
    exact Nat.le_add_right _ _
  rw [Nat.mod_eq_of_lt hn] at hcount
  rw [decodeDelta_of_ops hlen hcount.symm hfit (by rw [hops])]
  have hs : (UInt64.ofNat (uint64 (d.encode.take 8))).toInt64 = d.newFileSize := by
    rw [hsize, uint64_putUint64, Nat.mod_eq_of_lt (UInt64.toNat_lt _), UInt64.ofNat_toNat,
      Int64.toInt64_toUInt64]
  have hh : copyHash ((d.encode.drop 8).take 32) = d.newFileHash := by
    apply Digest.ext_bytes
    rw [hhash, copyHash_bytes d.newFileHash.length_bytes]
  rw [fromHeader, hs, hh]

/-- **The round trip of the encoding.**  A delta of fewer than 2³² operations, none of them with
2³² bytes of literal data or more, is decoded to the same size, hash and operations. -/
theorem decode_encode_round_trip (d : Delta) (hn : d.ops.length < 2 ^ 32)
    (hfit : ∀ p, .data p ∈ d.ops → p.length < 2 ^ 32) :
    ∃ d', decodeDelta d.encode = .ok d' ∧ d'.newFileSize = d.newFileSize ∧
      d'.newFileHash = d.newFileHash ∧ d'.ops = d.ops := by
  have hfit' : ∀ o ∈ d.ops, o.Fits := by
    intro o ho
    cases o with
    | copy i => exact trivial
    | data p => exact hfit p ho
  exact ⟨_, decodeDelta_encode hn hfit', rfl, rfl, rfl⟩

/-- The round trip of a delta with a negative size, an empty literal and a large index. -/
theorem round_trip_of_three_ops :
    let d : Delta := ⟨[.data [], .copy 0xfffffffe, .data [7, 8]], -1, copyHash [9], 1, 2, 3⟩
    ∃ d', decodeDelta d.encode = .ok d' ∧ d'.newFileSize = d.newFileSize ∧
      d'.newFileHash = d.newFileHash ∧ d'.ops = d.ops :=
  decode_encode_round_trip _ (by decide) (by simp)

/-- A delta is read back whole if and only if its numbers fit in 32 bits. -/
theorem decode_encode_iff (d : Delta) :
    (∃ d', decodeDelta d.encode = .ok d' ∧ d'.ops = d.ops) ↔
      d.ops.length < 2 ^ 32 ∧ ∀ o ∈ d.ops, o.Fits := by
  constructor
  · rintro ⟨d', hd', hops⟩
    rcases decodeDelta_cases d.encode with ⟨ops, -, hok, hfit, hn, -⟩ | ⟨-, e, he⟩
    · rw [hok] at hd'
      obtain rfl : fromHeader d.encode ops = d' := Except.ok.inj hd'
      obtain rfl : ops = d.ops := hops
      refine ⟨hn.trans_lt ?_, hfit⟩
      rw [(header_encode d).2.2.1]
      exact Nat.mod_lt _ (Nat.two_pow_pos 32)
    · rw [he] at hd'
      cases hd'
  · rintro ⟨hn, hfit⟩
    exact ⟨_, decodeDelta_encode hn hfit, rfl⟩

/-- The signature of an empty file. -/
def emptySignature (blockSize : Int) : Signature :=
  { blockSize := blockSize, fileSize := 0, blocks := [], weakIndex := fun _ => [] }

theorem scan_emptySignature (blockSize : Int) {n : ℕ} (hn : 0 < n) (new : Bytes) :
    scan (emptySignature blockSize).find n [] new = flushed new :=
  scan_none hn (fun _ => rfl) [] new

/-- **Generated deltas on the wire.**  For every new file and every signature with a block size
from 1 to `MaxBlockSize`, the delta survives its encoding if and only if the scan of the new file
makes fewer than 2³² operations, each with fewer than 2³² literal bytes. -/
theorem generated_survives_iff {sig : Signature} {n fuel : ℕ} (hn : 1 ≤ n)
    (hmax : (n : Int) ≤ maxBlockSize) (hsig : sig.blockSize = n) (pooled new : Bytes)
    (hfuel : new.length < fuel) :
    (∃ d d', generateDelta fuel pooled (Reader.ofBytes new) sig = .ok d ∧
      decodeDelta d.encode = .ok d' ∧ d'.ops = d.ops) ↔
    (scan sig.find n [] new).length < 2 ^ 32 ∧
      ∀ p, .data p ∈ scan sig.find n [] new → p.length < 2 ^ 32 := by
  obtain ⟨d, hd, hops, -⟩ := generateDelta_scan hn hmax hsig pooled new hfuel
  have hiff := decode_encode_iff d
  rw [hops] at hiff
  have hfits : (∀ o ∈ scan sig.find n [] new, o.Fits) ↔
      ∀ p, .data p ∈ scan sig.find n [] new → p.length < 2 ^ 32 := by
    refine ⟨fun h p hp => h _ hp, fun h o ho => ?_⟩
    cases o with
    | copy i => exact trivial
    | data p => exact h p ho
  rw [← hfits, ← hiff]
  constructor
  · rintro ⟨d₁, d', hd₁, hdec, heq⟩
    obtain rfl : d = d₁ := Except.ok.inj (hd.symm.trans hd₁)
    exact ⟨d', hdec, heq.trans hops⟩
  · rintro ⟨d', hdec, heq⟩
    exact ⟨d, d', hd, hdec, heq.trans hops.symm⟩

/-- A file of two bytes without blocks to copy from. -/
theorem generated_survives_small :
    ∃ d d', generateDelta 3 [] (Reader.ofBytes [1, 2]) (emptySignature 1) = .ok d ∧
      decodeDelta d.encode = .ok d' ∧ d'.ops = d.ops := by
  refine (generated_survives_iff le_rfl (by decide)
    (show (emptySignature 1).blockSize = (1 : ℕ) from rfl) [] [1, 2] (by decide)).2 ?_
  rw [scan_emptySignature 1 Nat.one_pos]
  refine ⟨by decide, ?_⟩
  intro p hp
  obtain rfl : p = [1, 2] := by simpa [flushed] using hp
  decide

/-- Four GiB of zeros without blocks to copy from: the length of the literal is written as 0, and
the literal comes back empty. -/
theorem four_gib_literal_lost :
    ∃ d, generateDelta (2 ^ 32 + 1) [] (Reader.ofBytes (List.replicate (2 ^ 32) 0))
        (emptySignature 1) = .ok d ∧
      ¬ ∃ d', decodeDelta d.encode = .ok d' ∧ d'.ops = d.ops := by
  generalize hnew : List.replicate (2 ^ 32) (0 : UInt8) = new
  have hlen : new.length = 2 ^ 32 := by rw [← hnew, List.length_replicate]
  obtain ⟨d, hd, hops, -⟩ := generateDelta_scan Nat.one_pos (by decide)
    (show (emptySignature 1).blockSize = (1 : ℕ) from rfl) [] new
    (show new.length < 2 ^ 32 + 1 by omega)
  refine ⟨d, hd, fun h => ?_⟩
  have hfit := ((decode_encode_iff d).1 h).2 (.data new)
  rw [hops, scan_emptySignature 1 Nat.one_pos, flushed, if_pos (by omega)] at hfit
  have hlt : new.length < 2 ^ 32 := hfit List.mem_cons_self
  omega

end FileSync.Deltas
