import FileSync.Delta.Codec

/-!
# Delta — deltas from a peer

What `DecodeDelta` lets through, and what `ApplyDelta` makes of it, for bytes nobody vouches for.

* `accepts_only_complete_iff`: which byte strings are taken for a complete encoding only if they are
  one.
* `applyOps_none`: the writer, the hasher and the count stay in step under any operations and any
  block function.
* `hostile_delta_checked`: a delta that is applied without an error has written what its header
  says.
-/

namespace FileSync.Deltas
open Binary
open Sha256 (Digest Hasher sum256)

/-! ### What the decoder accepts -/

/-- The data start with `n` operations. -/
def Complete (n : ℕ) (rest : Bytes) : Prop :=
  ∃ ops : List DeltaOp, ops.length = n ∧ (∀ o ∈ ops, o.Fits) ∧ ops.flatMap DeltaOp.encode <+: rest

/-- The encoding of an accepted delta, when the announced operations are all there. -/
theorem encode_fromHeader {b : Bytes} {ops : List DeltaOp} (h : 44 ≤ b.length)
    (hn : ops.length = announced b) (hops : ops.flatMap DeltaOp.encode <+: b.drop 44) :
    (fromHeader b ops).encode <+: b := by
  obtain ⟨tail, htail⟩ := hops
  refine ⟨tail, ?_⟩
  rw [Delta.encode, header_fromHeader h hn, List.append_assoc,
    show (fromHeader b ops).ops = ops from rfl, htail, List.take_append_drop]

/-- **What `DecodeDelta` accepts.**  That it accepts only a complete encoding holds for `b` if and
only if `b` is shorter than a header, or one of the announced operations is cut off by the end of
`b`, or the header is followed by as many operations as it announces.  A `b` that ends between two
operations, or that has an unknown opcode, is accepted with the operations that are there. -/
theorem accepts_only_complete_iff (b : Bytes) :
    (∀ d, decodeDelta b = .ok d → d.ops.length = announced b ∧ d.encode <+: b) ↔
      b.length < 44 ∨ Cut (announced b) (b.drop 44) ∨ Complete (announced b) (b.drop 44) := by
  constructor
  · intro h
    rcases decodeDelta_cases b with ⟨ops, h44, hok, hfit, -⟩ | ⟨hbad, -⟩
    · obtain ⟨hn, tail, htail⟩ := h _ hok
      refine .inr (.inr ⟨ops, hn, hfit, tail, ?_⟩)
      have hdrop := congrArg (List.drop 44) htail
      rw [Delta.encode, List.append_assoc, List.drop_left' (length_header _)] at hdrop
      exact hdrop
    · exact hbad.imp_right .inl
  · intro h d hd
    rcases decodeDelta_cases b with ⟨-, h44, -⟩ | ⟨-, e, he⟩
    · rcases h with hlt | hcut | ⟨ops, hn, hfit, hops⟩
      · omega
      · obtain ⟨e, he⟩ := decodeLoop_cut hcut 44 [] rfl
        rw [decodeDelta_eq h44, he] at hd
        cases hd
      · rw [decodeDelta_of_ops h44 hn hfit hops] at hd
        obtain rfl : fromHeader b ops = d := Except.ok.inj hd
        exact ⟨hn, encode_fromHeader h44 hn hops⟩
    · rw [he] at hd
      cases hd

/-- Two byte strings that are accepted although an operation is missing: the encoding of a delta
with one copy, cut off behind its header, and the same header in front of an unknown opcode. -/
theorem incomplete_encodings_accepted :
    let d : Delta := ⟨[.copy 7], 0, copyHash [], 0, 0, 0⟩
    ∀ b ∈ [d.encode.take 44, d.encode.take 44 ++ [3]],
      ¬ ∀ d, decodeDelta b = .ok d → d.ops.length = announced b ∧ d.encode <+: b := by
  intro d b hb h
  rcases List.mem_cons.1 hb with rfl | hb
  · exact absurd (h _ rfl).1 (by decide)
  · obtain rfl := List.mem_singleton.1 hb
    have hop : decodeOp (d.encode.take 44 ++ [3]) 44 = .ok (none, 45) :=
      decodeOp_unknown (c := 3) (by decide) (by decide) rfl
    have hok : decodeDelta (d.encode.take 44 ++ [3]) =
        .ok (fromHeader (d.encode.take 44 ++ [3]) []) := by
      rw [decodeDelta_eq (by decide), show announced (d.encode.take 44 ++ [3]) = 0 + 1 by decide,
        decodeLoop_succ (by decide), hop]
      rfl
    exact absurd (h _ hok).1 (by decide)

/-! ### Applying what was decoded -/

/-- What a write that succeeds leaves. -/
theorem write_none {s s' : Applied} {what : String} {p : Bytes} (h : s.write what p = (s', none)) :
    s.w.fails s.w.out p = none ∧
      s' = ⟨⟨s.w.out ++ p, s.w.fails⟩, s.hasher.write p, s.written + Int64.ofNat p.length⟩ := by
  rw [Applied.write, Sink.write] at h
  cases hf : s.w.fails s.w.out p with
  | some e =>
    rw [hf] at h
    cases h
  | none =>
    rw [hf] at h
    exact ⟨rfl, (Prod.mk.inj h).1.symm⟩

/-- An operation that is applied without an error writes one piece. -/
theorem applyOp_none {oldBlocks : UInt32 → Except Err Bytes} {s s' : Applied} {op : DeltaOp}
    (h : applyOp oldBlocks s op = (s', none)) :
    ∃ p, s.w.fails s.w.out p = none ∧
      s' = ⟨⟨s.w.out ++ p, s.w.fails⟩, s.hasher.write p, s.written + Int64.ofNat p.length⟩ := by
  cases op with
  | copy i =>
    rw [applyOp] at h
    cases hb : oldBlocks i with
    | ok data =>
      rw [hb] at h
      exact ⟨data, write_none h⟩
    | error e =>
      rw [hb] at h
      cases h
  | data d => exact ⟨d, write_none h⟩

/-- The writer, the hasher and the count of `ApplyDelta` stay in step, whatever the operations and
the blocks are. -/
theorem applyOps_none {oldBlocks : UInt32 → Except Err Bytes} :
    ∀ (ops : List DeltaOp) (s s' : Applied), applyOps oldBlocks ops s = (s', none) →
      ∃ p, s'.w = ⟨s.w.out ++ p, s.w.fails⟩ ∧ s'.hasher.fed = s.hasher.fed ++ p ∧
        s'.written = s.written + Int64.ofNat p.length ∧
        (s.w.Bounded → p = [] ∨ (s.w.out ++ p).length < 2 ^ 63) := by
  intro ops
  induction ops with
  | nil =>
    intro s s' h
    obtain rfl : s = s' := (Prod.mk.inj h).1
    exact ⟨[], by rw [List.append_nil], by rw [List.append_nil], (Int64.add_zero _).symm,
      fun _ => .inl rfl⟩
  | cons op ops ih =>
    intro s s' h
    rw [applyOps] at h
    rcases hop : applyOp oldBlocks s op with ⟨s₁, _ | e⟩
    · rw [hop] at h
      obtain ⟨p, hf, rfl⟩ := applyOp_none hop
      obtain ⟨q, hw, hfed, hwritten, hbound⟩ := ih _ s' h
      refine ⟨p ++ q, ?_, ?_, ?_, fun hb => .inr ?_⟩
      · rw [hw, List.append_assoc]
      · rw [hfed, Hasher.fed_write, List.append_assoc]
      · rw [hwritten, List.length_append, Int64.ofNat_add, Int64.add_assoc]
      · rcases hbound hb with rfl | hlt
        · rw [List.append_nil]
          exact hb _ _ hf
        · rw [← List.append_assoc]
          exact hlt
    · rw [hop] at h
      cases h

/-- What `ApplyDelta` has checked when it returns nil. -/
theorem applyDelta_none {d : Delta} {oldBlocks : UInt32 → Except Err Bytes} {w w' : Sink}
    (hw : w.Bounded) (h : applyDelta d oldBlocks w = (w', none)) :
    ∃ p, w'.out = w.out ++ p ∧ sum256 p = d.newFileHash ∧ Int64.ofNat p.length = d.newFileSize ∧
      p.length < 2 ^ 63 := by
  rw [applyDelta] at h
  rcases hops : applyOps oldBlocks d.ops ⟨w, Hasher.new, 0⟩ with ⟨s, _ | e⟩
  · rw [hops] at h
    obtain ⟨p, hp, hfed, hwritten, hbound⟩ := applyOps_none _ _ _ hops
    simp only [Hasher.fed_new, List.nil_append, Int64.zero_add] at hfed hwritten
    have hlen : p.length < 2 ^ 63 := by
      rcases hbound hw with rfl | hlt
      · exact Nat.two_pow_pos 63
      · rw [List.length_append] at hlt
        exact (Nat.le_add_left _ _).trans_lt hlt
    have hsum : s.hasher.sum = sum256 p := by rw [Hasher.sum, hfed]
    dsimp only at h
    split at h
    · cases h
    · next hhash =>
      split at h
      · cases h
      · next hsize =>
        obtain rfl : s.w = w' := (Prod.mk.inj h).1
        rw [not_not] at hhash hsize
        exact ⟨p, by rw [hp], by rw [← hsum, hhash], by rw [← hwritten, hsize], hlen⟩
  · rw [hops] at h
    cases h

/-- **Hostile deltas.**  Whatever the bytes `b` and the block function: `DecodeDelta` returns a
delta or an error, without an access out of range; the literal data it returns are bytes of `b`
behind the header; and if `ApplyDelta` returns nil for the result, then what it has written has the
hash and the length that stand in the header of `b`. -/
theorem hostile_delta_checked (b : Bytes) (oldBlocks : UInt32 → Except Err Bytes) (w : Sink)
    (hw : w.Bounded) :
    ((∃ d, decodeDelta b = .ok d) ∨ ∃ e, decodeDelta b = .error (.err e)) ∧
      ∀ d, decodeDelta b = .ok d → 44 + literalCount d.ops ≤ b.length ∧
        ∀ w', applyDelta d oldBlocks w = (w', none) →
          ∃ p, w'.out = w.out ++ p ∧ (sum256 p).bytes = (b.drop 8).take 32 ∧
            p.length = uint64 (b.take 8) := by
  rcases decodeDelta_cases b with ⟨ops, h44, hok, -, -, hlit⟩ | ⟨-, e, he⟩
  · refine ⟨.inl ⟨_, hok⟩, ?_⟩
    intro d hd
    obtain rfl : fromHeader b ops = d := Except.ok.inj (hok.symm.trans hd)
    refine ⟨?_, ?_⟩
    · rw [List.length_drop] at hlit
      exact (Nat.add_le_add_left hlit 44).trans (Nat.add_sub_cancel' h44).le
    · intro w' happly
      obtain ⟨p, hout, hhash, hsize, hlen⟩ := applyDelta_none hw happly
      refine ⟨p, hout, ?_, ?_⟩
      · rw [hhash]
        exact copyHash_bytes (length_take_drop (by omega))
      · -- both numbers are below 2^64, so they are equal if their `int64`s are
        have h₈ : (b.take 8).length = 8 := by rw [List.length_take]; omega
        have hbits := congrArg (fun x : Int64 => x.toUInt64.toNat) hsize
        simp only [fromHeader, UInt64.toUInt64_toInt64, ← UInt64.toInt64_ofNat',
          UInt64.toNat_ofNat', Nat.mod_eq_of_lt (uint64_lt h₈)] at hbits
        rw [← hbits, Nat.mod_eq_of_lt (by omega)]
  · refine ⟨.inr ⟨e, he⟩, ?_⟩
    intro d hd
    rw [he] at hd
    cases hd

/-- A new file, whose size is an `int64`. -/
def newFile : Sink :=
  ⟨[], fun out p => if (out ++ p).length < 2 ^ 63 then none else some (.text "file too large")⟩

theorem newFile_bounded : newFile.Bounded := by
  intro out p h
  by_contra hge
  have hfull : newFile.fails out p = some (.text "file too large") := if_neg hge
  rw [hfull] at h
  cases h

/-- A delta with one literal byte, through the encoding and into a file. -/
theorem hostile_delta_checked_literal :
    let d : Delta := ⟨[.data [5]], 1, sum256 [5], 0, 0, 0⟩
    ∃ d' w', decodeDelta d.encode = .ok d' ∧
      applyDelta d' (fun _ => .error .eof) newFile = (w', none) ∧
      44 + literalCount d'.ops ≤ d.encode.length ∧
      ∃ p, w'.out = newFile.out ++ p ∧ (sum256 p).bytes = (d.encode.drop 8).take 32 ∧
        p.length = uint64 (d.encode.take 8) := by
  intro d
  have hdec : decodeDelta d.encode = .ok d := decodeDelta_encode (by decide) (by decide)
  have happly : applyDelta d (fun _ => .error .eof) newFile = (⟨[5], newFile.fails⟩, none) := by
    simp [d, applyDelta, applyOps, applyOp, Applied.write, Sink.write, newFile, Hasher.sum,
      Hasher.new, Hasher.write]
  have h := (hostile_delta_checked d.encode (fun _ => .error .eof) newFile newFile_bounded).2 d hdec
  exact ⟨d, _, hdec, happly, h.1, h.2 _ happly⟩

end FileSync.Deltas
