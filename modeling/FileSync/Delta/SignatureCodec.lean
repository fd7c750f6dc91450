import FileSync.Delta.Codec
import FileSync.Delta.Lookup

/-!
# Delta — the encoding of signatures

`Signature.Encode`, `NewSignature` and `DecodeSignature` of `internal/delta/rolling.go`.  The weak
index is not sent; the decoder builds it again with `AddBlock`.  `NewSignature` divides by the block
size and makes a slice with room for the quotient, and `DecodeSignature` calls it with whatever the
header says.  The loop over the blocks stops at the announced number or where fewer than forty bytes
are left.

* `assemble`: the signature that `AddBlock` makes of a list of blocks, weak index included; that of
  a file is one (`generateSignature_assemble`), and so is every decoded one.
* `newSignature_eq`: which block and file sizes `NewSignature` survives.
* `decodeSignature_eq`: all that `DecodeSignature` does.
-/

namespace FileSync.Deltas
open Binary
open Blocks (blocks)
open Sha256 (Digest)

/-! ### `Encode` -/

def BlockSignature.encode (b : BlockSignature) : Bytes :=
  putUint32 b.index.toNat ++ (putUint32 b.weakHash.toNat ++ b.strongHash.bytes)

namespace Signature

/-- Header: blockSize(4) + fileSize(8) + numBlocks(4). -/
def header (s : Signature) : Bytes :=
  putUint32 (s.blockSize % 2 ^ 32).toNat ++
    (putUint64 s.fileSize.toUInt64.toNat ++ putUint32 s.blocks.length)

def encode (s : Signature) : Bytes := s.header ++ s.blocks.flatMap BlockSignature.encode

end Signature

/-! ### `DecodeSignature` -/

/-- The size of the address space, which no `make` may pass. -/
def maxAlloc : Int := 2 ^ 48

/-- The size of a `BlockSignature`. -/
def blockSignatureSize : Int := 40

/-- `NewSignature`: a division by zero panics, and so does a capacity that is out of range. -/
def newSignature (blockSize : Int) (fileSize : Int64) : Go Signature :=
  let divisor := Int64.ofInt blockSize
  if divisor = 0 then .error .panic
  else
    let numBlocks := ((fileSize + divisor - 1) / divisor).toInt
    if numBlocks < 0 ∨ blockSignatureSize * numBlocks > maxAlloc then .error .panic
    else .ok ⟨blockSize, fileSize, [], fun _ => []⟩

/-- The loop of `DecodeSignature`, with `n` blocks to go. -/
def decodeBlocks (data : Bytes) : ℕ → ℕ → Signature → Go Signature
  | 0, _, sig => .ok sig
  | n + 1, offset, sig =>
    if offset + 40 ≤ data.length then do
      let index ← Go.orPanic (slice data offset ↑(offset + 4))
      let weakHash ← Go.orPanic (slice data ↑(offset + 4) ↑(offset + 8))
      let strongHash ← Go.orPanic (slice data ↑(offset + 8) ↑(offset + 40))
      decodeBlocks data n (offset + 40) (sig.addBlock (UInt32.ofNat (uint32 index))
        (UInt32.ofNat (uint32 weakHash)) (copyHash strongHash))
    else .ok sig

/-- `DecodeSignature`: the signature, which may be nil, and never an error. -/
def decodeSignature (data : Bytes) : Go (Option Signature) :=
  if data.length < 16 then .ok none
  else do
    let blockSize ← Go.orPanic (slice data 0 4)
    let fileSize ← Go.orPanic (slice data 4 12)
    let numBlocks ← Go.orPanic (slice data 12 16)
    let sig ← newSignature (uint32 blockSize) (UInt64.ofNat (uint64 fileSize)).toInt64
    let sig ← decodeBlocks data (uint32 numBlocks) 16 sig
    .ok (some sig)

/-! ### Signatures built block by block -/

/-- `AddBlock` of an entry. -/
def Signature.add (s : Signature) (b : BlockSignature) : Signature :=
  s.addBlock b.index b.weakHash b.strongHash

/-- The signature that `AddBlock` makes of a list of blocks. -/
def assemble (blockSize : Int) (fileSize : Int64) (bs : List BlockSignature) : Signature :=
  bs.foldl Signature.add ⟨blockSize, fileSize, [], fun _ => []⟩

theorem assemble_concat (blockSize : Int) (fileSize : Int64) (bs : List BlockSignature)
    (b : BlockSignature) :
    assemble blockSize fileSize (bs ++ [b]) = (assemble blockSize fileSize bs).add b := by
  rw [assemble, List.foldl_concat, assemble]

section Assemble

variable {blockSize : Int} {fileSize : Int64}

@[simp] theorem blocks_assemble (bs : List BlockSignature) :
    (assemble blockSize fileSize bs).blocks = bs := by
  induction bs using List.reverseRecOn with
  | nil => rfl
  | append_singleton bs b ih => rw [assemble_concat, Signature.add, Signature.addBlock, ih]

theorem assemble_setFileSize (size : Int64) (bs : List BlockSignature) :
    { assemble blockSize fileSize bs with fileSize := size } = assemble blockSize size bs := by
  induction bs using List.reverseRecOn with
  | nil => rfl
  | append_singleton bs b ih =>
    rw [assemble_concat, assemble_concat, ← ih]
    rfl

end Assemble

/-- The signature was built by `AddBlock`. -/
def Assembled (sig : Signature) : Prop := sig = assemble sig.blockSize sig.fileSize sig.blocks

theorem Assembled.addBlock {sig : Signature} (h : Assembled sig) (i weak : UInt32)
    (strong : Digest) : Assembled (sig.addBlock i weak strong) := by
  have hblocks : (sig.addBlock i weak strong).blocks = sig.blocks ++ [⟨i, weak, strong⟩] := rfl
  rw [Assembled, hblocks, assemble_concat]
  exact congrArg (fun s => Signature.add s ⟨i, weak, strong⟩) h

theorem Assembled.setFileSize {sig : Signature} (h : Assembled sig) (size : Int64) :
    Assembled { sig with fileSize := size } := by
  refine (congrArg (fun s : Signature => { s with fileSize := size }) h).trans ?_
  exact assemble_setFileSize size sig.blocks

theorem generateSignature_assembled {r : Reader} {blockSize : Int} {sig : Signature}
    (h : generateSignature r blockSize = .ok sig) : Assembled sig :=
  generateSignature_invariant (fun _ => rfl)
    (fun _ i weak strong hsig => hsig.addBlock i weak strong)
    (fun _ size hsig => hsig.setFileSize size) h

/-! ### `NewSignature` -/

/-- The sum of the two sizes, less one, as 64 bits hold it. -/
def roundedSize (blockSize fileSize : ℕ) : ℕ := (fileSize + blockSize + (2 ^ 64 - 1)) % 2 ^ 64

/-- `NewSignature` survives these sizes: the block size is not zero; and the rounded file size is a
number whose quotient fits in the address space, or a negative number whose quotient is zero. -/
def Allocates (blockSize fileSize : ℕ) : Prop :=
  0 < blockSize ∧ (roundedSize blockSize fileSize < 2 ^ 63 ∧
      40 * (roundedSize blockSize fileSize / blockSize) ≤ 2 ^ 48 ∨
    2 ^ 64 < roundedSize blockSize fileSize + blockSize)

instance (blockSize fileSize : ℕ) : Decidable (Allocates blockSize fileSize) :=
  inferInstanceAs (Decidable (_ ∧ _))

/-- The dividend of `NewSignature`. -/
theorem toInt_dividend {bs fs : ℕ} (hpos : 0 < bs) :
    (Int64.ofNat fs + Int64.ofInt bs - 1).toInt =
      if roundedSize bs fs < 2 ^ 63 then (roundedSize bs fs : ℤ)
      else (roundedSize bs fs : ℤ) - (2 ^ 64 : ℕ) := by
  have hsum : Int64.ofNat fs + Int64.ofInt bs - 1 = Int64.ofNat (fs + bs - 1) := by
    rw [Int64.ofInt_eq_ofNat, ← Int64.ofNat_add, Int64.ofNat_sub _ _ (by omega)]
    rfl
  have hmod : roundedSize bs fs = (fs + bs - 1) % 2 ^ 64 := by
    rw [roundedSize]
    omega
  have hhalf : ((2 ^ 63 : ℕ) : ℤ) = ((2 ^ 64 : ℕ) + 1) / 2 := by decide
  rw [hsum, hmod, Int64.toInt_ofNat', Int.bmod_def, Int64.size]
  push_cast
  omega

/-- When a quotient is a capacity, in terms of the dividend as 64 bits hold it. -/
theorem quotient_iff {bs n : ℕ} (hpos : 0 < bs) (hbs : bs < 2 ^ 32) (hn : n < 2 ^ 64) {d : ℤ}
    (hd : d = if n < 2 ^ 63 then (n : ℤ) else (n : ℤ) - (2 ^ 64 : ℕ)) :
    (0 ≤ d.tdiv bs ∧ 40 * d.tdiv bs ≤ 2 ^ 48) ↔
      n < 2 ^ 63 ∧ 40 * (n / bs) ≤ 2 ^ 48 ∨ 2 ^ 64 < n + bs := by
  by_cases hlt : n < 2 ^ 63
  · rw [if_pos hlt] at hd
    rw [hd, ← Int.ofNat_tdiv]
    omega
  · rw [if_neg hlt] at hd
    have hneg : d = -((2 ^ 64 - n : ℕ) : ℤ) := by omega
    rw [hneg, Int.neg_tdiv, ← Int.ofNat_tdiv]
    have hzero : (2 ^ 64 - n) / bs = 0 ↔ 2 ^ 64 - n < bs := by
      rw [Nat.div_eq_zero_iff]
      omega
    generalize (2 ^ 64 - n) / bs = q at hzero ⊢
    omega

theorem newSignature_eq {bs fs : ℕ} (hbs : bs < 2 ^ 32) :
    newSignature bs (Int64.ofNat fs) =
      if Allocates bs fs then .ok (assemble bs (Int64.ofNat fs) []) else .error .panic := by
  have hdivisor : (Int64.ofInt bs).toInt = bs := Int64.toInt_ofInt_of_le (by omega) (by omega)
  rw [newSignature]
  dsimp only
  rcases Nat.eq_zero_or_pos bs with rfl | hpos
  · rw [if_neg fun h : Allocates 0 fs => Nat.lt_irrefl 0 h.1]
    rfl
  · have hne : Int64.ofInt bs ≠ 0 := by
      intro h
      rw [h, Int64.toInt_zero] at hdivisor
      omega
    have hminus : Int64.ofInt bs ≠ -1 := by
      intro h
      rw [h] at hdivisor
      have : (-1 : ℤ) = bs := hdivisor
      omega
    have hrange := quotient_iff hpos hbs (Nat.mod_lt _ (Nat.two_pow_pos 64)) (toInt_dividend hpos)
      (n := roundedSize bs fs)
    rw [if_neg hne, Int64.toInt_div_of_ne_right _ _ hminus, hdivisor]
    by_cases ha : Allocates bs fs
    · obtain ⟨h₀, h₁⟩ := hrange.2 ha.2
      rw [if_pos ha, if_neg]
      · rfl
      · rw [not_or]
        exact ⟨not_lt.2 h₀, not_lt.2 h₁⟩
    · rw [if_neg ha, if_pos]
      by_contra hno
      rw [not_or] at hno
      exact ha ⟨hpos, hrange.1 ⟨not_lt.1 hno.1, not_lt.1 hno.2⟩⟩

/-! ### The blocks -/

/-- The block that a record of forty bytes stands for. -/
def blockOfRecord (r : Bytes) : BlockSignature :=
  ⟨UInt32.ofNat (uint32 (r.take 4)), UInt32.ofNat (uint32 ((r.drop 4).take 4)), copyHash (r.drop 8)⟩

/-- The blocks at the start of the data, at most `n`, as far as the data go. -/
def blocksIn : ℕ → Bytes → List BlockSignature
  | 0, _ => []
  | n + 1, rest =>
    if 40 ≤ rest.length then blockOfRecord (rest.take 40) :: blocksIn n (rest.drop 40) else []

@[simp] theorem length_encode_block (b : BlockSignature) : b.encode.length = 40 := by
  rw [BlockSignature.encode, List.length_append, List.length_append, length_putUint32,
    length_putUint32, b.strongHash.length_bytes]

/-- A record is the encoding of its block. -/
theorem encode_blockOfRecord {r : Bytes} (h : r.length = 40) : (blockOfRecord r).encode = r := by
  have hindex : (r.take 4).length = 4 := by rw [List.length_take, h]; rfl
  have hweak : ((r.drop 4).take 4).length = 4 := by rw [List.length_take, List.length_drop, h]; rfl
  have hstrong : (r.drop 8).length = 32 := by rw [List.length_drop, h]
  rw [BlockSignature.encode, blockOfRecord]
  dsimp only
  rw [UInt32.toNat_ofNat', Nat.mod_eq_of_lt (uint32_lt hindex), putUint32_uint32 hindex,
    UInt32.toNat_ofNat', Nat.mod_eq_of_lt (uint32_lt hweak), putUint32_uint32 hweak,
    copyHash_bytes hstrong, ← List.drop_drop (i := 4) (j := 4), List.take_append_drop,
    List.take_append_drop]

/-- A block is that of its encoding. -/
theorem blockOfRecord_encode (b : BlockSignature) : blockOfRecord b.encode = b := by
  obtain ⟨index, weakHash, strongHash⟩ := b
  have hbytes : copyHash strongHash.bytes = strongHash :=
    Digest.ext_bytes (copyHash_bytes strongHash.length_bytes)
  rw [blockOfRecord, BlockSignature.encode]
  have htake : (putUint32 index.toNat ++ (putUint32 weakHash.toNat ++ strongHash.bytes)).take 4 =
    putUint32 index.toNat := List.take_left' rfl
  have hdrop : (putUint32 index.toNat ++ (putUint32 weakHash.toNat ++ strongHash.bytes)).drop 4 =
    putUint32 weakHash.toNat ++ strongHash.bytes := List.drop_left' rfl
  have htake' : (putUint32 weakHash.toNat ++ strongHash.bytes).take 4 =
    putUint32 weakHash.toNat := List.take_left' rfl
  have hdrop' : (putUint32 weakHash.toNat ++ strongHash.bytes).drop 4 = strongHash.bytes :=
    List.drop_left' rfl
  dsimp only
  rw [← List.drop_drop (i := 4) (j := 4), htake, hdrop, htake', hdrop', hbytes,
    uint32_putUint32, uint32_putUint32, Nat.mod_eq_of_lt index.toNat_lt,
    Nat.mod_eq_of_lt weakHash.toNat_lt, UInt32.ofNat_toNat, UInt32.ofNat_toNat]

/-- **The loop adds the blocks of the data.** -/
theorem decodeBlocks_eq (data : Bytes) (n offset : ℕ) (sig : Signature) :
    decodeBlocks data n offset sig =
      .ok ((blocksIn n (data.drop offset)).foldl Signature.add sig) := by
  induction n generalizing offset sig with
  | zero => rfl
  | succ n ih =>
    rw [decodeBlocks, blocksIn]
    by_cases hle : offset + 40 ≤ data.length
    · have hlen : 40 ≤ (data.drop offset).length := by rw [List.length_drop]; omega
      rw [if_pos hle, if_pos hlen, slice_natCast data (by omega) (by omega),
        slice_natCast data (by omega) (by omega), slice_natCast data (by omega) (by omega)]
      simp only [Go.orPanic_some, Go.ok_bind]
      rw [ih, List.drop_drop, List.foldl_cons, Signature.add, blockOfRecord]
      dsimp only
      rw [List.drop_take, List.drop_take, List.drop_take, List.take_take, List.drop_take,
        List.drop_take, List.take_take, List.drop_drop, List.drop_drop]
      simp only [Nat.add_sub_cancel_left, Nat.add_sub_add_left]
      rfl
    · have hlen : ¬ 40 ≤ (data.drop offset).length := by rw [List.length_drop]; omega
      rw [if_neg hle, if_neg hlen]
      rfl

/-! ### `DecodeSignature` -/

/-- The block size, the file size and the number of blocks that a header says. -/
def headerBlockSize (b : Bytes) : ℕ := uint32 (b.take 4)

def headerFileSize (b : Bytes) : ℕ := uint64 ((b.drop 4).take 8)

def headerNumBlocks (b : Bytes) : ℕ := uint32 ((b.drop 12).take 4)

/-- **All that `DecodeSignature` does.**  Without a whole header it returns nil; it panics if the
sizes of the header do not allocate; and it returns the signature of as many blocks as are there. -/
theorem decodeSignature_eq (b : Bytes) :
    decodeSignature b =
      if b.length < 16 then .ok none
      else if Allocates (headerBlockSize b) (headerFileSize b) then
        .ok (some (assemble (headerBlockSize b) (Int64.ofNat (headerFileSize b))
          (blocksIn (headerNumBlocks b) (b.drop 16))))
      else .error .panic := by
  rw [decodeSignature]
  by_cases hlen : b.length < 16
  · rw [if_pos hlen, if_pos hlen]
  · have hle : 16 ≤ b.length := not_lt.1 hlen
    have h₀ : slice b 0 4 = some (b.take 4) :=
      slice_natCast b (show 0 ≤ 4 by decide) (show 4 ≤ b.length by omega)
    have h₁ : slice b 4 12 = some ((b.drop 4).take 8) :=
      (slice_natCast b (show 4 ≤ 12 by decide) (by omega)).trans (congrArg some List.drop_take)
    have h₂ : slice b 12 16 = some ((b.drop 12).take 4) :=
      (slice_natCast b (show 12 ≤ 16 by decide) hle).trans (congrArg some List.drop_take)
    have hsize : headerBlockSize b < 2 ^ 32 := uint32_lt (by rw [List.length_take]; omega)
    rw [if_neg hlen, if_neg hlen, h₀, h₁, h₂]
    simp only [Go.orPanic_some, Go.ok_bind, UInt64.toInt64_ofNat']
    change (newSignature (headerBlockSize b) (Int64.ofNat (headerFileSize b)) >>= _) = _
    rw [newSignature_eq hsize]
    split
    · rw [Go.ok_bind, decodeBlocks_eq]
      rfl
    · rfl

/-! ### Faults -/

/-- **When `DecodeSignature` does not fault**: the data are too short for a header, or the sizes of
the header allocate.  The slices of the data are always in range. -/
theorem decodeSignature_returns_iff (b : Bytes) :
    (∃ sig, decodeSignature b = .ok sig) ↔
      b.length < 16 ∨ Allocates (headerBlockSize b) (headerFileSize b) := by
  rw [decodeSignature_eq]
  by_cases hlen : b.length < 16
  · rw [if_pos hlen]
    exact iff_of_true ⟨none, rfl⟩ (.inl hlen)
  · rw [if_neg hlen]
    by_cases ha : Allocates (headerBlockSize b) (headerFileSize b)
    · rw [if_pos ha]
      exact iff_of_true ⟨_, rfl⟩ (.inr ha)
    · rw [if_neg ha]
      refine iff_of_false ?_ (not_or.2 ⟨hlen, ha⟩)
      rintro ⟨sig, h⟩
      cases h

/-- Sixteen zero bytes, a header with block size 0; and one with block size 1 and a file size of
`-1000`. -/
theorem decodeSignature_faults :
    decodeSignature (List.replicate 16 0) = .error .panic ∧
      decodeSignature (putUint32 1 ++ putUint64 (2 ^ 64 - 1000) ++ putUint32 0) =
        .error .panic := by
  refine ⟨?_, ?_⟩
  · rw [decodeSignature_eq, if_neg (by decide), if_neg (by decide +kernel)]
  · rw [decodeSignature_eq, if_neg (by decide), if_neg (by decide +kernel)]

/-! ### Truncation -/

@[simp] theorem Signature.length_header (s : Signature) : s.header.length = 16 := rfl

theorem length_blocksIn_le (n : ℕ) (rest : Bytes) :
    40 * (blocksIn n rest).length ≤ rest.length := by
  induction n generalizing rest with
  | zero => exact Nat.zero_le _
  | succ n ih =>
    rw [blocksIn]
    split
    · have := ih (rest.drop 40)
      rw [List.length_drop] at this
      rw [List.length_cons]
      omega
    · exact Nat.zero_le _

theorem length_blocksIn {n : ℕ} {rest : Bytes} (h : 40 * n ≤ rest.length) :
    (blocksIn n rest).length = n := by
  induction n generalizing rest with
  | zero => rfl
  | succ n ih =>
    rw [blocksIn, if_pos (by omega), List.length_cons, ih (by rw [List.length_drop]; omega)]

/-- Every block is that of its record. -/
theorem encode_of_blocksIn {n : ℕ} {rest : Bytes} {k : ℕ} {block : BlockSignature}
    (h : (blocksIn n rest)[k]? = some block) : block.encode = (rest.drop (40 * k)).take 40 := by
  induction n generalizing rest k with
  | zero => cases h
  | succ n ih =>
    rw [blocksIn] at h
    split at h
    · next hle =>
        cases k with
        | zero =>
          cases h
          exact encode_blockOfRecord (by rw [List.length_take]; omega)
        | succ k =>
          rw [List.getElem?_cons_succ] at h
          rw [ih h, List.drop_drop, Nat.mul_succ, Nat.add_comm]
    · cases h

/-- The signature has the blocks that the header announces, each that of its record. -/
def Complies (b : Bytes) (sig : Signature) : Prop :=
  sig.blocks.length = headerNumBlocks b ∧
    ∀ k block, sig.blocks[k]? = some block → block.encode = (b.drop (16 + 40 * k)).take 40

/-- **When `DecodeSignature` accepts only whole signatures**: the header is there, and so are all
the records that it announces, unless its sizes make `DecodeSignature` fault. -/
theorem accepts_only_whole_iff (b : Bytes) :
    (∀ sig, decodeSignature b = .ok sig → ∃ s, sig = some s ∧ Complies b s) ↔
      16 ≤ b.length ∧ (Allocates (headerBlockSize b) (headerFileSize b) →
        16 + 40 * headerNumBlocks b ≤ b.length) := by
  rw [decodeSignature_eq]
  by_cases hlen : b.length < 16
  · rw [if_pos hlen]
    refine iff_of_false (fun h => ?_) fun h => absurd h.1 (not_le.2 hlen)
    obtain ⟨s, hs, -⟩ := h none rfl
    cases hs
  · rw [if_neg hlen, and_iff_right (not_lt.1 hlen)]
    by_cases ha : Allocates (headerBlockSize b) (headerFileSize b)
    · rw [if_pos ha, imp_iff_right ha]
      constructor
      · intro h
        obtain ⟨s, hs, hcount, -⟩ := h _ rfl
        cases hs
        rw [blocks_assemble] at hcount
        have hle := length_blocksIn_le (headerNumBlocks b) (b.drop 16)
        rw [hcount, List.length_drop] at hle
        omega
      · rintro hle sig hsig
        cases hsig
        refine ⟨_, rfl, ?_, fun k block hk => ?_⟩
        · rw [blocks_assemble]
          exact length_blocksIn (by rw [List.length_drop]; omega)
        · rw [blocks_assemble] at hk
          rw [encode_of_blocksIn hk, List.drop_drop]
    · rw [if_neg ha]
      exact iff_of_true (fun sig h => by cases h) fun h => absurd h ha

/-- The encoding of a signature with one block, cut off after its header, and no data at all. -/
theorem truncated_accepted :
    let sig := assemble 4 1 [⟨0, 0, Sha256.sum256 [0]⟩]
    decodeSignature (sig.encode.take 16) = .ok (some (assemble 4 1 [])) ∧
      headerNumBlocks (sig.encode.take 16) = 1 ∧
      decodeSignature (sig.encode.take 0) = .ok none := by
  intro sig
  have hheader : sig.encode.take 16 = [0, 0, 0, 4, 0, 0, 0, 0, 0, 0, 0, 1, 0, 0, 0, 1] :=
    (List.take_left' (Signature.length_header sig)).trans (by decide +kernel)
  rw [hheader]
  refine ⟨?_, by decide, rfl⟩
  rw [decodeSignature_eq, if_neg (by decide), if_pos (by decide +kernel)]
  rfl

/-! ### Round trip -/

theorem blocksIn_encode (bs : List BlockSignature) :
    blocksIn bs.length (bs.flatMap BlockSignature.encode) = bs := by
  induction bs with
  | nil => rfl
  | cons b bs ih =>
    have hlen : 40 ≤ ((b :: bs).flatMap BlockSignature.encode).length := by
      rw [List.flatMap_cons, List.length_append, length_encode_block]
      exact Nat.le_add_right _ _
    rw [List.length_cons, blocksIn, if_pos hlen, List.flatMap_cons,
      List.take_left' (length_encode_block b), List.drop_left' (length_encode_block b),
      blockOfRecord_encode, ih]

section RoundTrip

variable {sig : Signature} {n fs : ℕ}

theorem toNat_ofNat_toUInt64 (fs : ℕ) : (Int64.ofNat fs).toUInt64.toNat = fs % 2 ^ 64 := by
  rw [Int64.toUInt64_ofNat', UInt64.toNat_ofNat']

theorem ofNat_mod (fs : ℕ) : Int64.ofNat (fs % 2 ^ 64) = Int64.ofNat fs := by
  rw [← UInt64.toInt64_ofNat', ← UInt64.toInt64_ofNat', UInt64.ofNat_mod_size]

/-- An encoded signature is read back, if its sizes allocate. -/
theorem decodeSignature_encode (ha : Assembled sig) (hsize : sig.blockSize = n) (hn : n < 2 ^ 32)
    (hfile : sig.fileSize = Int64.ofNat fs) (hblocks : sig.blocks.length < 2 ^ 32) :
    decodeSignature sig.encode =
      if Allocates n (fs % 2 ^ 64) then .ok (some sig) else .error .panic := by
  have hheader : sig.header =
      putUint32 n ++ (putUint64 (fs % 2 ^ 64) ++ putUint32 sig.blocks.length) := by
    rw [Signature.header, hsize, hfile, toNat_ofNat_toUInt64, Int.emod_eq_of_lt (by omega)
      (by omega), Int.toNat_natCast]
  have hencode : sig.encode = putUint32 n ++ (putUint64 (fs % 2 ^ 64) ++
      (putUint32 sig.blocks.length ++ sig.blocks.flatMap BlockSignature.encode)) := by
    rw [Signature.encode, hheader, List.append_assoc, List.append_assoc]
  have h₀ : headerBlockSize sig.encode = n := by
    rw [headerBlockSize, hencode, List.take_left' (length_putUint32 n), uint32_putUint32,
      Nat.mod_eq_of_lt hn]
  have h₁ : headerFileSize sig.encode = fs % 2 ^ 64 := by
    rw [headerFileSize, hencode, List.drop_left' (length_putUint32 n),
      List.take_left' (length_putUint64 _), uint64_putUint64, Nat.mod_mod]
  have h₂ : headerNumBlocks sig.encode = sig.blocks.length := by
    rw [headerNumBlocks, hencode, ← List.drop_drop (i := 8) (j := 4),
      List.drop_left' (length_putUint32 n), List.drop_left' (length_putUint64 _),
      List.take_left' (length_putUint32 _), uint32_putUint32, Nat.mod_eq_of_lt hblocks]
  have h₃ : sig.encode.drop 16 = sig.blocks.flatMap BlockSignature.encode :=
    List.drop_left' sig.length_header
  have hlen : ¬ sig.encode.length < 16 := by
    rw [Signature.encode, List.length_append, Signature.length_header]
    omega
  rw [decodeSignature_eq, if_neg hlen, h₀, h₁, h₂, h₃, blocksIn_encode, ofNat_mod, ← hfile, ← hsize,
    ← ha]

/-- The sizes of a file with fewer than `2 ^ 32` blocks allocate just when their sum is an
`int64`. -/
theorem allocates_iff (hpos : 0 < n) (hn : n < 2 ^ 32) (hblocks : (fs + n - 1) / n < 2 ^ 32) :
    Allocates n (fs % 2 ^ 64) ↔ fs + n ≤ 2 ^ 63 := by
  have hfs : fs + n - 1 < 2 ^ 32 * n := (Nat.div_lt_iff_lt_mul hpos).1 hblocks
  have hround : roundedSize n (fs % 2 ^ 64) = fs + n - 1 := by
    rw [roundedSize]
    omega
  rw [Allocates, hround, and_iff_right hpos]
  constructor
  · rintro (⟨hlt, -⟩ | hlt)
    · omega
    · omega
  · intro hle
    exact .inl ⟨by omega, by omega⟩

end RoundTrip

/-- **Signature codec round trip.**  The signature of a file with fewer than `2 ^ 32` blocks is read
back whole, with its weak index, if the sum of the sizes of the file and of a block is at most
`2 ^ 63`; every delta against it is then the same. -/
theorem signature_round_trip {file : Bytes} {n : ℕ} (hpos : 1 ≤ n) (hn : n < 2 ^ 32)
    (hblocks : (blocks n file).length < 2 ^ 32) (hsize : file.length + n ≤ 2 ^ 63) :
    ∃ sig, generateSignature (Reader.ofBytes file) n = .ok sig ∧
      decodeSignature sig.encode = .ok (some sig) := by
  obtain ⟨sig, hsig, hsz, hfs, hl⟩ := generateSignature_eq hpos file
  rw [Blocks.length_blocks hpos] at hblocks
  refine ⟨sig, hsig, ?_⟩
  rw [decodeSignature_encode (generateSignature_assembled hsig) hsz hn hfs
    (by rwa [hl.length, Blocks.length_blocks hpos]),
    if_pos ((allocates_iff hpos hn hblocks).2 hsize)]

theorem signature_round_trip_small :
    ∃ sig, generateSignature (Reader.ofBytes [1, 2, 3, 1, 2]) 2 = .ok sig ∧
      decodeSignature sig.encode = .ok (some sig) :=
  signature_round_trip (by decide) (by decide) (by decide) (by decide)

/-- A file of `2 ^ 63 - 1` bytes in blocks of `2 ^ 32 - 1`: its signature cannot be decoded. -/
theorem huge_file_signature_faults :
    let file : Bytes := List.replicate (2 ^ 63 - 1) 0
    (blocks (2 ^ 32 - 1) file).length < 2 ^ 32 ∧
      ∃ sig, generateSignature (Reader.ofBytes file) (2 ^ 32 - 1 : ℕ) = .ok sig ∧
        decodeSignature sig.encode = .error .panic := by
  intro file
  have hlen : file.length = 2 ^ 63 - 1 := List.length_replicate
  have hcount : (blocks (2 ^ 32 - 1) file).length < 2 ^ 32 := by
    rw [Blocks.length_blocks (by decide), hlen]
    decide
  obtain ⟨sig, hsig, hsz, hfs, hl⟩ := generateSignature_eq (show 0 < 2 ^ 32 - 1 by decide) file
  refine ⟨hcount, sig, hsig, ?_⟩
  rw [decodeSignature_encode (generateSignature_assembled hsig) hsz (by decide) hfs
    (by rwa [hl.length]), if_neg]
  rw [Blocks.length_blocks (by decide)] at hcount
  rw [allocates_iff (by decide) (by decide) hcount, hlen]
  decide

end FileSync.Deltas
