import FileSync.Delta.Refinement
import FileSync.Support.Blocks

/-!
# Delta — the round trip

A delta generated against the signature of an old file turns that file into the new one.

* `generateSignature_eq`: the signature of a file lists its blocks, with their hashes, under their
  numbers.
* `find_sound`: where SHA-256 does not collide, a block the signature finds for `w` has the
  contents `w`.
* `applyDelta_eq`: `ApplyDelta` writes what the operations stand for, and accepts it when the size
  and the hash are right.
* `delta_round_trip`: the composition.
-/

namespace FileSync.Deltas
open Blocks
open Sha256 (Digest Hasher sum256)

/-! ### The signature of a file -/

/-- The entry of block `k` with contents `b`. -/
def entry (k : ℕ) (b : Bytes) : BlockSignature :=
  ⟨UInt32.ofNat k, (computeBlockSignature b).1, (computeBlockSignature b).2⟩

/-- The entries of `sig` are those of the blocks `bs`. -/
structure Lists (sig : Signature) (bs : List Bytes) : Prop where
  length : sig.blocks.length = bs.length
  block : ∀ (k : ℕ) (b : Bytes), bs[k]? = some b → sig.blocks[k]? = some (entry k b)

theorem Lists.addBlock {sig : Signature} {bs : List Bytes} (h : Lists sig bs) (b : Bytes) :
    Lists (sig.addBlock (UInt32.ofNat bs.length) (computeBlockSignature b).1
      (computeBlockSignature b).2) (bs ++ [b]) := by
  refine ⟨by simp [Signature.addBlock, h.length], fun k c hk => ?_⟩
  simp only [Signature.addBlock]
  rcases Nat.lt_trichotomy k bs.length with hlt | rfl | hgt
  · rw [List.getElem?_append_left hlt] at hk
    rw [List.getElem?_append_left (by rw [h.length]; exact hlt), h.block k c hk]
  · rw [List.getElem?_concat_length, Option.some.injEq] at hk
    subst hk
    rw [← h.length, List.getElem?_concat_length, h.length]
    rfl
  · rw [List.getElem?_eq_none (by simp; omega)] at hk
    cases hk

/-- The loop of `GenerateSignature` lists the blocks of what it reads. -/
theorem signatureLoop_lists {n : ℕ} (hn : 0 < n) (rest : Bytes) :
    ∀ (fuel : ℕ) (bs : List Bytes) (sz : Int64) (sig : Signature), rest.length < fuel →
      sig.blockSize = n → Lists sig bs →
      ∃ sig', signatureLoop fuel ⟨rest, none⟩ (UInt32.ofNat bs.length) sz sig = .ok sig' ∧
        sig'.blockSize = n ∧ sig'.fileSize = sz + Int64.ofNat rest.length ∧
        Lists sig' (bs ++ blocks n rest) := by
  induction rest using blocks_induction hn with
  | nil =>
    intro fuel bs sz sig hfuel hsz hl
    obtain ⟨fuel, rfl⟩ := Nat.exists_eq_add_one_of_ne_zero (by omega : fuel ≠ 0)
    refine ⟨{ sig with fileSize := sz }, ?_, hsz, ?_, by simpa using ⟨hl.length, hl.block⟩⟩
    · rw [signatureLoop]
      simp only [hsz, Int.toNat_natCast, Reader.readFull_nil hn, List.length_nil, gt_iff_lt,
        Nat.lt_irrefl, if_false]
    · exact (Int64.add_zero sz).symm
  | cut rest hne ih =>
    intro fuel bs sz sig hfuel hsz hl
    have hpos : 0 < rest.length := List.length_pos_iff.mpr hne
    obtain ⟨fuel, rfl⟩ := Nat.exists_eq_add_one_of_ne_zero (by omega : fuel ≠ 0)
    by_cases hle : n ≤ rest.length
    · obtain ⟨sig', hloop, hsz', hfs, hl'⟩ := ih fuel (bs ++ [rest.take n])
        (sz + Int64.ofNat (rest.take n).length) _ (by simp; omega)
        (by simpa [Signature.addBlock] using hsz)
        (hl.addBlock (rest.take n))
      have hlen : (rest.take n).length = n := by simp; omega
      refine ⟨sig', ?_, hsz', ?_, ?_⟩
      · rw [← hloop, signatureLoop]
        simp only [hsz, Int.toNat_natCast, Reader.readFull_full hle, hlen, gt_iff_lt, hn, if_true]
        simp [UInt32.ofNat_add]
      · rw [hfs, Int64.add_assoc, ← Int64.ofNat_add, List.length_drop, hlen,
          Nat.add_sub_cancel' hle]
      · rw [blocks_of_ne_nil hn hne]
        simpa using hl'
    · refine ⟨{ sig.addBlock (UInt32.ofNat bs.length) (computeBlockSignature rest).1
          (computeBlockSignature rest).2 with fileSize := sz + Int64.ofNat rest.length },
        ?_, hsz, rfl, ?_⟩
      · rw [signatureLoop]
        simp only [hsz, Int.toNat_natCast, Reader.readFull_short (Nat.lt_of_not_le hle) hne,
          gt_iff_lt, hpos, if_true]
      · have htake : rest.take n = rest := List.take_of_length_le (by omega)
        have hdrop : rest.drop n = [] := List.drop_eq_nil_of_le (by omega)
        rw [blocks_of_ne_nil hn hne, htake, hdrop, blocks_nil]
        have := hl.addBlock rest
        exact ⟨this.length, this.block⟩

/-- **The signature of a file.** -/
theorem generateSignature_eq {n : ℕ} (hn : 0 < n) (old : Bytes) :
    ∃ sig, generateSignature (Reader.ofBytes old) n = .ok sig ∧ sig.blockSize = n ∧
      sig.fileSize = Int64.ofNat old.length ∧ Lists sig (blocks n old) := by
  obtain ⟨sig, hloop, hsz, hfs, hl⟩ := signatureLoop_lists hn old (old.length + 1) [] 0
    { blockSize := n, fileSize := 0, blocks := [], weakIndex := fun _ => [] } (by omega) rfl
    ⟨rfl, fun k b h => by simp at h⟩
  refine ⟨sig, ?_, hsz, by simpa using hfs, by simpa using hl⟩
  rw [generateSignature, if_neg (by omega : ¬ ((n : Int) ≤ 0))]
  exact hloop

/-- A match is a block of the signature with the strong hash looked for. -/
theorem findMatch_some {sig : Signature} {candidates : List ℕ} {strongHash : Digest}
    {b : BlockSignature} (h : findMatch sig candidates strongHash = some b) :
    ∃ k : ℕ, sig.blocks[k]? = some b ∧ b.strongHash = strongHash := by
  obtain ⟨l₁, k, l₂, -, hk, -⟩ := List.findSome?_eq_some_iff.mp h
  rw [Option.filter_eq_some_iff, decide_eq_true_eq] at hk
  exact ⟨k, hk.1, hk.2.symm⟩

/-- Block `i` of a file. -/
def blockOf (n : ℕ) (old : Bytes) (i : UInt32) : Bytes := (old.drop (i.toNat * n)).take n

/-- SHA-256 tells apart the windows of `new` and the blocks of `old` that are compared. -/
def Distinguishes (n : ℕ) (old new : Bytes) : Prop :=
  ∀ w b, Compared n new w → b ∈ blocks n old → sum256 w = sum256 b → w = b

theorem distinguishes_iff (n : ℕ) (old new : Bytes) :
    Distinguishes n old new ↔ ∀ w ∈ new.tails.flatMap List.inits, ∀ b ∈ blocks n old,
      (w.length = n ∧ w <:+: new) ∨ (w.length < n ∧ w <:+ new) → sum256 w = sum256 b → w = b := by
  refine ⟨fun h w _ b hb hw => h w b hw hb, fun h w b hw hb => ?_⟩
  have hi : w <:+: new := by
    rcases hw with ⟨-, hi⟩ | ⟨-, hs⟩
    · exact hi
    · exact hs.isInfix
  obtain ⟨t, hp, hs⟩ := List.infix_iff_prefix_suffix.mp hi
  have hmem := List.mem_flatMap.mpr ⟨t, (List.mem_tails _ _).mpr hs, (List.mem_inits _ _).mpr hp⟩
  exact h w hmem b hb hw

instance (n : ℕ) (old new : Bytes) : Decidable (Distinguishes n old new) :=
  decidable_of_iff' _ (distinguishes_iff n old new)

/-- **A block found for `w` has the contents `w`.** -/
theorem find_sound {sig : Signature} {n : ℕ} {old new w : Bytes} {i : UInt32} (hn : 0 < n)
    (hl : Lists sig (blocks n old)) (hsize : (blocks n old).length ≤ 2 ^ 32)
    (hd : Distinguishes n old new) (hw : Compared n new w) (hf : sig.find w = some i) :
    blockOf n old i = w := by
  rw [Signature.find, Option.map_eq_some_iff] at hf
  obtain ⟨b, hm, rfl⟩ := hf
  obtain ⟨k, hk, hstrong⟩ := findMatch_some hm
  have hlt : k < (blocks n old).length := by
    rw [← hl.length]
    exact (List.getElem?_eq_some_iff.mp hk).1
  have hget : (blocks n old)[k]? = some ((blocks n old).get ⟨k, hlt⟩) :=
    List.getElem?_eq_getElem hlt
  rw [hl.block k _ hget, Option.some.injEq] at hk
  subst hk
  -- the block's number is its index: there are at most 2^32 of them
  have hidx : (entry k ((blocks n old).get ⟨k, hlt⟩)).index.toNat = k := by
    rw [entry, UInt32.toNat_ofNat']
    exact Nat.mod_eq_of_lt (by omega)
  have heq : w = (blocks n old).get ⟨k, hlt⟩ := hd w _ hw (List.get_mem _ _) hstrong.symm
  rw [getElem?_blocks hn] at hget
  split at hget
  · rw [Option.some.injEq] at hget
    rw [blockOf, hidx, hget, heq]
  · cases hget

/-! ### Applying a delta -/

/-- Into a buffer, and with block `i` at hand as `blk i`, the operations write what they stand
for. -/
theorem applyOps_eq (blk : UInt32 → Bytes) :
    ∀ (ops : List DeltaOp) (out fed : Bytes) (k : ℕ),
      applyOps (fun i => .ok (blk i)) ops
          ⟨⟨out, fun _ _ => none⟩, ⟨fed⟩, Int64.ofNat k⟩ =
        (⟨⟨out ++ applied blk ops, fun _ _ => none⟩, ⟨fed ++ applied blk ops⟩,
          Int64.ofNat (k + (applied blk ops).length)⟩, none) := by
  intro ops
  induction ops with
  | nil => intro out fed k; simp [applyOps]
  | cons op ops ih =>
    intro out fed k
    cases op with
    | copy i =>
      have := ih (out ++ blk i) (fed ++ blk i) (k + (blk i).length)
      simp only [applyOps, applyOp, Applied.write, Sink.write, Hasher.write, ← Int64.ofNat_add,
        this, applied_copy, List.append_assoc, List.length_append, Nat.add_assoc]
    | data d =>
      have := ih (out ++ d) (fed ++ d) (k + d.length)
      simp only [applyOps, applyOp, Applied.write, Sink.write, Hasher.write, ← Int64.ofNat_add,
        this, applied, List.flatMap_cons, List.append_assoc, List.length_append, Nat.add_assoc]

/-- **`ApplyDelta` accepts a delta whose operations have its size and hash.** -/
theorem applyDelta_eq {d : Delta} {blk : UInt32 → Bytes} {new : Bytes}
    (hops : applied blk d.ops = new) (hsize : d.newFileSize = Int64.ofNat new.length)
    (hhash : d.newFileHash = sum256 new) :
    applyDelta d (fun i => .ok (blk i)) Sink.buffer = (⟨new, fun _ _ => none⟩, none) := by
  have h := applyOps_eq blk d.ops [] [] 0
  simp only [List.nil_append, Nat.zero_add, hops] at h
  simp only [applyDelta, Sink.buffer, Hasher.new]
  rw [show (0 : Int64) = Int64.ofNat 0 from rfl, h]
  simp [Hasher.sum, hhash, hsize]

/-- **The round trip.**  For every old and new file and every block size from 1 to `MaxBlockSize`,
if the old file has at most 2³² blocks and SHA-256 tells apart what is compared: the signature and
the delta are generated, and applying the delta to the blocks of the old file returns nil and has
written exactly the new file. -/
theorem delta_round_trip (old new pooled : Bytes) (n fuel : ℕ) (hn : 1 ≤ n)
    (hmax : (n : Int) ≤ maxBlockSize) (hblocks : (blocks n old).length ≤ 2 ^ 32)
    (hd : Distinguishes n old new) (hfuel : new.length < fuel) :
    ∃ sig d w, generateSignature (Reader.ofBytes old) n = .ok sig ∧
      generateDelta fuel pooled (Reader.ofBytes new) sig = .ok d ∧
      applyDelta d (fun i => .ok (blockOf n old i)) Sink.buffer = (w, none) ∧ w.out = new := by
  obtain ⟨sig, hsig, hsz, -, hl⟩ := generateSignature_eq hn old
  obtain ⟨d, hgen, hops, hsize, hhash, -⟩ := generateDelta_scan hn hmax hsz pooled new hfuel
  have happlied : applied (blockOf n old) d.ops = new := by
    rw [hops, scan_applied hn [] new fun w i hw hf => find_sound hn hl hblocks hd hw hf]
    rfl
  exact ⟨sig, d, _, hsig, hgen, applyDelta_eq happlied hsize hhash, rfl⟩

/-- The round trip at a file whose blocks move: the old second block is now in front. -/
theorem delta_round_trip_moved :
    ∃ sig d w, generateSignature (Reader.ofBytes [1, 2, 3]) 2 = .ok sig ∧
      generateDelta 5 [] (Reader.ofBytes [3, 9, 1, 2]) sig = .ok d ∧
      applyDelta d (fun i => .ok (blockOf 2 [1, 2, 3] i)) Sink.buffer = (w, none) ∧
      w.out = [3, 9, 1, 2] :=
  delta_round_trip [1, 2, 3] [3, 9, 1, 2] [] 2 5 (by decide) (by decide) (by decide)
    (by decide +kernel) (by decide)

end FileSync.Deltas
