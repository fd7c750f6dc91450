import FileSync.Delta.RoundTrip

/-!
# Delta — looking up a block

`FindByWeakHash` with the comparison of the strong hashes behind it, against comparing bytes.

* `Indexed sig`: the weak index of `sig` leads to the first block with the hashes looked for.
  `AddBlock` keeps it, so every signature that is built block by block has it.
* `find_eq_lookup`: where SHA-256 does not collide, a lookup in the signature of a file finds the
  first of its blocks with the bytes looked for, under its number cut to 32 bits.
* `no_missed_match_iff`, `unchanged_copied_iff`: what this means for the deltas.
-/

namespace FileSync.Deltas
open Blocks
open Sha256 (Digest Hasher sum256)

/-! ### The weak index -/

/-- The weak index of a signature leads to its blocks, in their order. -/
structure Indexed (sig : Signature) : Prop where
  lt : ∀ h k, k ∈ sig.weakIndex h → k < sig.blocks.length
  first : ∀ h s, findMatch sig (sig.findByWeakHash h) s =
    sig.blocks.find? fun b => b.weakHash = h ∧ b.strongHash = s

/-- The candidates of a signature are the same blocks after `AddBlock`. -/
theorem findMatch_addBlock {sig : Signature} {cands : List ℕ}
    (h : ∀ k ∈ cands, k < sig.blocks.length) (i weak : UInt32) (strong s : Digest) :
    findMatch (sig.addBlock i weak strong) cands s = findMatch sig cands s := by
  rw [findMatch, findMatch]
  induction cands with
  | nil => rfl
  | cons k cands ih =>
    have hget : (sig.addBlock i weak strong).getBlock k = sig.getBlock k :=
      List.getElem?_append_left (h k List.mem_cons_self)
    rw [List.findSome?_cons, List.findSome?_cons, hget,
      ih fun j hj => h j (List.mem_cons_of_mem k hj)]

theorem weakIndex_addBlock_self (sig : Signature) (i weak : UInt32) (strong : Digest) :
    (sig.addBlock i weak strong).weakIndex weak = sig.weakIndex weak ++ [sig.blocks.length] :=
  Function.update_self ..

theorem weakIndex_addBlock_of_ne {sig : Signature} {w weak : UInt32} (h : w ≠ weak) (i : UInt32)
    (strong : Digest) : (sig.addBlock i weak strong).weakIndex w = sig.weakIndex w :=
  Function.update_of_ne h ..

/-- **`AddBlock` keeps the index.** -/
theorem Indexed.addBlock {sig : Signature} (h : Indexed sig) (i weak : UInt32) (strong : Digest) :
    Indexed (sig.addBlock i weak strong) := by
  have hblocks : (sig.addBlock i weak strong).blocks = sig.blocks ++ [⟨i, weak, strong⟩] := rfl
  refine ⟨?_, ?_⟩
  · intro w k hk
    rw [hblocks, List.length_append]
    by_cases hw : w = weak
    · rw [hw, weakIndex_addBlock_self, List.mem_append, List.mem_singleton] at hk
      rcases hk with hk | rfl
      · exact Nat.lt_succ_of_lt (h.lt weak k hk)
      · exact Nat.lt_succ_self _
    · rw [weakIndex_addBlock_of_ne hw] at hk
      exact Nat.lt_succ_of_lt (h.lt w k hk)
  · intro w s
    have hold := findMatch_addBlock (h.lt w) i weak strong s
    rw [hblocks, List.find?_append, ← h.first w s, Signature.findByWeakHash,
      Signature.findByWeakHash]
    by_cases hw : w = weak
    · have hlast : (sig.addBlock i weak strong).getBlock sig.blocks.length =
          some ⟨i, weak, strong⟩ := List.getElem?_concat_length ..
      rw [hw] at hold ⊢
      rw [weakIndex_addBlock_self, findMatch, List.findSome?_append, ← findMatch, hold]
      simp only [List.findSome?_cons, List.findSome?_nil, hlast]
      congr 1
      by_cases hs : s = strong
      · simp [hs, Option.filter]
      · simp [hs, Ne.symm hs, Option.filter]
    · rw [weakIndex_addBlock_of_ne hw, hold]
      simp [Ne.symm hw]

theorem Indexed.setFileSize {sig : Signature} (h : Indexed sig) (size : Int64) :
    Indexed { sig with fileSize := size } :=
  ⟨h.lt, h.first⟩

/-- Every signature `GenerateSignature` returns is indexed, whatever the reader does. -/
theorem generateSignature_indexed {r : Reader} {blockSize : Int} {sig : Signature}
    (h : generateSignature r blockSize = .ok sig) : Indexed sig :=
  generateSignature_invariant (fun _ => ⟨fun _ _ hk => (List.not_mem_nil hk).elim, fun _ _ => rfl⟩)
    (fun _ i weak strong hsig => hsig.addBlock i weak strong)
    (fun _ size hsig => hsig.setFileSize size) h

/-! ### Looking up by hashes and by bytes -/

/-- The number, cut to 32 bits, of the first block with the bytes `w`. -/
def lookup (bs : List Bytes) (w : Bytes) : Option UInt32 :=
  (bs.findIdx? fun b => b = w).map UInt32.ofNat

theorem Lists.blocks_eq {sig : Signature} {bs : List Bytes} (h : Lists sig bs) :
    sig.blocks = bs.mapIdx entry := by
  apply List.ext_getElem?
  intro k
  rw [List.getElem?_mapIdx]
  cases hk : bs[k]? with
  | some b => exact h.block k b hk
  | none =>
    rw [List.getElem?_eq_none_iff] at hk
    exact List.getElem?_eq_none (h.length ▸ hk)

/-- The first block with the hashes of `w`, in a list of blocks that is searched for it. -/
theorem find?_mapIdx_entry {bs : List Bytes} {w : Bytes}
    (hd : ∀ b ∈ bs, sum256 w = sum256 b → w = b) :
    ((bs.mapIdx entry).find? fun e =>
      e.weakHash = (computeBlockSignature w).1 ∧ e.strongHash = (computeBlockSignature w).2).map
        (·.index) = lookup bs w := by
  have hiff : ∀ k, ∀ b ∈ bs, ((entry k b).weakHash = (computeBlockSignature w).1 ∧
      (entry k b).strongHash = (computeBlockSignature w).2) ↔ b = w := by
    intro k b hb
    constructor
    · rintro ⟨-, hs⟩
      exact (hd b hb hs.symm).symm
    · rintro rfl
      exact ⟨rfl, rfl⟩
  rw [lookup]
  cases hf : bs.findIdx? fun b => b = w with
  | none =>
    rw [List.findIdx?_eq_none_iff] at hf
    rw [List.find?_eq_none.2]
    · rfl
    · intro e he
      obtain ⟨k, hk, rfl⟩ := List.mem_mapIdx.1 he
      have hmem : bs[k] ∈ bs := List.getElem_mem hk
      have hne := hf _ hmem
      simpa [hiff k _ hmem] using hne
  | some k =>
    obtain ⟨hk, hw, hlow⟩ := List.findIdx?_eq_some_iff_getElem.1 hf
    have hfind : (bs.mapIdx entry).find? (fun e =>
        e.weakHash = (computeBlockSignature w).1 ∧ e.strongHash = (computeBlockSignature w).2) =
        some (entry k bs[k]) := by
      refine List.find?_eq_some_iff_getElem.2 ⟨?_, k, by simpa using hk, by simp, ?_⟩
      · exact decide_eq_true ((hiff k _ (List.getElem_mem hk)).2 (of_decide_eq_true hw))
      · intro j hj
        have hjlt : j < bs.length := hj.trans hk
        have hne := hlow j hj
        simpa [hiff j _ (List.getElem_mem hjlt)] using hne
    rw [hfind]
    rfl

/-- **Looking up by hashes is looking up by bytes.** -/
theorem find_eq_lookup {sig : Signature} {n : ℕ} {old new w : Bytes} (hi : Indexed sig)
    (hl : Lists sig (blocks n old)) (hd : Distinguishes n old new) (hw : Compared n new w) :
    sig.find w = lookup (blocks n old) w := by
  rw [Signature.find, hi.first, hl.blocks_eq]
  exact find?_mapIdx_entry fun b hb => hd w b hw hb

/-- The operations of a delta are those of a scan that compares bytes. -/
theorem generateDelta_lookup (old new pooled : Bytes) {n fuel : ℕ} (hn : 1 ≤ n)
    (hmax : (n : Int) ≤ maxBlockSize) (hd : Distinguishes n old new) (hfuel : new.length < fuel) :
    ∃ sig d, generateSignature (Reader.ofBytes old) n = .ok sig ∧
      generateDelta fuel pooled (Reader.ofBytes new) sig = .ok d ∧
      d.ops = scan (lookup (blocks n old)) n [] new := by
  obtain ⟨sig, hsig, hsz, -, hl⟩ := generateSignature_eq hn old
  obtain ⟨d, hgen, hops, -⟩ := generateDelta_scan hn hmax hsz pooled new hfuel
  have hi : Indexed sig := generateSignature_indexed hsig
  refine ⟨sig, d, hsig, hgen, ?_⟩
  rw [hops]
  exact scan_congr hn [] new fun w hw => find_eq_lookup hi hl hd hw

/-! ### No missed match -/

theorem lookup_none {bs : List Bytes} {w : Bytes} (h : lookup bs w = none) : w ∉ bs := by
  rw [lookup, Option.map_eq_none_iff, List.findIdx?_eq_none_iff] at h
  intro hw
  exact absurd rfl (of_decide_eq_false (h w hw))

/-- What a lookup returns is the number of the first block with these bytes, cut to 32 bits. -/
theorem lookup_some {bs : List Bytes} {w : Bytes} {i : UInt32} (h : lookup bs w = some i) :
    ∃ k, i = UInt32.ofNat k ∧ bs[k]? = some w ∧ ∀ j < k, bs[j]? ≠ some w := by
  rw [lookup, Option.map_eq_some_iff] at h
  obtain ⟨k, hk, rfl⟩ := h
  obtain ⟨hlt, hw, hlow⟩ := List.findIdx?_eq_some_iff_getElem.1 hk
  refine ⟨k, rfl, List.getElem?_eq_some_iff.2 ⟨hlt, of_decide_eq_true hw⟩, ?_⟩
  intro j hj hget
  obtain ⟨hjlt, hjw⟩ := List.getElem?_eq_some_iff.1 hget
  exact hlow j hj (decide_eq_true hjw)

/-- The delta misses no block of the old file: no literal has a full block of it inside, literals
are neither empty nor adjacent, and the copy of a full window names the first block with these
bytes. -/
structure MissesNothing (n : ℕ) (old new : Bytes) (d : Delta) : Prop where
  literal : ∀ p, .data p ∈ d.ops → ∀ b ∈ blocks n old, b.length = n → ¬ b <:+: p
  tidy : Tidy d.ops
  first : ∀ i w, (.copy i, w) ∈ spans n d.ops new → w.length = n →
    (blocks n old)[i.toNat]? = some w ∧ ∀ k < i.toNat, (blocks n old)[k]? ≠ some w

/-- `w` is a full window of the new file that a scan which compares bytes copies. -/
def CopiedWindow (n : ℕ) (old new w : Bytes) : Prop :=
  w.length = n ∧ ∃ i, (.copy i, w) ∈ spans n (scan (lookup (blocks n old)) n [] new) new

/-- **No missed match.**  For every old file, new file and block size, where SHA-256 does not
collide on what is compared: the delta misses no block of the old file if and only if every full
window that is copied occurs among the first 2³² blocks of the old file. -/
theorem no_missed_match_iff (old new pooled : Bytes) (n fuel : ℕ) (hn : 1 ≤ n)
    (hmax : (n : Int) ≤ maxBlockSize) (hd : Distinguishes n old new) (hfuel : new.length < fuel) :
    (∃ sig d, generateSignature (Reader.ofBytes old) n = .ok sig ∧
      generateDelta fuel pooled (Reader.ofBytes new) sig = .ok d ∧ MissesNothing n old new d) ↔
    ∀ w, CopiedWindow n old new w → w ∈ (blocks n old).take (2 ^ 32) := by
  obtain ⟨sig, d, hsig, hgen, hops⟩ := generateDelta_lookup old new pooled hn hmax hd hfuel
  constructor
  · rintro ⟨sig', d', hsig', hgen', h⟩ w ⟨hw, i, hmem⟩
    obtain rfl : sig = sig' := Except.ok.inj (hsig.symm.trans hsig')
    obtain rfl : d = d' := Except.ok.inj (hgen.symm.trans hgen')
    rw [← hops] at hmem
    have hget := (h.first i w hmem hw).1
    rw [← List.getElem?_take_of_lt i.toNat_lt] at hget
    exact List.mem_of_getElem? hget
  · intro hcond
    refine ⟨sig, d, hsig, hgen, ?_, hops ▸ scan_tidy hn [] new, ?_⟩
    · intro p hp b hb hlen hinfix
      rw [hops] at hp
      refine lookup_none (scan_unfound hn [] new ?_ p hp b hlen hinfix) hb
      intro w hw hi
      have hle := hi.length_le
      rw [List.nil_append, List.length_take] at hle
      omega
    · intro i w hmem hw
      rw [hops] at hmem
      obtain ⟨k, rfl, hk, hlow⟩ := lookup_some (find_of_mem_spans hn [] new i w hmem)
      -- the first occurrence is at most the one among the first 2^32 blocks
      have hlt : k < 2 ^ 32 := by
        obtain ⟨j, hj⟩ := List.mem_iff_getElem?.1 (hcond w ⟨hw, _, hmem⟩)
        rw [List.getElem?_take] at hj
        split at hj
        · next hj₃₂ =>
          by_contra hge
          exact hlow j (by omega) hj
        · cases hj
      rw [UInt32.toNat_ofNat', Nat.mod_eq_of_lt hlt]
      exact ⟨hk, hlow⟩

/-- A window that is copied is a block of the old file. -/
theorem CopiedWindow.mem {n : ℕ} {old new w : Bytes} (hn : 1 ≤ n) (h : CopiedWindow n old new w) :
    w ∈ blocks n old := by
  obtain ⟨-, i, hmem⟩ := h
  obtain ⟨k, -, hk, -⟩ := lookup_some (find_of_mem_spans hn [] new i w hmem)
  exact List.mem_of_getElem? hk

/-- Blocks that move within a small file. -/
theorem no_missed_match_moved :
    ∃ sig d, generateSignature (Reader.ofBytes [1, 2, 3]) 2 = .ok sig ∧
      generateDelta 6 [] (Reader.ofBytes [3, 9, 1, 2, 3]) sig = .ok d ∧
      MissesNothing 2 [1, 2, 3] [3, 9, 1, 2, 3] d := by
  refine (no_missed_match_iff [1, 2, 3] [3, 9, 1, 2, 3] [] 2 6 (by decide) (by decide)
    (by decide +kernel) (by decide)).2 fun w hw => ?_
  rw [List.take_of_length_le (by decide)]
  exact hw.mem (by decide)

/-- The deltas of a file that is one byte, against `N` zeros and that byte in blocks of one. -/
theorem generateDelta_last_block {N : ℕ} (hN : 0 < N) :
    Distinguishes 1 (List.replicate N 0 ++ [1]) [1] ∧
      (blocks 1 (List.replicate N (0 : UInt8) ++ [1]))[0]? = some [0] ∧
      ∃ sig d, generateSignature (Reader.ofBytes (List.replicate N 0 ++ [1])) 1 = .ok sig ∧
        generateDelta 2 [] (Reader.ofBytes [1]) sig = .ok d ∧ d.ops = [.copy (UInt32.ofNat N)] := by
  have hblocks : blocks 1 (List.replicate N (0 : UInt8) ++ [1]) =
      List.replicate N [0] ++ [[1]] := by
    rw [blocks_one, List.map_append, List.map_replicate]
    rfl
  have hsha : ∀ w ∈ [[], [1]], ∀ b ∈ [[0], [1]], sum256 w = sum256 b → w = b := by decide +kernel
  have hdist : Distinguishes 1 (List.replicate N 0 ++ [1]) [1] := by
    intro w b hw hb
    refine hsha w ?_ b ?_
    · rcases hw with ⟨hlen, hi⟩ | ⟨hlen, -⟩
      · simp [hi.eq_of_length hlen]
      · simp [List.eq_nil_of_length_eq_zero (Nat.lt_one_iff.1 hlen)]
    · rw [hblocks] at hb
      rcases List.mem_append.1 hb with hb | hb
      · simp [List.eq_of_mem_replicate hb]
      · simp [List.mem_singleton.1 hb]
  have hlookup : lookup (blocks 1 (List.replicate N 0 ++ [1])) [1] = some (UInt32.ofNat N) := by
    have hidx : (List.replicate N ([0] : Bytes) ++ [[1]]).findIdx? (fun b => b = [1]) =
        some N := by
      simp [List.findIdx?_append, List.findIdx?_replicate]
    rw [lookup, hblocks, hidx]
    rfl
  obtain ⟨sig, d, hsig, hgen, hops⟩ := generateDelta_lookup (List.replicate N 0 ++ [1]) [1] []
    (n := 1) le_rfl (by decide) hdist (show [1].length < 2 by decide)
  refine ⟨hdist, ?_, sig, d, hsig, hgen, hops.trans ?_⟩
  · rw [hblocks, List.getElem?_append_left (by simpa using hN), List.getElem?_replicate, if_pos hN]
  · exact scan_match_last Nat.one_pos le_rfl hlookup (by decide)

/-- The old file is 2³² zeros and a one, in blocks of one byte; the new file is the one.  The block
with the one has the number 2³², which is cut to 0: the delta copies a zero. -/
theorem block_number_cut :
    Distinguishes 1 (List.replicate (2 ^ 32) 0 ++ [1]) [1] ∧
      (blocks 1 (List.replicate (2 ^ 32) (0 : UInt8) ++ [1]))[0]? = some [0] ∧
      ∃ sig d, generateSignature (Reader.ofBytes (List.replicate (2 ^ 32) 0 ++ [1])) 1 = .ok sig ∧
        generateDelta 2 [] (Reader.ofBytes [1]) sig = .ok d ∧ d.ops = [.copy 0] ∧
        ¬ MissesNothing 1 (List.replicate (2 ^ 32) 0 ++ [1]) [1] d := by
  have hcut : UInt32.ofNat (2 ^ 32) = 0 := by decide
  have hpos : 0 < 2 ^ 32 := by decide
  -- the list is never unfolded
  generalize 2 ^ 32 = N at hcut hpos ⊢
  obtain ⟨hdist, hzero, sig, d, hsig, hgen, hops⟩ := generateDelta_last_block hpos
  rw [hcut] at hops
  refine ⟨hdist, hzero, sig, d, hsig, hgen, hops, fun h => ?_⟩
  have hfirst := (h.first 0 [1] (by rw [hops]; exact List.mem_cons_self) rfl).1
  rw [show (0 : UInt32).toNat = 0 from rfl, hzero] at hfirst
  exact absurd hfirst (by decide)

/-! ### Unchanged files -/

/-- A block of the file is found in its signature. -/
theorem find_isSome {sig : Signature} {bs : List Bytes} {b : Bytes} (hi : Indexed sig)
    (hl : Lists sig bs) (hb : b ∈ bs) : ∃ i, sig.find b = some i := by
  obtain ⟨k, hk⟩ := List.mem_iff_getElem?.1 hb
  have hsome : (sig.blocks.find? fun e => e.weakHash = (computeBlockSignature b).1 ∧
      e.strongHash = (computeBlockSignature b).2).isSome := by
    rw [List.find?_isSome]
    exact ⟨entry k b, List.mem_of_getElem? (hl.block k b hk), by simp [entry]⟩
  obtain ⟨e, he⟩ := Option.isSome_iff_exists.1 hsome
  exact ⟨e.index, by rw [Signature.find, hi.first, he]; rfl⟩

/-- The scan of a file whose blocks are all found, if it has a full block. -/
theorem scan_all_found {find : Bytes → Option UInt32} {n : ℕ} (hn : 0 < n) :
    ∀ lit todo, lit = [] → n ≤ todo.length → (∀ b ∈ blocks n todo, ∃ i, find b = some i) →
      ∃ is : List UInt32, scan find n lit todo = is.map .copy ∧
        is.length = (blocks n todo).length := by
  have cut : ∀ todo : Bytes, n ≤ todo.length →
      blocks n todo = todo.take n :: blocks n (todo.drop n) := by
    intro todo hle
    exact blocks_of_ne_nil hn (List.length_pos_iff.mp (hn.trans_le hle))
  refine scan_cases find hn (motive := fun lit todo ops =>
    lit = [] → n ≤ todo.length → (∀ b ∈ blocks n todo, ∃ i, find b = some i) →
      ∃ is : List UInt32, ops = is.map .copy ∧ is.length = (blocks n todo).length) ?_ ?_ ?_ ?_ ?_
  · intro lit todo hlt _ hle
    omega
  · rintro _ todo i hle hf hr rfl - hfound
    rw [cut todo hle] at hfound ⊢
    by_cases hnil : todo.drop n = []
    · refine ⟨[i], ?_, ?_⟩
      · rw [hnil]
        rfl
      · rw [hnil]
        rfl
    · have hrest : blocks n (todo.drop n) = [todo.drop n] := by
        rw [blocks_of_ne_nil hn hnil, List.take_of_length_le hr.le,
          List.drop_eq_nil_of_le hr.le, blocks_nil]
      rw [hrest] at hfound ⊢
      obtain ⟨j, hj⟩ := hfound (todo.drop n) (by simp)
      refine ⟨[i, j], ?_, rfl⟩
      rw [scanTail, if_neg hnil, hj]
      rfl
  · rintro _ todo i ops hle hf hr ih rfl - hfound
    rw [cut todo hle] at hfound ⊢
    obtain ⟨is, rfl, hlen⟩ := ih rfl hr fun b hb => hfound b (List.mem_cons_of_mem _ hb)
    exact ⟨i :: is, rfl, by rw [List.length_cons, hlen]; rfl⟩
  · intro lit todo heq hf _ hle hfound
    rw [cut todo hle, List.take_of_length_le heq.le] at hfound
    obtain ⟨i, hi⟩ := hfound todo List.mem_cons_self
    rw [hf] at hi
    cases hi
  · intro lit b v ops hlt hf _ _ hle hfound
    rw [cut (b :: v) hle] at hfound
    obtain ⟨i, hi⟩ := hfound _ List.mem_cons_self
    rw [hf] at hi
    cases hi

theorem literalCount_copies (is : List UInt32) : literalCount (is.map .copy) = 0 := by
  induction is with
  | nil => rfl
  | cons i is ih =>
    rw [List.map_cons, ← List.singleton_append, literalCount_append, literalCount_copy, ih]

/-- **Unchanged files.**  The delta of a file that is not empty against its own signature consists
of one copy for each of its blocks, without literal bytes, if and only if the file has at least one
full block.  A file below that size is sent whole: only behind a match is a rest of less than a
block looked up. -/
theorem unchanged_copied_iff (file pooled : Bytes) (n fuel : ℕ) (hfile : file ≠ []) (hn : 1 ≤ n)
    (hmax : (n : Int) ≤ maxBlockSize) (hfuel : file.length < fuel) :
    (∃ sig d, generateSignature (Reader.ofBytes file) n = .ok sig ∧
      generateDelta fuel pooled (Reader.ofBytes file) sig = .ok d ∧
      (∀ o ∈ d.ops, ∃ i, o = .copy i) ∧ d.ops.length = (file.length + n - 1) / n ∧
      d.bytesLiteral = 0 ∧ d.bytesCopied = Int64.ofNat file.length) ↔
    n ≤ file.length := by
  obtain ⟨sig, hsig, hsz, -, hl⟩ := generateSignature_eq hn file
  obtain ⟨d, hgen, hops, -, -, -, hlit, hcopied⟩ :=
    generateDelta_scan hn hmax hsz pooled file hfuel
  constructor
  · rintro ⟨sig', d', hsig', hgen', hcopies, -⟩
    obtain rfl : sig = sig' := Except.ok.inj (hsig.symm.trans hsig')
    obtain rfl : d = d' := Except.ok.inj (hgen.symm.trans hgen')
    by_contra hlt
    rw [hops, scan_short (Nat.lt_of_not_le hlt), List.nil_append] at hcopies
    obtain ⟨i, hi⟩ := hcopies (.data file) (mem_flushed.2 ⟨rfl, hfile⟩)
    cases hi
  · intro hle
    have hi : Indexed sig := generateSignature_indexed hsig
    obtain ⟨is, his, hlen⟩ := scan_all_found hn [] file rfl hle fun b hb => find_isSome hi hl hb
    rw [his] at hops
    have hzero : d.bytesLiteral = 0 := by
      rw [hlit, hops, literalCount_copies]
      rfl
    refine ⟨sig, d, hsig, hgen, ?_, ?_, hzero, ?_⟩
    · intro o ho
      rw [hops] at ho
      obtain ⟨i, -, rfl⟩ := List.mem_map.1 ho
      exact ⟨i, rfl⟩
    · rw [hops, List.length_map, hlen, length_blocks hn]
    · rw [← hcopied, hzero, Int64.add_zero]

/-- A file of two full blocks and a rest. -/
theorem unchanged_copied_three :
    ∃ sig d, generateSignature (Reader.ofBytes [1, 2, 3, 4, 5]) 2 = .ok sig ∧
      generateDelta 6 [] (Reader.ofBytes [1, 2, 3, 4, 5]) sig = .ok d ∧
      (∀ o ∈ d.ops, ∃ i, o = .copy i) ∧ d.ops.length = 3 ∧
      d.bytesLiteral = 0 ∧ d.bytesCopied = 5 :=
  (unchanged_copied_iff [1, 2, 3, 4, 5] [] 2 6 (by decide) (by decide) (by decide)
    (by decide)).2 (by decide)

/-- A file of one byte with a block size of two is sent as a literal. -/
theorem short_file_literal :
    ∃ sig d, generateSignature (Reader.ofBytes [7]) 2 = .ok sig ∧
      generateDelta 2 [] (Reader.ofBytes [7]) sig = .ok d ∧ d.ops = [.data [7]] ∧
      d.bytesLiteral = 1 := by
  obtain ⟨sig, hsig, hsz, -, -⟩ := generateSignature_eq (n := 2) (by decide) [7]
  obtain ⟨d, hgen, hops, -, -, -, hlit, -⟩ := generateDelta_scan (n := 2) (by decide) (by decide)
    hsz [] [7] (show [7].length < 2 by decide)
  rw [scan_short (by decide)] at hops
  refine ⟨sig, d, hsig, hgen, hops, ?_⟩
  rw [hlit, hops]
  rfl

end FileSync.Deltas
