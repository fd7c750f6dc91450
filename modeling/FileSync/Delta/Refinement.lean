import FileSync.Delta.Scan

/-!
# Delta — the generator refines the scan

`GenerateDelta` against any signature whose block size `n` is in `1 … MaxBlockSize`, on a reader
that ends with `io.EOF`.  Between two rounds of the main loop the bytes hashed so far, the window
and the bytes still to be read are the new file (`Running`); a round does what the scan does with
the window and the rest in front of it (`step_match_last` … `step_literal`), and the loop ends with
the whole file hashed (`mainLoop_scan`).

`generateDelta_scan`: with more fuel than the file has bytes the generator returns, its operations
are the scan's, and its statistics are those of the operations.
-/

namespace FileSync.Deltas
open Sha256 (Digest Hasher sum256)

/-- The block a lookup of `w` in `sig` finds. -/
def Signature.find (sig : Signature) (w : Bytes) : Option UInt32 :=
  (findMatch sig (sig.findByWeakHash (computeBlockSignature w).1)
    (computeBlockSignature w).2).map (·.index)

/-! ### The statistics -/

/-- The number of copies. -/
def copyCount (ops : List DeltaOp) : ℕ :=
  (ops.map fun | .copy _ => 1 | .data _ => 0).sum

/-- The number of literal bytes. -/
def literalCount (ops : List DeltaOp) : ℕ :=
  (ops.map fun | .copy _ => 0 | .data d => d.length).sum

@[simp] theorem copyCount_append (o₁ o₂ : List DeltaOp) :
    copyCount (o₁ ++ o₂) = copyCount o₁ + copyCount o₂ := by simp [copyCount]

@[simp] theorem literalCount_append (o₁ o₂ : List DeltaOp) :
    literalCount (o₁ ++ o₂) = literalCount o₁ + literalCount o₂ := by simp [literalCount]

@[simp] theorem copyCount_copy (i : UInt32) : copyCount [.copy i] = 1 := rfl

@[simp] theorem copyCount_data (d : Bytes) : copyCount [.data d] = 0 := rfl

@[simp] theorem literalCount_copy (i : UInt32) : literalCount [.copy i] = 0 := rfl

@[simp] theorem literalCount_data (d : Bytes) : literalCount [.data d] = d.length := rfl

/-- The counters of `g` are those of its operations and of the bytes it has hashed. -/
structure Counted (g : Gen) : Prop where
  total : g.totalBytes = Int64.ofNat g.fileHasher.fed.length
  blocks : g.blocksCopied = copyCount g.ops
  literal : g.bytesLiteral = Int64.ofNat (literalCount g.ops)
  copied : g.bytesCopied + g.bytesLiteral + Int64.ofNat g.literalBuf.length = g.totalBytes

namespace Counted

variable {g : Gen}

theorem emitLiteral (h : Counted g) (p : Bytes) : Counted (g.emitLiteral p) where
  total := by simp [Gen.emitLiteral, h.total]
  blocks := h.blocks
  literal := h.literal
  copied := by
    simp only [Gen.emitLiteral, List.length_append, Int64.ofNat_add, ← h.copied]
    ac_rfl

theorem flush (h : Counted g) : Counted g.flush := by
  rw [Gen.flush]
  split
  · refine ⟨h.total, by simp [h.blocks], by simp [h.literal], ?_⟩
    simp only [← h.copied, List.length_nil]
    rw [show Int64.ofNat 0 = 0 from rfl, Int64.add_zero]
    ac_rfl
  · exact h

theorem emitCopy (h : Counted g) (hlit : g.literalBuf = []) (i : UInt32) {n : Int64} {w : Bytes}
    (hn : n = Int64.ofNat w.length) : Counted (g.emitCopy i n w) where
  total := by simp [Gen.emitCopy, h.total]
  blocks := by simp [Gen.emitCopy, h.blocks]
  literal := by simp [Gen.emitCopy, h.literal]
  copied := by
    simp only [Gen.emitCopy, ← h.copied, hn, hlit]
    ac_rfl

/-- The counters read neither the rolling hash, nor the reader, nor the end-of-file flag. -/
theorem congr {g' : Gen} (h : Counted g) (h₁ : g'.ops = g.ops)
    (h₂ : g'.blocksCopied = g.blocksCopied) (h₃ : g'.bytesCopied = g.bytesCopied)
    (h₄ : g'.bytesLiteral = g.bytesLiteral) (h₅ : g'.literalBuf = g.literalBuf)
    (h₆ : g'.fileHasher = g.fileHasher) (h₇ : g'.totalBytes = g.totalBytes) : Counted g' :=
  ⟨by rw [h₇, h₆, h.total], by rw [h₂, h₁, h.blocks], by rw [h₄, h₁, h.literal],
    by rw [h₃, h₄, h₅, h₇, h.copied]⟩

end Counted

theorem flush_ops (g : Gen) : g.flush.ops = g.ops ++ flushed g.literalBuf := by
  rw [Gen.flush, flushed]
  split <;> simp

@[simp] theorem flush_literalBuf (g : Gen) : g.flush.literalBuf = [] := by
  rw [Gen.flush]
  split
  · rfl
  · next h => exact List.eq_nil_of_length_eq_zero (by omega)

@[simp] theorem flush_fileHasher (g : Gen) : g.flush.fileHasher = g.fileHasher := by
  rw [Gen.flush]; split <;> rfl

@[simp] theorem flush_reader (g : Gen) : g.flush.reader = g.reader := by
  rw [Gen.flush]; split <;> rfl

@[simp] theorem flush_rh (g : Gen) : g.flush.rh = g.rh := by
  rw [Gen.flush]; split <;> rfl

@[simp] theorem flush_eofReached (g : Gen) : g.flush.eofReached = g.eofReached := by
  rw [Gen.flush]; split <;> rfl

@[simp] theorem flush_totalBytes (g : Gen) : g.flush.totalBytes = g.totalBytes := by
  rw [Gen.flush]; split <;> rfl

/-! ### Filling a window -/

/-- One byte of either loop: it is rolled in, and the loop goes on behind it. -/
theorem fill_step {n : ℕ} {g : Gen} {v p : Bytes} {b : UInt8} (hv : Ready n g.rh v)
    (hlt : v.length < n) (hr : g.reader = ⟨b :: p, none⟩) :
    ∃ rh, Ready n rh (v ++ [b]) ∧
      (∀ k c, fillNextWindow (k + 1) c g =
        fillNextWindow k (c + 1) { g with rh := rh, reader := ⟨p, none⟩ }) ∧
      ∀ k i, fillInitialWindow (k + 1) i g =
        fillInitialWindow k (i + 1) { g with rh := rh, reader := ⟨p, none⟩ } := by
  obtain ⟨rh, hroll, hv'⟩ := hv.rollIn hlt b
  refine ⟨rh, hv', fun k c => ?_, fun k i => ?_⟩
  · rw [fillNextWindow, hr]
    simp only [Reader.readByte_cons, hroll, Go.orPanic_some, Go.ok_bind]
  · rw [fillInitialWindow, hr]
    simp only [Reader.readByte_cons, hroll, Go.orPanic_some, Go.ok_bind]

/-- Filling the next window when the file holds it. -/
theorem fillNextWindow_full {n : ℕ} :
    ∀ (k c : ℕ) (g : Gen) (v p q : Bytes), Ready n g.rh v → v.length + k = n →
      g.reader = ⟨p ++ q, none⟩ → p.length = k →
      ∃ rh, fillNextWindow k c g = .ok ({ g with rh := rh, reader := ⟨q, none⟩ }, c + k) ∧
        Ready n rh (v ++ p) := by
  intro k
  induction k with
  | zero =>
    intro c g v p q hv _ hr hp
    obtain rfl := List.eq_nil_of_length_eq_zero hp
    refine ⟨g.rh, ?_, by simpa using hv⟩
    rw [List.nil_append] at hr
    rw [fillNextWindow, Nat.add_zero, ← hr]
  | succ k ih =>
    intro c g v p q hv hk hr hp
    cases p with
    | nil => simp at hp
    | cons b p =>
      rw [List.cons_append] at hr
      obtain ⟨rh₁, hv₁, hnext, -⟩ := fill_step hv (by omega) hr
      obtain ⟨rh, hrest, hv₂⟩ := ih (c + 1) { g with rh := rh₁, reader := ⟨p ++ q, none⟩ }
        (v ++ [b]) p q hv₁ (by simp; omega) rfl (by simpa using hp)
      refine ⟨rh, ?_, by simpa using hv₂⟩
      rw [hnext, hrest, show c + 1 + k = c + (k + 1) by omega]

/-- Filling the next window when the file ends within it. -/
theorem fillNextWindow_eof {n : ℕ} :
    ∀ (k c : ℕ) (g : Gen) (v p : Bytes), Ready n g.rh v → v.length + k = n →
      g.reader = ⟨p, none⟩ → p.length < k →
      ∃ rh, fillNextWindow k c g =
          .ok ({ g with rh := rh, reader := ⟨[], none⟩, eofReached := true }, c + p.length) ∧
        Ready n rh (v ++ p) := by
  intro k
  induction k with
  | zero => intro c g v p _ _ _ hp; omega
  | succ k ih =>
    intro c g v p hv hk hr hp
    cases p with
    | nil =>
      refine ⟨g.rh, ?_, by simpa using hv⟩
      rw [fillNextWindow, hr]
      simp only [Reader.readByte_nil, List.length_nil, Nat.add_zero]
    | cons b p =>
      rw [List.length_cons] at hp
      obtain ⟨rh₁, hv₁, hnext, -⟩ := fill_step hv (by omega) hr
      obtain ⟨rh, hrest, hv₂⟩ := ih (c + 1) { g with rh := rh₁, reader := ⟨p, none⟩ }
        (v ++ [b]) p hv₁ (by simp; omega) rfl (by omega)
      refine ⟨rh, ?_, by simpa using hv₂⟩
      rw [hnext, hrest, List.length_cons, show c + 1 + p.length = c + (p.length + 1) by omega]

/-- The initial window when the file holds it. -/
theorem fillInitialWindow_full {n : ℕ} :
    ∀ (k i : ℕ) (g : Gen) (v p q : Bytes), Ready n g.rh v → v.length + k = n →
      g.reader = ⟨p ++ q, none⟩ → p.length = k →
      ∃ rh, fillInitialWindow k i g = .ok { g with rh := rh, reader := ⟨q, none⟩ } ∧
        Ready n rh (v ++ p) := by
  intro k
  induction k with
  | zero =>
    intro i g v p q hv _ hr hp
    obtain rfl := List.eq_nil_of_length_eq_zero hp
    refine ⟨g.rh, ?_, by simpa using hv⟩
    rw [List.nil_append] at hr
    rw [fillInitialWindow, ← hr]
  | succ k ih =>
    intro i g v p q hv hk hr hp
    cases p with
    | nil => simp at hp
    | cons b p =>
      rw [List.cons_append] at hr
      obtain ⟨rh₁, hv₁, -, hnext⟩ := fill_step hv (by omega) hr
      obtain ⟨rh, hrest, hv₂⟩ := ih (i + 1) { g with rh := rh₁, reader := ⟨p ++ q, none⟩ }
        (v ++ [b]) p q hv₁ (by simp; omega) rfl (by simpa using hp)
      exact ⟨rh, by rw [hnext, hrest], by simpa using hv₂⟩

/-- The initial window when the file is smaller than a block: all of it is literal data. -/
theorem fillInitialWindow_eof {n : ℕ} :
    ∀ (k : ℕ) (g : Gen) (v p : Bytes), Ready n g.rh v → v.length + p.length ≤ n →
      g.reader = ⟨p, none⟩ → p.length < k →
      ∃ rh, fillInitialWindow k v.length g =
        .ok { (g.emitLiteral (v ++ p)) with
          rh := rh, reader := ⟨[], none⟩, eofReached := true } := by
  intro k
  induction k with
  | zero => intro g v p _ _ _ hp; omega
  | succ k ih =>
    intro g v p hv hk hr hp
    cases p with
    | nil =>
      refine ⟨g.rh, ?_⟩
      rw [fillInitialWindow, hr]
      simp only [Reader.readByte_nil]
      split
      · obtain ⟨u, hu, hs⟩ := hv.window_slice
        simp only [hu, hs, Go.orPanic_some, Go.ok_bind, List.append_nil, Gen.emitLiteral, ← hr]
      · next h =>
          obtain rfl : v = [] := List.eq_nil_of_length_eq_zero (by omega)
          simp [Gen.emitLiteral, Hasher.write, ← hr, show Int64.ofNat 0 = 0 from rfl]
    | cons b p =>
      rw [List.length_cons] at hk hp
      obtain ⟨rh₁, hv₁, -, hnext⟩ := fill_step hv (by omega) hr
      obtain ⟨rh, hrest⟩ := ih { g with rh := rh₁, reader := ⟨p, none⟩ } (v ++ [b]) p hv₁
        (by simp; omega) rfl (Nat.lt_of_succ_lt_succ hp)
      refine ⟨rh, ?_⟩
      rw [List.length_append, List.length_singleton] at hrest
      rw [hnext, hrest, List.append_assoc, List.singleton_append]
      rfl

/-! ### One round of the main loop -/

/-- Between two rounds: the window `w` is full, `q` is still to be read. -/
structure Running (n : ℕ) (new : Bytes) (g : Gen) (w q : Bytes) : Prop where
  ready : Ready n g.rh w
  full : w.length = n
  reader : g.reader = ⟨q, none⟩
  running : g.eofReached = false
  split : g.fileHasher.fed ++ (w ++ q) = new
  counted : Counted g

/-- After the last round: the whole file has been hashed. -/
structure Finished (new : Bytes) (g : Gen) : Prop where
  eof : g.eofReached = true
  fed : g.fileHasher.fed = new
  counted : Counted g

section Round
variable {sig : Signature} {n : ℕ} {new w q : Bytes} {g : Gen}

theorem matchWindow_eq (h : Running n new g w q) :
    matchWindow sig g = .ok ((findMatch sig (sig.findByWeakHash (computeBlockSignature w).1)
      (computeBlockSignature w).2).map fun b => (b, w)) := by
  rw [matchWindow, h.ready.sum_eq]
  split
  · simp only [h.ready.window_full h.full, Go.orPanic_some, Go.ok_bind]
  · next hc =>
      have : sig.findByWeakHash (computeBlockSignature w).1 = [] :=
        List.eq_nil_of_length_eq_zero (by omega)
      rw [this]
      rfl

/-- A round whose window is found. -/
theorem step_of_find {i : UInt32} (h : Running n new g w q) (hf : sig.find w = some i) :
    ∃ block : BlockSignature, block.index = i ∧ step sig g = afterMatch sig g block w := by
  rw [Signature.find, Option.map_eq_some_iff] at hf
  obtain ⟨block, hb, rfl⟩ := hf
  refine ⟨block, rfl, ?_⟩
  rw [step, if_pos (h.ready.isFull_of h.full), matchWindow_eq h, hb]
  rfl

/-- A round whose window is not found. -/
theorem step_of_not_find (h : Running n new g w q) (hf : sig.find w = none) :
    step sig g = rollLiteral g := by
  rw [Signature.find, Option.map_eq_none_iff] at hf
  rw [step, if_pos (h.ready.isFull_of h.full), matchWindow_eq h, hf]
  rfl

/-- What `afterMatch` leaves before it fills the next window. -/
theorem copyWindow_spec (hsig : sig.blockSize = n) (h : Running n new g w q)
    (block : BlockSignature) {g₁ : Gen} (hg₁ : g.copyWindow sig block w = g₁) :
    Ready n g₁.rh [] ∧ g₁.reader = ⟨q, none⟩ ∧ g₁.eofReached = false ∧ Counted g₁ ∧
      g₁.fileHasher.fed ++ q = new ∧ g₁.literalBuf = [] ∧
      g₁.ops = g.ops ++ flushed g.literalBuf ++ [.copy block.index] := by
  subst hg₁
  have hc := h.counted.flush.emitCopy (flush_literalBuf g) block.index
    (n := Int64.ofInt sig.blockSize) (w := w) (by rw [hsig, h.full]; rfl)
  refine ⟨?_, ?_, ?_, hc.congr rfl rfl rfl rfl rfl rfl rfl, ?_, ?_, ?_⟩
  · simp only [Gen.copyWindow, Gen.emitCopy, flush_rh, hsig]
    exact h.ready.reset
  · simp [Gen.copyWindow, Gen.emitCopy, h.reader]
  · simp [Gen.copyWindow, Gen.emitCopy, h.running]
  · simpa [Gen.copyWindow, Gen.emitCopy] using h.split
  · simp [Gen.copyWindow, Gen.emitCopy]
  · simp [Gen.copyWindow, Gen.emitCopy, flush_ops]

/-- **A match with another full window behind it.** -/
theorem step_match {i : UInt32} (hsig : sig.blockSize = n) (h : Running n new g w q)
    (hf : sig.find w = some i) (hq : n ≤ q.length) :
    ∃ g', step sig g = .ok g' ∧ Running n new g' (q.take n) (q.drop n) ∧
      g'.ops = g.ops ++ flushed g.literalBuf ++ [.copy i] ∧ g'.literalBuf = [] := by
  obtain ⟨block, rfl, hstep⟩ := step_of_find h hf
  generalize hg₁ : g.copyWindow sig block w = g₁
  obtain ⟨hready, hreader, heof, hcount, hfed, hlit, hops⟩ := copyWindow_spec hsig h block hg₁
  have hlen : (q.take n).length = n := by simp; omega
  obtain ⟨rh, hfill, hrh⟩ := fillNextWindow_full n 0 g₁ [] (q.take n) (q.drop n) hready (by simp)
    (by rw [List.take_append_drop, hreader]) hlen
  refine ⟨{ g₁ with rh := rh, reader := ⟨q.drop n, none⟩ }, ?_,
    ⟨hrh, hlen, rfl, heof, by rw [List.take_append_drop]; exact hfed,
      hcount.congr rfl rfl rfl rfl rfl rfl rfl⟩, hops, hlit⟩
  rw [hstep, afterMatch, hg₁, hsig, Int.toNat_natCast, hfill]
  simp [heof]

/-- **A match behind which the file ends.** -/
theorem step_match_last {i : UInt32} (hsig : sig.blockSize = n) (h : Running n new g w q)
    (hf : sig.find w = some i) (hq : q.length < n) :
    ∃ g', step sig g = .ok g' ∧ Finished new g' ∧
      g'.ops ++ flushed g'.literalBuf =
        g.ops ++ flushed g.literalBuf ++ .copy i :: scanTail sig.find q := by
  obtain ⟨block, rfl, hstep⟩ := step_of_find h hf
  generalize hg₁ : g.copyWindow sig block w = g₁
  obtain ⟨hready, hreader, heof, hcount, hfed, hlit, hops⟩ := copyWindow_spec hsig h block hg₁
  obtain ⟨rh, hfill, hrh⟩ := fillNextWindow_eof n 0 g₁ [] q hready (by simp) hreader hq
  rw [List.nil_append] at hrh
  -- the state at the end of the file, before the rest is dealt with
  generalize hg₂ : { g₁ with rh := rh, reader := ⟨[], none⟩, eofReached := true } = g₂ at hfill
  have hcount₂ : Counted g₂ := by subst hg₂; exact hcount.congr rfl rfl rfl rfl rfl rfl rfl
  have hrh₂ : Ready n g₂.rh q := by subst hg₂; exact hrh
  have heof₂ : g₂.eofReached = true := by subst hg₂; rfl
  have hfed₂ : g₂.fileHasher.fed ++ q = new := by subst hg₂; exact hfed
  have hlit₂ : g₂.literalBuf = [] := by subst hg₂; exact hlit
  have hops₂ : g₂.ops = g.ops ++ flushed g.literalBuf ++ [.copy block.index] := by
    subst hg₂; exact hops
  rw [hstep, afterMatch, hg₁, hsig, Int.toNat_natCast, hfill]
  simp only [Go.ok_bind, heof₂, true_and, Nat.zero_add]
  by_cases hq₀ : q = []
  · subst hq₀
    refine ⟨g₂, rfl, ⟨heof₂, by simpa using hfed₂, hcount₂⟩, ?_⟩
    simp [hops₂, hlit₂, scanTail, flushed]
  · rw [if_pos (List.length_pos_iff.mpr hq₀), partialBlock]
    obtain ⟨u, hu, hs⟩ := hrh₂.window_slice
    simp only [hu, hs, Go.orPanic_some, Go.ok_bind]
    cases hm : findMatch sig (sig.findByWeakHash (computeBlockSignature q).1)
        (computeBlockSignature q).2 with
    | some pBlock =>
      have hfind : sig.find q = some pBlock.index := by rw [Signature.find, hm]; rfl
      refine ⟨_, rfl, ⟨heof₂, hfed₂, hcount₂.emitCopy hlit₂ _ rfl⟩, ?_⟩
      simp [Gen.emitCopy, hops₂, hlit₂, scanTail, hq₀, hfind, flushed]
    | none =>
      have hfind : sig.find q = none := by rw [Signature.find, hm]; rfl
      refine ⟨_, rfl, ⟨heof₂, hfed₂, hcount₂.emitLiteral q⟩, ?_⟩
      simp [Gen.emitLiteral, hops₂, hlit₂, scanTail, hq₀, hfind]

/-- **No match, and another byte to read.** -/
theorem step_literal {b c : UInt8} {v : Bytes} (h : Running n new g (b :: v) (c :: q))
    (hf : sig.find (b :: v) = none) :
    ∃ g', step sig g = .ok g' ∧ Running n new g' (v ++ [c]) q ∧
      g'.ops = g.ops ∧ g'.literalBuf = g.literalBuf ++ [b] := by
  obtain ⟨rh, hroll, hrh⟩ := h.ready.roll h.full c
  have hfull := h.ready.isFull_of h.full
  refine ⟨{ g.emitLiteral [b] with rh := rh, reader := ⟨q, none⟩ }, ?_, ⟨hrh, ?_, rfl, ?_, ?_, ?_⟩,
    rfl, rfl⟩
  · rw [step_of_not_find h hf, rollLiteral, if_pos hfull, h.ready.oldest]
    simp only [Go.orPanic_some, Go.ok_bind, Gen.emitLiteral, h.reader, Reader.readByte_cons, hfull,
      if_true, hroll]
  · have := h.full
    simp only [List.length_append, List.length_cons, List.length_nil] at this ⊢
    omega
  · exact h.running
  · simpa [Gen.emitLiteral] using h.split
  · exact (h.counted.emitLiteral [b]).congr rfl rfl rfl rfl rfl rfl rfl

/-- **No match, and the file ends.** -/
theorem step_last (h : Running n new g w []) (hf : sig.find w = none) :
    ∃ g', step sig g = .ok g' ∧ Finished new g' ∧
      g'.ops = g.ops ∧ g'.literalBuf = g.literalBuf ++ w := by
  have hfull := h.ready.isFull_of h.full
  have hpos := h.ready.pos_size
  cases w with
  | nil => rw [← h.full] at hpos; simp at hpos
  | cons b v =>
    have hslice : slice (b :: v) 1 (b :: v).length = some v := by
      have := @slice_natCast _ (b :: v) 1 (b :: v).length (by simp) le_rfl
      rw [List.take_length] at this
      exact this
    refine ⟨{ (g.emitLiteral [b]).emitLiteral v with eofReached := true }, ?_, ⟨rfl, ?_, ?_⟩,
      rfl, ?_⟩
    · rw [step_of_not_find h hf, rollLiteral, if_pos hfull, h.ready.oldest]
      simp only [Go.orPanic_some, Go.ok_bind, Gen.emitLiteral, h.reader, Reader.readByte_nil,
        hfull, if_true, h.ready.window_full h.full, hslice]
    · simpa [Gen.emitLiteral] using h.split
    · exact ((h.counted.emitLiteral [b]).emitLiteral v).congr rfl rfl rfl rfl rfl rfl rfl
    · simp [Gen.emitLiteral]

end Round

/-! ### The whole run -/

/-- **The main loop is the scan.**  From a running state, with more fuel than bytes to be read,
the loop ends with the whole file hashed and the scan's operations. -/
theorem mainLoop_scan {sig : Signature} {n : ℕ} (new : Bytes) (hn : 0 < n)
    (hsig : sig.blockSize = n) :
    ∀ (lit todo : Bytes), n ≤ todo.length →
      ∀ (fuel : ℕ) (g : Gen) (w q : Bytes), Running n new g w q → g.literalBuf = lit →
        w ++ q = todo → q.length < fuel →
        ∃ g', mainLoop sig fuel g = .ok g' ∧ Finished new g' ∧
          g'.ops ++ flushed g'.literalBuf = g.ops ++ scan sig.find n lit todo := by
  have done : ∀ (fuel : ℕ) (g g' : Gen), g.eofReached = false → step sig g = .ok g' →
      mainLoop sig (fuel + 1) g = mainLoop sig fuel g' := by
    intro fuel g g' he hs
    rw [mainLoop, he, hs]
    rfl
  have stop : ∀ (fuel : ℕ) (g : Gen), Finished new g → mainLoop sig fuel g = .ok g := by
    intro fuel g h
    cases fuel <;> rw [mainLoop, h.eof] <;> rfl
  refine scan_induction hn sig.find ?_ ?_ ?_ ?_
  · intro lit todo i hle hf hr fuel g w q h hlit htodo hfuel
    subst hlit htodo
    rw [List.take_left' h.full] at hf
    rw [List.drop_left' h.full] at hr
    obtain ⟨g', hs, hfin, hops⟩ := step_match_last hsig h hf hr
    obtain ⟨fuel, rfl⟩ := Nat.exists_eq_add_one_of_ne_zero (by omega : fuel ≠ 0)
    refine ⟨g', by rw [done fuel g g' h.running hs, stop _ _ hfin], hfin, ?_⟩
    rw [scan_match_last (i := i) hn hle (by rwa [List.take_left' h.full])
      (by rwa [List.drop_left' h.full]), List.drop_left' h.full, hops, List.append_assoc]
  · intro lit todo i hle hf hr ih fuel g w q h hlit htodo hfuel
    subst hlit htodo
    rw [List.take_left' h.full] at hf
    rw [List.drop_left' h.full] at hr ih
    obtain ⟨g₁, hs, hrun, hops, hlit⟩ := step_match hsig h hf hr
    obtain ⟨fuel, rfl⟩ := Nat.exists_eq_add_one_of_ne_zero (by omega : fuel ≠ 0)
    obtain ⟨g', hloop, hfin, hops'⟩ := ih fuel g₁ _ _ hrun hlit (List.take_append_drop n q)
      (by simp; omega)
    refine ⟨g', by rw [done fuel g g₁ h.running hs, hloop], hfin, ?_⟩
    rw [scan_match (i := i) hn hle (by rwa [List.take_left' h.full])
      (by rwa [List.drop_left' h.full]), List.drop_left' h.full, hops', hops]
    simp
  · intro lit todo heq hf fuel g w q h hlit htodo hfuel
    subst hlit htodo
    obtain rfl : q = [] := by
      have := h.full
      rw [List.length_append] at heq
      exact List.eq_nil_of_length_eq_zero (by omega)
    rw [List.take_left' h.full] at hf
    obtain ⟨g', hs, hfin, hops, hlit⟩ := step_last h hf
    obtain ⟨fuel, rfl⟩ := Nat.exists_eq_add_one_of_ne_zero (by omega : fuel ≠ 0)
    refine ⟨g', by rw [done fuel g g' h.running hs, stop _ _ hfin], hfin, ?_⟩
    rw [scan_last hn heq (by rwa [List.take_left' h.full]), hops, hlit, List.append_nil]
  · intro lit b v hlt hf ih fuel g w q h hlit htodo hfuel
    subst hlit
    have hfull := h.full
    -- the window starts with `b`, and the file goes on behind it
    cases w with
    | nil => simp at hfull; omega
    | cons b' w =>
      obtain ⟨rfl, rfl⟩ : b' = b ∧ w ++ q = v := by simpa using htodo
      cases q with
      | nil => simp at hlt hfull; omega
      | cons c q =>
        rw [← List.cons_append, List.take_left' h.full] at hf
        obtain ⟨g₁, hs, hrun, hops, hlit⟩ := step_literal h hf
        obtain ⟨fuel, rfl⟩ := Nat.exists_eq_add_one_of_ne_zero (by omega : fuel ≠ 0)
        obtain ⟨g', hloop, hfin, hops'⟩ := ih fuel g₁ _ _ hrun hlit (by simp)
          (by simp at hfuel; omega)
        refine ⟨g', by rw [done fuel g g₁ h.running hs, hloop], hfin, ?_⟩
        rw [scan_literal hn hlt (by rwa [← List.cons_append, List.take_left' h.full]), hops',
          hops]

/-- The size and the hash of a delta are those of the new file, and its statistics those of its
operations. -/
structure Accounted (new : Bytes) (d : Delta) : Prop where
  size : d.newFileSize = Int64.ofNat new.length
  hash : d.newFileHash = sum256 new
  blocks : d.blocksCopied = copyCount d.ops
  literal : d.bytesLiteral = Int64.ofNat (literalCount d.ops)
  total : d.bytesCopied + d.bytesLiteral = Int64.ofNat new.length

/-- What is left to do once the whole file is hashed. -/
theorem generateDelta_of_finished {sig : Signature} (fuel : ℕ) {pooled new : Bytes} {g₀ g : Gen}
    (hfill : fillInitialWindow sig.blockSize.toNat 0
      (Gen.init pooled (Reader.ofBytes new) sig) = .ok g₀)
    (hloop : mainLoop sig fuel g₀ = .ok g) (hfin : Finished new g) :
    ∃ d, generateDelta fuel pooled (Reader.ofBytes new) sig = .ok d ∧
      d.ops = g.ops ++ flushed g.literalBuf ∧ Accounted new d := by
  have hc := hfin.counted.flush
  have htotal : g.flush.totalBytes = Int64.ofNat new.length := by
    rw [hc.total, flush_fileHasher, hfin.fed]
  refine ⟨⟨g.flush.ops, g.flush.totalBytes, g.flush.fileHasher.sum, g.flush.blocksCopied,
    g.flush.bytesCopied, g.flush.bytesLiteral⟩, ?_, flush_ops g, htotal, ?_, hc.blocks,
    hc.literal, ?_⟩
  · simp only [generateDelta, hfill, hloop, Go.ok_bind]
  · simp only [flush_fileHasher, Hasher.sum, hfin.fed]
  · simp only [← htotal, ← hc.copied, flush_literalBuf, List.length_nil]
    exact (Int64.add_zero _).symm

/-- Nothing of the new file has been read. -/
structure Fresh (new : Bytes) (g : Gen) : Prop where
  reader : g.reader = ⟨new, none⟩
  running : g.eofReached = false
  fed : g.fileHasher.fed = []
  literal : g.literalBuf = []
  ops : g.ops = []
  counted : Counted g

theorem fresh_init (pooled new : Bytes) (sig : Signature) :
    Fresh new (Gen.init pooled (Reader.ofBytes new) sig) :=
  ⟨rfl, rfl, rfl, rfl, rfl, ⟨rfl, rfl, rfl, rfl⟩⟩

/-- A file that ends within the initial window is one literal. -/
theorem generateDelta_short {sig : Signature} {n : ℕ} {pooled new : Bytes}
    (hready : Ready n (newRollingHash pooled sig.blockSize) []) (hle : new.length ≤ n)
    (hlt : new.length < sig.blockSize.toNat) (fuel : ℕ) :
    ∃ d, generateDelta fuel pooled (Reader.ofBytes new) sig = .ok d ∧ d.ops = flushed new ∧
      Accounted new d := by
  generalize hg₀ : Gen.init pooled (Reader.ofBytes new) sig = g₀
  have hready₀ : Ready n g₀.rh [] := by subst hg₀; exact hready
  have h₀ : Fresh new g₀ := hg₀ ▸ fresh_init pooled new sig
  obtain ⟨rh, hfill⟩ := fillInitialWindow_eof sig.blockSize.toNat g₀ [] new hready₀
    (by simpa using hle) h₀.reader hlt
  rw [List.nil_append, List.length_nil] at hfill
  have hfin : Finished new { g₀.emitLiteral new with
      rh := rh, reader := ⟨[], none⟩, eofReached := true } :=
    ⟨rfl, by simp [Gen.emitLiteral, h₀.fed],
      (h₀.counted.emitLiteral new).congr rfl rfl rfl rfl rfl rfl rfl⟩
  obtain ⟨d, hd, hdops, hrest⟩ := generateDelta_of_finished fuel
    (by rw [hg₀]; exact hfill) (by cases fuel <;> simp [mainLoop]) hfin
  refine ⟨d, hd, ?_, hrest⟩
  rw [hdops]
  simp [Gen.emitLiteral, h₀.literal, h₀.ops]

/-- **The generator refines the scan.**  With more fuel than the new file has bytes,
`GenerateDelta` returns; its operations are the scan's, the size and the hash are those of the new
file, and the statistics are those of the operations. -/
theorem generateDelta_scan {sig : Signature} {n : ℕ} (hn : 0 < n) (hmax : (n : Int) ≤ maxBlockSize)
    (hsig : sig.blockSize = n) (pooled new : Bytes) {fuel : ℕ} (hfuel : new.length < fuel) :
    ∃ d, generateDelta fuel pooled (Reader.ofBytes new) sig = .ok d ∧
      d.ops = scan sig.find n [] new ∧ Accounted new d := by
  have hnew : Ready n (newRollingHash pooled sig.blockSize) [] := by
    rw [hsig]
    exact ready_new pooled hn hmax
  by_cases hle : n ≤ new.length
  swap
  · have hlt := Nat.lt_of_not_le hle
    rw [scan_short hlt]
    exact generateDelta_short hnew hlt.le (by rw [hsig]; exact hlt) fuel
  generalize hg₀ : Gen.init pooled (Reader.ofBytes new) sig = g₀
  have hready : Ready n g₀.rh [] := by subst hg₀; exact hnew
  have h₀ : Fresh new g₀ := hg₀ ▸ fresh_init pooled new sig
  have hlen : (new.take n).length = n := by simp; omega
  obtain ⟨rh, hfill, hrh⟩ := fillInitialWindow_full n 0 g₀ [] (new.take n) (new.drop n) hready
    (by simp) (by rw [List.take_append_drop, h₀.reader]) hlen
  obtain ⟨g, hloop, hfin, hscan⟩ := mainLoop_scan new hn hsig [] new hle fuel
    { g₀ with rh := rh, reader := ⟨new.drop n, none⟩ } (new.take n) (new.drop n)
    ⟨hrh, hlen, rfl, h₀.running, by simp [h₀.fed],
      h₀.counted.congr rfl rfl rfl rfl rfl rfl rfl⟩ h₀.literal
    (List.take_append_drop n new) (by simp; omega)
  obtain ⟨d, hd, hdops, hrest⟩ :=
    generateDelta_of_finished fuel (by rw [hg₀, hsig, Int.toNat_natCast]; exact hfill) hloop hfin
  refine ⟨d, hd, ?_, hrest⟩
  rw [hdops, hscan, h₀.ops, List.nil_append]

/-! ### The accounting -/

theorem literalCount_flushed (lit : Bytes) : literalCount (flushed lit) = lit.length := by
  rw [flushed]
  split
  · rw [literalCount_data]
  · next h => rw [Nat.eq_zero_of_not_pos h]; rfl

/-- The literal bytes of a scan are bytes of its input. -/
theorem literalCount_scan_le {find : Bytes → Option UInt32} {n : ℕ} (hn : 0 < n)
    (lit todo : Bytes) : literalCount (scan find n lit todo) ≤ lit.length + todo.length := by
  have copied : ∀ (lit todo : Bytes) (i : UInt32) (ops : List DeltaOp),
      literalCount ops ≤ (todo.drop n).length →
      literalCount (flushed lit ++ .copy i :: ops) ≤ lit.length + todo.length := by
    intro lit todo i ops h
    rw [List.length_drop] at h
    rw [literalCount_append, literalCount_flushed, ← List.singleton_append, literalCount_append,
      literalCount_copy]
    omega
  refine scan_cases find hn (motive := fun lit todo ops =>
    literalCount ops ≤ lit.length + todo.length) ?_ ?_ ?_ ?_ ?_ lit todo
  · intro lit todo _
    rw [literalCount_flushed, List.length_append]
  · intro lit todo i _ _ _
    refine copied lit todo i _ ?_
    rcases scanTail_cases find (todo.drop n) with ⟨-, h⟩ | ⟨j, -, h⟩ | h
    · rw [h]
      exact Nat.zero_le _
    · rw [h]
      exact Nat.zero_le _
    · rw [h, literalCount_flushed]
  · intro lit todo i ops _ _ _ ih
    exact copied lit todo i ops (by simpa using ih)
  · intro lit todo _ _
    rw [literalCount_flushed, List.length_append]
  · intro lit b v ops _ _ ih
    rw [List.length_append, List.length_singleton] at ih
    rw [List.length_cons]
    omega

/-- **The accounting.**  For every new file and every signature with a block size from 1 to
`MaxBlockSize`, whatever its entries and its index are, `GenerateDelta` returns, the size and the
hash are those of the new file, and the statistics are those of the operations.  The counters are
`int64`s; for a file whose size is one they are the numbers themselves. -/
theorem delta_accounting (sig : Signature) (n fuel : ℕ) (pooled new : Bytes) (hn : 1 ≤ n)
    (hmax : (n : Int) ≤ maxBlockSize) (hsig : sig.blockSize = n) (hfuel : new.length < fuel) :
    ∃ d, generateDelta fuel pooled (Reader.ofBytes new) sig = .ok d ∧
      d.newFileSize = Int64.ofNat new.length ∧ d.newFileHash = sum256 new ∧
      d.bytesCopied + d.bytesLiteral = Int64.ofNat new.length ∧
      d.bytesLiteral = Int64.ofNat (literalCount d.ops) ∧ d.blocksCopied = copyCount d.ops ∧
      (new.length < 2 ^ 63 → d.newFileSize.toInt = new.length ∧
        d.bytesCopied.toInt + d.bytesLiteral.toInt = new.length ∧
        d.bytesLiteral.toInt = literalCount d.ops) := by
  obtain ⟨d, hgen, hops, hsize, hhash, hblocks, hlit, hsum⟩ :=
    generateDelta_scan hn hmax hsig pooled new hfuel
  refine ⟨d, hgen, hsize, hhash, hsum, hlit, hblocks, fun hlt => ?_⟩
  have hle : literalCount d.ops ≤ new.length := by
    have := @literalCount_scan_le sig.find n hn [] new
    rwa [← hops, List.length_nil, Nat.zero_add] at this
  have hcopied : d.bytesCopied = Int64.ofNat (new.length - literalCount d.ops) := by
    have hsub : d.bytesCopied + d.bytesLiteral - d.bytesLiteral = d.bytesCopied :=
      Int64.add_sub_cancel _ _
    rw [← hsub, hsum, hlit, Int64.ofNat_sub _ _ hle]
  rw [hsize, hcopied, hlit, Int64.toInt_ofNat_of_lt hlt,
    Int64.toInt_ofNat_of_lt ((Nat.sub_le _ _).trans_lt hlt),
    Int64.toInt_ofNat_of_lt (hle.trans_lt hlt)]
  omega

/-- A signature whose index leads to blocks it does not have, and whose one entry belongs to no
file: the delta of a file against it. -/
theorem delta_accounting_forged :
    let sig : Signature := ⟨2, 9, [⟨7, 0, sum256 [1, 2]⟩], fun _ => [3, 0, 0]⟩
    ∃ d, generateDelta 6 [] (Reader.ofBytes [1, 2, 3, 1, 2]) sig = .ok d ∧
      d.newFileSize = 5 ∧ d.newFileHash = sum256 [1, 2, 3, 1, 2] ∧
      d.bytesCopied + d.bytesLiteral = 5 ∧
      d.bytesLiteral = Int64.ofNat (literalCount d.ops) ∧ d.blocksCopied = copyCount d.ops := by
  intro sig
  obtain ⟨d, hgen, hsize, hhash, hsum, hlit, hblocks, -⟩ :=
    delta_accounting sig 2 6 [] [1, 2, 3, 1, 2] (by decide) (by decide) rfl (by decide)
  exact ⟨d, hgen, hsize, hhash, hsum, hlit, hblocks⟩

end FileSync.Deltas
