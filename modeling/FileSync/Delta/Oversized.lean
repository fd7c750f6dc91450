import FileSync.Delta.RoundTrip

/-!
# Delta — block sizes above the maximum

`NewRollingHash` cuts the block size to `MaxBlockSize`; the loops of `GenerateDelta` that fill a
window do not.  Neither does `Reset`, and neither do the signatures.

* `fillInitialWindow_drops`, `fillInitialWindow_panics`: the initial window keeps its first
  `MaxBlockSize` bytes and drops what else is read into it; if the file ends within it, the slice
  of the window is out of range.
* `Full`, `Done`: the bytes hashed, the window and the bytes to be read add up to one number, from
  the initial window to the end; `step_mass` is the step, `mainLoop_mass` the run.
* `oversized_iff`: nothing is lost if and only if the new file fits in the window.
-/

namespace FileSync.Deltas
open Sha256 (Digest Hasher sum256)

theorem maxBlockSize_eq : maxBlockSize = (65536 : ℕ) := rfl

/-- The rolling hash of a block size above the maximum has the maximum. -/
theorem ready_oversized (pooled : Bytes) {blockSize : Int} (h : maxBlockSize < blockSize) :
    Ready 65536 (newRollingHash pooled blockSize) [] := by
  have hclamp : newRollingHash pooled blockSize = newRollingHash pooled (65536 : ℕ) := by
    rw [maxBlockSize_eq] at h
    simp only [newRollingHash, maxBlockSize_eq, if_neg (show ¬ blockSize ≤ 0 by omega),
      if_pos (show blockSize > (65536 : ℕ) by omega),
      if_neg (show ¬ ((65536 : ℕ) : Int) ≤ 0 by omega),
      if_neg (show ¬ ((65536 : ℕ) : Int) > (65536 : ℕ) by omega)]
  rw [hclamp]
  exact ready_new pooled (by decide) maxBlockSize_eq.ge

/-! ### The initial window -/

/-- The `i`-th byte rolled into a window of `n`: it is kept only if it is one of the first `n`. -/
theorem Ready.rollIn_min {n i : ℕ} {rh : RollingHash} {v : Bytes} (h : Ready n rh v)
    (hv : v.length = min i n) (b : UInt8) :
    ∃ rh' f v', rh.rollIn b = some (rh', f) ∧ Ready n rh' v' ∧ v'.length = min (i + 1) n := by
  by_cases hlt : v.length < n
  · obtain ⟨rh', hroll, hready⟩ := h.rollIn hlt b
    refine ⟨rh', _, _, hroll, hready, ?_⟩
    rw [List.length_append, List.length_singleton]
    omega
  · have hfull : ¬ rh.count < rh.blockSize := by
      rw [h.count, h.blockSize]
      omega
    refine ⟨rh, true, v, ?_, h, by omega⟩
    rw [RollingHash.rollIn, if_neg hfull]

/-- The initial window when the file holds it: bytes beyond the first `n` are dropped. -/
theorem fillInitialWindow_drops {n : ℕ} :
    ∀ (k i : ℕ) (g : Gen) (v rest : Bytes), Ready n g.rh v → v.length = min i n →
      g.reader = ⟨rest, none⟩ → k ≤ rest.length →
      ∃ rh w, fillInitialWindow k i g = .ok { g with rh := rh, reader := ⟨rest.drop k, none⟩ } ∧
        Ready n rh w ∧ w.length = min (i + k) n := by
  intro k
  induction k with
  | zero =>
    intro i g v rest hv hlen hr _
    refine ⟨g.rh, v, ?_, hv, hlen⟩
    rw [fillInitialWindow, List.drop_zero, ← hr]
  | succ k ih =>
    intro i g v rest hv hlen hr hk
    cases rest with
    | nil => simp at hk
    | cons b rest =>
      obtain ⟨rh₁, f, v₁, hroll, hv₁, hlen₁⟩ := hv.rollIn_min hlen b
      obtain ⟨rh, w, hfill, hw, hwlen⟩ := ih (i + 1)
        { g with rh := rh₁, reader := ⟨rest, none⟩ } v₁ rest hv₁ hlen₁ rfl (by simpa using hk)
      refine ⟨rh, w, ?_, hw, by rw [hwlen, Nat.add_assoc, Nat.add_comm 1 k]⟩
      rw [fillInitialWindow, hr]
      simp only [Reader.readByte_cons, hroll, Go.orPanic_some, Go.ok_bind, hfill,
        List.drop_succ_cons]

/-- The initial window when the file ends within it, but not within the first `n` bytes. -/
theorem fillInitialWindow_panics {n : ℕ} :
    ∀ (k i : ℕ) (g : Gen) (v rest : Bytes), Ready n g.rh v → v.length = min i n →
      g.reader = ⟨rest, none⟩ → rest.length < k → n < i + rest.length →
      fillInitialWindow k i g = .error .panic := by
  intro k
  induction k with
  | zero => intro i g v rest _ _ _ hk; omega
  | succ k ih =>
    intro i g v rest hv hlen hr hk hi
    cases rest with
    | nil =>
      rw [List.length_nil, Nat.add_zero] at hi
      -- the window has `n` bytes, and `i` of them are asked for
      have hslice : slice v 0 i = none := if_neg (by omega)
      rw [fillInitialWindow, hr]
      simp only [Reader.readByte_nil, if_pos (Nat.zero_lt_of_lt hi),
        hv.window_full (by omega), Go.orPanic_some, Go.ok_bind, hslice]
      rfl
    | cons b rest =>
      rw [List.length_cons] at hk hi
      obtain ⟨rh₁, f, v₁, hroll, hv₁, hlen₁⟩ := hv.rollIn_min hlen b
      rw [fillInitialWindow, hr]
      simp only [Reader.readByte_cons, hroll, Go.orPanic_some, Go.ok_bind]
      exact ih (i + 1) { g with rh := rh₁, reader := ⟨rest, none⟩ } v₁ rest hv₁ hlen₁ rfl
        (Nat.lt_of_succ_lt_succ hk) (by omega)

/-! ### What a round keeps -/

theorem length_of_slice {xs ys : Bytes} {lo hi : Int} (h : slice xs lo hi = some ys) :
    0 ≤ lo ∧ lo ≤ hi ∧ hi ≤ xs.length ∧ (ys.length : Int) = hi - lo := by
  rw [slice, Option.ite_none_right_eq_some] at h
  obtain ⟨⟨h₀, h₁, h₂⟩, h⟩ := h
  refine ⟨h₀, h₁, h₂, ?_⟩
  rw [← Option.some.inj h, List.length_drop, List.length_take]
  omega

/-- `Window` returns as many bytes as the block size, if it returns. -/
theorem length_windowBytes {rh : RollingHash} {w : Bytes} (h : rh.windowBytes = some w) :
    w.length = rh.blockSize.toNat := by
  simp only [RollingHash.windowBytes] at h
  split at h
  · obtain ⟨src, -, h⟩ := Option.bind_eq_some_iff.1 h
    rw [← Option.some.inj h, length_copyInto, List.length_replicate]
  · obtain ⟨dst₁, h₁, h⟩ := Option.bind_eq_some_iff.1 h
    obtain ⟨src₁, -, h⟩ := Option.bind_eq_some_iff.1 h
    obtain ⟨dst₂, h₂, h⟩ := Option.bind_eq_some_iff.1 h
    obtain ⟨src₂, -, h⟩ := Option.bind_eq_some_iff.1 h
    obtain ⟨-, -, -, hlen₁⟩ := length_of_slice h₁
    obtain ⟨-, -, -, hlen₂⟩ := length_of_slice h₂
    rw [List.length_replicate] at hlen₂
    rw [← Option.some.inj h, List.length_append, length_copyInto, length_copyInto]
    omega

theorem recompute_some {rh rh' : RollingHash} (h : rh.recompute = some rh') :
    rh'.count = rh.count ∧ rh'.blockSize = rh.blockSize := by
  obtain ⟨s, -, h⟩ := Option.bind_eq_some_iff.1 h
  cases Option.some.inj h
  exact ⟨rfl, rfl⟩

theorem rollIn_some {rh rh' : RollingHash} {b : UInt8} {f : Bool}
    (h : rh.rollIn b = some (rh', f)) (hlt : rh.count < rh.blockSize) :
    rh'.count = rh.count + 1 ∧ rh'.blockSize = rh.blockSize := by
  rw [RollingHash.rollIn, if_pos hlt] at h
  obtain ⟨window, -, h⟩ := Option.bind_eq_some_iff.1 h
  obtain ⟨rh₁, hrec, h⟩ := Option.bind_eq_some_iff.1 h
  cases Option.some.inj h
  exact recompute_some hrec

theorem roll_some {rh rh' : RollingHash} {b : UInt8} (h : rh.roll b = some rh') :
    rh'.count = rh.count ∧ rh'.blockSize = rh.blockSize := by
  obtain ⟨window, -, hrec⟩ := Option.bind_eq_some_iff.1 h
  obtain ⟨hcount, hsize⟩ := recompute_some hrec
  exact ⟨hcount, hsize⟩

/-- Between two rounds: the window is full, and the bytes hashed, the window and the bytes to be
read are `m` bytes. -/
structure Full (g : Gen) (m : ℕ) : Prop where
  running : g.eofReached = false
  fault : g.reader.fault = none
  count : g.rh.count = g.rh.blockSize
  nonneg : 0 ≤ g.rh.blockSize
  total : g.totalBytes = Int64.ofNat g.fileHasher.fed.length
  mass : g.fileHasher.fed.length + g.rh.blockSize.toNat + g.reader.rest.length = m

/-- After the last round: `m` bytes have been hashed. -/
structure Done (g : Gen) (m : ℕ) : Prop where
  eof : g.eofReached = true
  total : g.totalBytes = Int64.ofNat g.fileHasher.fed.length
  mass : g.fileHasher.fed.length = m

/-- What filling the next window does: it takes `j` bytes from the reader into the window, all that
were asked for or all there are. -/
theorem fillNextWindow_mass :
    ∀ (k c : ℕ) (g g' : Gen) (c' : ℕ), fillNextWindow k c g = .ok (g', c') →
      g.reader.fault = none → g.rh.count + k ≤ g.rh.blockSize →
      ∃ j rh reader eof, g' = { g with rh := rh, reader := reader, eofReached := eof } ∧
        c' = c + j ∧ rh.count = g.rh.count + j ∧ rh.blockSize = g.rh.blockSize ∧
        reader.fault = none ∧ reader.rest.length + j = g.reader.rest.length ∧
        (eof = true ∧ reader.rest = [] ∨ eof = g.eofReached ∧ j = k) := by
  intro k
  induction k with
  | zero =>
    intro c g g' c' h hfault _
    obtain ⟨rfl, rfl⟩ := Prod.mk.inj (Except.ok.inj h)
    exact ⟨0, g.rh, g.reader, g.eofReached, rfl, rfl, (add_zero _).symm, rfl, hfault, rfl,
      .inr ⟨rfl, rfl⟩⟩
  | succ k ih =>
    intro c g g' c' h hfault hk
    rw [fillNextWindow] at h
    rcases hreader : g.reader with ⟨rest, fault⟩
    rw [hreader] at hfault h
    obtain rfl : fault = none := hfault
    cases rest with
    | nil =>
      obtain ⟨rfl, rfl⟩ := Prod.mk.inj (Except.ok.inj h)
      exact ⟨0, g.rh, ⟨[], none⟩, true, rfl, rfl, (add_zero _).symm, rfl, rfl, rfl,
        .inl ⟨rfl, rfl⟩⟩
    | cons b rest =>
      obtain ⟨⟨rh₁, f⟩, hroll, h⟩ := Except.bind_eq_ok.1 h
      obtain ⟨hcount, hsize⟩ := rollIn_some (Go.orPanic_eq_ok.1 hroll) (by omega)
      obtain ⟨j, rh, reader, eof, rfl, rfl, hc, hb, hf, hrest, hend⟩ :=
        ih (c + 1) { g with rh := rh₁, reader := ⟨rest, none⟩ } g' c' h rfl
          (by dsimp only; rw [hcount, hsize]; push_cast at hk; omega)
      dsimp only at hc hb hrest hend
      refine ⟨j + 1, rh, reader, eof, rfl, by omega, ?_, hb.trans hsize, hf, ?_, ?_⟩
      · rw [hc, hcount]
        push_cast
        omega
      · rw [List.length_cons, ← hrest]
        omega
      · exact hend.imp_right (And.imp_right fun hj => by rw [hj])

theorem matchWindow_some {sig : Signature} {g : Gen} {block : BlockSignature} {w : Bytes}
    (h : matchWindow sig g = .ok (some (block, w))) : g.rh.windowBytes = some w := by
  simp only [matchWindow] at h
  split at h
  · obtain ⟨window, hw, h⟩ := Except.bind_eq_ok.1 h
    obtain ⟨b, -, hb⟩ := Option.map_eq_some_iff.1 (Except.ok.inj h)
    obtain ⟨-, rfl⟩ := Prod.mk.inj hb
    exact Go.orPanic_eq_ok.1 hw
  · cases h

theorem total_write {g : Gen} (h : g.totalBytes = Int64.ofNat g.fileHasher.fed.length) (p : Bytes) :
    g.totalBytes + Int64.ofNat p.length = Int64.ofNat (g.fileHasher.write p).fed.length := by
  rw [h, Hasher.fed_write, List.length_append, Int64.ofNat_add]

/-- The bytes left behind a match are hashed, as a copy or as a literal. -/
theorem partialBlock_mass {sig : Signature} {g g' : Gen} {c : ℕ}
    (h : partialBlock sig g c = .ok g') (heof : g.eofReached = true)
    (htotal : g.totalBytes = Int64.ofNat g.fileHasher.fed.length) :
    Done g' (g.fileHasher.fed.length + c) := by
  rw [partialBlock] at h
  obtain ⟨window, -, h⟩ := Except.bind_eq_ok.1 h
  obtain ⟨p, hp, h⟩ := Except.bind_eq_ok.1 h
  obtain ⟨-, -, -, hlen⟩ := length_of_slice (Go.orPanic_eq_ok.1 hp)
  have hfed : (g.fileHasher.write p).fed.length = g.fileHasher.fed.length + c := by
    rw [Hasher.fed_write, List.length_append]
    omega
  dsimp only at h
  split at h
  · cases Except.ok.inj h
    exact ⟨heof, total_write htotal p, hfed⟩
  · cases Except.ok.inj h
    exact ⟨heof, total_write htotal p, hfed⟩

/-- A match: the window is hashed, and the next one takes its place. -/
theorem afterMatch_mass {sig : Signature} {g g' : Gen} {m : ℕ} {block : BlockSignature} {w : Bytes}
    (hsig : 0 ≤ sig.blockSize) (h : Full g m) (hw : g.rh.windowBytes = some w)
    (hs : afterMatch sig g block w = .ok g') : Full g' m ∨ Done g' m := by
  have hmass := h.mass
  rw [← length_windowBytes hw] at hmass
  rw [afterMatch] at hs
  obtain ⟨⟨g₂, c⟩, hfill, hs⟩ := Except.bind_eq_ok.1 hs
  -- the state with the copy made and an empty window
  have hrh : (g.copyWindow sig block w).rh = g.rh.reset sig.blockSize := by
    rw [Gen.copyWindow, Gen.emitCopy, flush_rh]
  have hreader : (g.copyWindow sig block w).reader = g.reader := by
    simp [Gen.copyWindow, Gen.emitCopy]
  have heof : (g.copyWindow sig block w).eofReached = false := by
    simp [Gen.copyWindow, Gen.emitCopy, h.running]
  have hfed : (g.copyWindow sig block w).fileHasher.fed = g.fileHasher.fed ++ w := by
    simp [Gen.copyWindow, Gen.emitCopy]
  have htotal : (g.copyWindow sig block w).totalBytes =
      Int64.ofNat (g.copyWindow sig block w).fileHasher.fed.length := by
    rw [hfed, List.length_append, Int64.ofNat_add, ← h.total]
    simp [Gen.copyWindow, Gen.emitCopy]
  generalize g.copyWindow sig block w = g₁ at hfill hrh hreader heof hfed htotal
  obtain ⟨j, rh, reader, eof, rfl, rfl, hcount, hsize, hfault, hrest, hend⟩ :=
    fillNextWindow_mass _ 0 g₁ g₂ c hfill (by rw [hreader, h.fault])
      (by rw [hrh]; simp only [RollingHash.reset]; omega)
  rw [hrh] at hcount hsize
  simp only [RollingHash.reset] at hcount hsize
  rw [hreader] at hrest
  dsimp only at hs
  have hlen : g₁.fileHasher.fed.length = g.fileHasher.fed.length + w.length := by
    rw [hfed, List.length_append]
  rcases hend with ⟨rfl, hnil⟩ | ⟨rfl, rfl⟩
  · rw [hnil, List.length_nil, Nat.zero_add] at hrest
    right
    split at hs
    · have hdone := partialBlock_mass hs rfl htotal
      rw [show g₁.fileHasher.fed.length + (0 + j) = m by omega] at hdone
      exact hdone
    · next hj =>
      cases Except.ok.inj hs
      refine ⟨rfl, htotal, ?_⟩
      have hj₀ : ¬ 0 + j > 0 := fun hpos => hj ⟨rfl, hpos⟩
      dsimp only
      omega
  · left
    rw [heof] at hs
    simp only [Bool.false_eq_true, false_and, if_false] at hs
    cases Except.ok.inj hs
    refine ⟨rfl, hfault, ?_, ?_, htotal, ?_⟩
    · rw [hcount, hsize]
      omega
    · exact hsize ▸ hsig
    · dsimp only
      rw [hsize]
      omega

theorem Full.isFull {g : Gen} {m : ℕ} (h : Full g m) : g.rh.isFull = true := by
  rw [RollingHash.isFull, h.count]
  exact decide_eq_true le_rfl

/-- No match: the oldest byte is hashed, and the next one is read, or the rest of the window is
hashed too. -/
theorem rollLiteral_mass {g g' : Gen} {m : ℕ} (h : Full g m) (hs : rollLiteral g = .ok g') :
    Full g' m ∨ Done g' m := by
  have hmass := h.mass
  rw [rollLiteral, if_pos h.isFull] at hs
  obtain ⟨b, -, hs⟩ := Except.bind_eq_ok.1 hs
  rw [Go.ok_bind] at hs
  -- the state with the oldest byte hashed
  have htotal : (g.emitLiteral [b]).totalBytes =
      Int64.ofNat (g.emitLiteral [b]).fileHasher.fed.length := total_write h.total [b]
  have hfed : (g.emitLiteral [b]).fileHasher.fed.length = g.fileHasher.fed.length + 1 := by
    simp [Gen.emitLiteral]
  have hrh : (g.emitLiteral [b]).rh = g.rh := rfl
  have hreader : (g.emitLiteral [b]).reader = g.reader := rfl
  have heof : (g.emitLiteral [b]).eofReached = false := h.running
  generalize g.emitLiteral [b] = g₁ at hs htotal hfed hrh hreader heof
  dsimp only at hs
  rw [hrh, hreader, h.isFull] at hs
  rcases hr : g.reader with ⟨rest, fault⟩
  have hfault := h.fault
  rw [hr] at hs hmass hfault
  obtain rfl : fault = none := hfault
  cases rest with
  | nil =>
    right
    simp only [Reader.readByte_nil, if_true] at hs
    obtain ⟨window, hw, hs⟩ := Except.bind_eq_ok.1 hs
    obtain ⟨p, hp, hs⟩ := Except.bind_eq_ok.1 hs
    obtain ⟨-, -, -, hplen⟩ := length_of_slice (Go.orPanic_eq_ok.1 hp)
    have hwlen := length_windowBytes (Go.orPanic_eq_ok.1 hw)
    cases Except.ok.inj hs
    refine ⟨rfl, total_write htotal p, ?_⟩
    show (g₁.fileHasher.write p).fed.length = m
    rw [Hasher.fed_write, List.length_append, hfed]
    rw [List.length_nil] at hmass
    omega
  | cons c rest =>
    left
    simp only [Reader.readByte_cons, if_true] at hs
    obtain ⟨rh, hroll, hs⟩ := Except.bind_eq_ok.1 hs
    obtain ⟨hcount, hsize⟩ := roll_some (Go.orPanic_eq_ok.1 hroll)
    cases Except.ok.inj hs
    refine ⟨heof, rfl, by rw [hcount, hsize, h.count], hsize ▸ h.nonneg, htotal, ?_⟩
    dsimp only
    rw [hfed, hsize]
    rw [List.length_cons] at hmass
    omega

/-- **A round keeps the number of bytes**, whatever the signature is. -/
theorem step_mass {sig : Signature} {g g' : Gen} {m : ℕ} (hsig : 0 ≤ sig.blockSize) (h : Full g m)
    (hs : step sig g = .ok g') : Full g' m ∨ Done g' m := by
  rw [step, if_pos h.isFull] at hs
  obtain ⟨found, hfound, hs⟩ := Except.bind_eq_ok.1 hs
  rcases found with _ | ⟨block, w⟩
  · exact rollLiteral_mass h hs
  · exact afterMatch_mass hsig h (matchWindow_some hfound) hs

/-- **The main loop keeps the number of bytes**: what it has hashed in the end is what was in the
window and in the reader in the beginning. -/
theorem mainLoop_mass {sig : Signature} {m : ℕ} (hsig : 0 ≤ sig.blockSize) :
    ∀ (fuel : ℕ) (g g' : Gen), Full g m ∨ Done g m → mainLoop sig fuel g = .ok g' → Done g' m := by
  intro fuel
  induction fuel with
  | zero =>
    rintro g g' (h | h) hs
    · rw [mainLoop, h.running] at hs
      cases hs
    · rw [mainLoop, h.eof] at hs
      cases Except.ok.inj hs
      exact h
  | succ fuel ih =>
    rintro g g' (h | h) hs
    · rw [mainLoop, h.running] at hs
      obtain ⟨g₁, hstep, hs⟩ := Except.bind_eq_ok.1 hs
      exact ih g₁ g' (step_mass hsig h hstep) hs
    · rw [mainLoop, h.eof] at hs
      cases Except.ok.inj hs
      exact h

/-! ### The deltas -/

section Oversized
variable {sig : Signature} (hbig : maxBlockSize < sig.blockSize) (fuel : ℕ) (pooled : Bytes)
  {new : Bytes}
include hbig

/-- A file that ends within the initial window, above the maximum, is a panic. -/
theorem oversized_panics (hmax : maxBlockSize < new.length)
    (hlt : (new.length : Int) < sig.blockSize) :
    generateDelta fuel pooled (Reader.ofBytes new) sig = .error .panic := by
  rw [maxBlockSize_eq] at hmax
  have hfill := fillInitialWindow_panics sig.blockSize.toNat 0
    (Gen.init pooled (Reader.ofBytes new) sig) [] new (ready_oversized pooled hbig) rfl rfl
    (by omega) (by omega)
  rw [generateDelta, hfill]
  rfl

/-- **A file with a full block loses what the initial window drops.**  The delta, if there is one,
is certified for a file that is shorter. -/
theorem oversized_truncates (hge : sig.blockSize ≤ new.length) {d : Delta}
    (hd : generateDelta fuel pooled (Reader.ofBytes new) sig = .ok d) :
    ∃ k, d.newFileSize = Int64.ofNat k ∧
      (k : Int) + (sig.blockSize - maxBlockSize) = new.length := by
  have hpos : (0 : Int) ≤ sig.blockSize := by
    rw [maxBlockSize_eq] at hbig
    omega
  obtain ⟨rh, w, hfill, hw, hwlen⟩ := fillInitialWindow_drops sig.blockSize.toNat 0
    (Gen.init pooled (Reader.ofBytes new) sig) [] new (ready_oversized pooled hbig) rfl rfl
    (by omega)
  rw [maxBlockSize_eq] at hbig ⊢
  rw [Nat.zero_add, Nat.min_eq_right (by omega)] at hwlen
  rw [generateDelta, hfill, Go.ok_bind] at hd
  obtain ⟨g, hloop, hd⟩ := Except.bind_eq_ok.1 hd
  have hdone : Done g (65536 + (new.length - sig.blockSize.toNat)) := by
    refine mainLoop_mass hpos fuel _ g (.inl ⟨rfl, rfl, ?_, ?_, rfl, ?_⟩) hloop
    · rw [hw.count, hw.blockSize, hwlen]
    · rw [hw.blockSize]
      exact Int.natCast_nonneg _
    · simp [Gen.init, hw.blockSize]
  refine ⟨65536 + (new.length - sig.blockSize.toNat), ?_, by omega⟩
  rw [← hdone.mass, ← hdone.total, ← flush_totalBytes g, ← Except.ok.inj hd]

/-- **Block sizes above the maximum.**  For every signature with such a block size and every new
file, `GenerateDelta` returns a delta whose operations, size and hash account for the whole file if
and only if the file has at most `MaxBlockSize` bytes. -/
theorem oversized_iff :
    (∃ d, generateDelta fuel pooled (Reader.ofBytes new) sig = .ok d ∧
      (literalCount d.ops : Int) + d.bytesCopied.toInt = new.length ∧
      d.newFileSize.toInt = new.length ∧ d.newFileHash = sum256 new) ↔
    (new.length : Int) ≤ maxBlockSize := by
  constructor
  · rintro ⟨d, hd, -, hsize, -⟩
    by_contra hgt
    rcases lt_or_ge (new.length : Int) sig.blockSize with hlt | hge
    · rw [oversized_panics hbig fuel pooled (Int.not_le.1 hgt) hlt] at hd
      cases hd
    · obtain ⟨k, hk, hmass⟩ := oversized_truncates hbig fuel pooled hge hd
      have hlt₆₃ : new.length < 2 ^ 63 := by
        have := d.newFileSize.toInt_lt
        omega
      rw [hk, Int64.toInt_ofNat_of_lt (by omega)] at hsize
      omega
  · intro hle
    rw [maxBlockSize_eq] at hle
    obtain ⟨d, hd, hops, hsize, hhash, -, hlit, hsum⟩ :=
      generateDelta_short (ready_oversized pooled hbig) (by omega : new.length ≤ 65536)
        (by rw [maxBlockSize_eq] at hbig; omega) fuel
    have hcount : literalCount d.ops = new.length := by rw [hops, literalCount_flushed]
    have hzero : d.bytesCopied = 0 := by
      have hsub : d.bytesCopied + d.bytesLiteral - d.bytesLiteral = d.bytesCopied :=
        Int64.add_sub_cancel _ _
      rw [← hsub, hsum, hlit, hcount, Int64.sub_self]
    refine ⟨d, hd, ?_, ?_, hhash⟩
    · rw [hcount, hzero]
      rfl
    · rw [hsize, Int64.toInt_ofNat_of_lt (by omega)]

end Oversized

/-- A small file against a block size one above the maximum. -/
theorem oversized_small_file :
    let sig : Signature := ⟨65537, 0, [], fun _ => []⟩
    ∃ d, generateDelta 0 [] (Reader.ofBytes [1, 2, 3]) sig = .ok d ∧
      (literalCount d.ops : Int) + d.bytesCopied.toInt = 3 ∧ d.newFileSize.toInt = 3 ∧
      d.newFileHash = sum256 [1, 2, 3] := by
  intro sig
  exact (@oversized_iff sig (by decide) 0 [] [1, 2, 3]).2 (by decide)

/-- A file of one byte more than the window, against the signature of an empty file for a block
size of two more: the slice of the window is out of range. -/
theorem oversized_window_panics :
    ∃ sig, generateSignature (Reader.ofBytes []) (65538 : ℕ) = .ok sig ∧ ∀ fuel pooled,
      generateDelta fuel pooled (Reader.ofBytes (List.replicate 65537 0)) sig = .error .panic := by
  obtain ⟨sig, hsig, hsz, -⟩ := generateSignature_eq (n := 65538) (by decide) []
  generalize hnew : List.replicate 65537 (0 : UInt8) = new
  have hlen : new.length = 65537 := by rw [← hnew, List.length_replicate]
  refine ⟨sig, hsig, fun fuel pooled => oversized_panics ?_ fuel pooled ?_ ?_⟩
  · rw [hsz, maxBlockSize_eq]
    decide
  · rw [hlen, maxBlockSize_eq]
    decide
  · rw [hlen, hsz]
    decide

end FileSync.Deltas
