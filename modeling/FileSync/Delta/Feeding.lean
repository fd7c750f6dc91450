import Mathlib.Data.List.DropRight
import FileSync.Delta.Rolling

/-!
# Delta — a stream through the rolling hash

The delta generator rolls a byte in until the window is full and rolls the window on afterwards.

* `PooledHash.newRollingHash` is `NewRollingHash` on a `RollingHash` that comes back from the pool,
  with whatever its fields and its buffer held; `newRollingHash_pooled`: none of it is seen.
* `recomputeChecked` is `recompute` with additions that fail when they overflow;
  `recomputeChecked_eq`: none does, from any state.
* `ready_feedAll`: after a stream the hash holds its last bytes.

**The rolling hash is the block hash** (`rolling_eq_block`), after every stream and for every block
size.
-/

namespace FileSync.Deltas

/-! ### The pool -/

/-- A `RollingHash` of the pool: its fields, and its buffer behind the end of `window`. -/
structure PooledHash where
  fields : RollingHash
  spare : Bytes

/-- The block size that `NewRollingHash` uses for the one it is given. -/
def effectiveSize (blockSize : Int) : Int :=
  let blockSize := if blockSize ≤ 0 then defaultBlockSize else blockSize
  if blockSize > maxBlockSize then maxBlockSize else blockSize

/-- `NewRollingHash`, at an object of the pool. -/
def PooledHash.newRollingHash (o : PooledHash) (blockSize : Int) : RollingHash :=
  let blockSize := effectiveSize blockSize
  let window :=
    if ((o.fields.window ++ o.spare).length : Int) < blockSize then
      List.replicate blockSize.toNat 0
    else (o.fields.window ++ o.spare).take blockSize.toNat
  RollingHash.reset { o.fields with window } blockSize

/-- Of the object only the buffer is used. -/
theorem newRollingHash_pooled (o : PooledHash) (blockSize : Int) :
    o.newRollingHash blockSize = newRollingHash (o.fields.window ++ o.spare) blockSize := rfl

theorem effectiveSize_bounds (blockSize : Int) :
    0 < effectiveSize blockSize ∧ effectiveSize blockSize ≤ maxBlockSize := by
  simp only [effectiveSize, defaultBlockSize, maxBlockSize]
  split <;> split <;> omega

/-- A size that needs no clamping stays as it is. -/
theorem effectiveSize_of_bounds {n : Int} (hpos : 0 < n) (hmax : n ≤ maxBlockSize) :
    effectiveSize n = n := by
  rw [effectiveSize, if_neg (by omega), if_neg (by omega)]

theorem ready_pooled (o : PooledHash) (blockSize : Int) :
    Ready (effectiveSize blockSize).toNat (o.newRollingHash blockSize) [] := by
  obtain ⟨hpos, hmax⟩ := effectiveSize_bounds blockSize
  have hnat : ((effectiveSize blockSize).toNat : Int) = effectiveSize blockSize := by omega
  have hready : Ready (effectiveSize blockSize).toNat
      (o.newRollingHash (effectiveSize blockSize).toNat) [] := by
    rw [newRollingHash_pooled]
    exact ready_new (o.fields.window ++ o.spare) (by omega) (by omega)
  rwa [hnat, PooledHash.newRollingHash, effectiveSize_of_bounds hpos hmax] at hready

/-! ### No overflow -/

/-- Addition that fails when the result does not fit. -/
def checkedAdd (x y : UInt32) : Option UInt32 :=
  if x.toNat + y.toNat < 2 ^ 32 then some (x + y) else none

/-- `sumStep` with checked additions. -/
def sumStepChecked (s : UInt32 × UInt32) (c : UInt8) : Option (UInt32 × UInt32) := do
  let a ← checkedAdd s.1 c.toUInt32
  let b ← checkedAdd s.2 (a % rollingHashMod)
  pure (a % rollingHashMod, b % rollingHashMod)

/-- `recomputeStep` with checked additions. -/
def RollingHash.recomputeStepChecked (rh : RollingHash) (s : UInt32 × UInt32) (i : ℕ) :
    Option (UInt32 × UInt32) := do
  let byteVal ← index rh.window ((rh.startPos + i).tmod rh.size)
  sumStepChecked s byteVal

/-- `recompute` with checked additions. -/
def RollingHash.recomputeChecked (rh : RollingHash) : Option RollingHash := do
  let s ← (List.range rh.count.toNat).foldlM rh.recomputeStepChecked (1, 0)
  pure { rh with a := s.1, b := s.2 }

/-- Both components of a sum are below the modulus. -/
def Reduced (s : UInt32 × UInt32) : Prop := s.1.toNat < 65521 ∧ s.2.toNat < 65521

theorem mod_lt (x : UInt32) : (x % rollingHashMod).toNat < 65521 := by
  rw [UInt32.toNat_mod]
  exact Nat.mod_lt _ (by decide)

theorem reduced_sumStep (s : UInt32 × UInt32) (c : UInt8) : Reduced (sumStep s c) :=
  ⟨mod_lt _, mod_lt _⟩

theorem sumStepChecked_eq {s : UInt32 × UInt32} (h : Reduced s) (c : UInt8) :
    sumStepChecked s c = some (sumStep s c) := by
  obtain ⟨ha, hb⟩ := h
  have hc : c.toUInt32.toNat < 256 := by
    rw [UInt8.toNat_toUInt32]
    exact c.toNat_lt
  have hmod := mod_lt (s.1 + c.toUInt32)
  rw [sumStepChecked, checkedAdd, if_pos (by omega)]
  simp only [Option.bind_eq_bind, Option.bind_some]
  rw [checkedAdd, if_pos (by omega)]
  rfl

/-- A loop whose every step is checked. -/
theorem foldlM_checked {ι : Type} {f g : UInt32 × UInt32 → ι → Option (UInt32 × UInt32)}
    (hfg : ∀ s i, Reduced s → f s i = g s i) (hg : ∀ s i s', g s i = some s' → Reduced s')
    (is : List ι) {s : UInt32 × UInt32} (hs : Reduced s) : is.foldlM f s = is.foldlM g s := by
  induction is generalizing s with
  | nil => rfl
  | cons i is ih =>
    rw [List.foldlM_cons, List.foldlM_cons, hfg s i hs]
    cases hstep : g s i with
    | none => rfl
    | some s' => exact ih (hg s i s' hstep)

theorem reduced_start : Reduced (1, 0) := ⟨by decide, by decide⟩

/-- No addition of `recompute` overflows, whatever the state. -/
theorem recomputeChecked_eq (rh : RollingHash) : rh.recomputeChecked = rh.recompute := by
  have hloop : (List.range rh.count.toNat).foldlM rh.recomputeStepChecked (1, 0) =
      (List.range rh.count.toNat).foldlM rh.recomputeStep (1, 0) := by
    refine foldlM_checked (fun s i hs => ?_) (fun s i s' hstep => ?_) _ reduced_start
    · simp only [RollingHash.recomputeStepChecked, RollingHash.recomputeStep,
        sumStepChecked_eq hs, Option.pure_def]
    · obtain ⟨c, -, hc⟩ := Option.bind_eq_some_iff.1 hstep
      rw [← Option.some.inj hc]
      exact reduced_sumStep s c
  rw [RollingHash.recomputeChecked, hloop, RollingHash.recompute]

/-- No addition of `ComputeBlockSignature` overflows. -/
theorem sumOf_checked (data : Bytes) : data.foldlM sumStepChecked (1, 0) = some (sumOf data) := by
  have hloop : data.foldlM sumStepChecked (1, 0) =
      data.foldlM (fun s c => some (sumStep s c)) (1, 0) :=
    foldlM_checked (fun s c hs => sumStepChecked_eq hs c)
      (fun s c s' hstep => Option.some.inj hstep ▸ reduced_sumStep s c) data reduced_start
  rw [hloop, sumOf]
  exact List.foldlM_pure

theorem reduced_sumOf (data : Bytes) : Reduced (sumOf data) := by
  induction data using List.reverseRecOn with
  | nil => exact reduced_start
  | append_singleton data c _ =>
    rw [sumOf, List.foldl_append]
    exact reduced_sumStep _ c

/-- The two halves of a sum do not overlap. -/
theorem toNat_sum {rh : RollingHash} (h : Reduced (rh.a, rh.b)) :
    rh.sum.toNat = rh.b.toNat * 2 ^ 16 + rh.a.toNat := by
  obtain ⟨ha, hb⟩ : rh.a.toNat < 65521 ∧ rh.b.toNat < 65521 := h
  have hshift : (rh.b <<< 16).toNat = rh.b.toNat <<< 16 := by
    rw [UInt32.toNat_shiftLeft]
    have hfits : rh.b.toNat * 2 ^ 16 < 2 ^ 32 := by omega
    exact Nat.mod_eq_of_lt (Nat.shiftLeft_eq _ _ ▸ hfits)
  have hlow : rh.a.toNat < 2 ^ 16 := ha.trans (by decide)
  rw [RollingHash.sum, UInt32.toNat_or, hshift, ← Nat.shiftLeft_add_eq_or_of_lt hlow,
    Nat.shiftLeft_eq]

/-! ### A stream -/

/-- `RollIn` until the window is full, `Roll` afterwards. -/
def RollingHash.feed (rh : RollingHash) (b : UInt8) : Option RollingHash :=
  if rh.isFull then rh.roll b else (rh.rollIn b).map Prod.fst

theorem length_rtake (data : Bytes) (n : ℕ) : (data.rtake n).length = min n data.length := by
  rw [List.rtake, List.length_drop]
  omega

theorem Ready.feed {n : ℕ} {rh : RollingHash} {data : Bytes} (h : Ready n rh (data.rtake n))
    (b : UInt8) : ∃ rh', rh.feed b = some rh' ∧ Ready n rh' ((data ++ [b]).rtake n) := by
  obtain ⟨k, rfl⟩ := Nat.exists_eq_add_one.2 h.pos_size
  rw [List.rtake_concat_succ]
  have hlen := length_rtake data (k + 1)
  by_cases hfull : k + 1 ≤ data.length
  · -- The oldest byte leaves.
    have htail : data.rtake k = (data.rtake (k + 1)).tail := by
      rw [List.rtake, List.rtake, List.tail_drop]
      congr 1
      omega
    have hw : (data.rtake (k + 1)).length = k + 1 := by omega
    obtain ⟨rh', hroll, hready⟩ := h.roll hw b
    exact ⟨rh', by rw [RollingHash.feed, if_pos (h.isFull_of hw), hroll], htail ▸ hready⟩
  · have hall : data.rtake k = data.rtake (k + 1) := by
      rw [List.rtake, List.rtake]
      congr 1
      omega
    have hw : (data.rtake (k + 1)).length < k + 1 := by omega
    have hnot : ¬ rh.isFull = true := fun hf => by
      have := h.isFull_iff.1 hf
      omega
    obtain ⟨rh', hroll, hready⟩ := h.rollIn hw b
    exact ⟨rh', by rw [RollingHash.feed, if_neg hnot, hroll, Option.map_some], hall ▸ hready⟩

theorem ready_feedAll {n : ℕ} {rh : RollingHash} (h : Ready n rh []) (data : Bytes) :
    ∃ rh', data.foldlM RollingHash.feed rh = some rh' ∧ Ready n rh' (data.rtake n) := by
  induction data using List.reverseRecOn with
  | nil => exact ⟨rh, rfl, by rwa [List.rtake_nil]⟩
  | append_singleton data b ih =>
    obtain ⟨rh₁, hrun, hready⟩ := ih
    obtain ⟨rh₂, hfeed, hready'⟩ := hready.feed b
    refine ⟨rh₂, ?_, hready'⟩
    rw [List.foldlM_append, hrun]
    simpa using hfeed

/-- **The rolling hash is the block hash.**  Whatever the pooled object held and whatever block size
is asked for, a stream goes through without a panic.  `Window` is the last bytes of the stream, as
many as the effective size, with zeros behind them while there are fewer, and `Sum` is the weak hash
that `ComputeBlockSignature` gives for them.  No addition overflows and the two halves of the sum
do not overlap. -/
theorem rolling_eq_block (pooled : PooledHash) (blockSize : Int) (data : Bytes) :
    let s := (effectiveSize blockSize).toNat
    ∃ rh, data.foldlM RollingHash.feed (pooled.newRollingHash blockSize) = some rh ∧
      rh.isFull = decide (s ≤ data.length) ∧
      rh.windowBytes = some (data.rtake s ++ List.replicate (s - data.length) 0) ∧
      rh.sum = (computeBlockSignature (data.rtake s)).1 ∧
      (data.rtake s).foldlM sumStepChecked (1, 0) = some (rh.a, rh.b) ∧
      (∀ rh' : RollingHash, rh'.recomputeChecked = rh'.recompute) ∧
      rh.a.toNat < 2 ^ 16 ∧ rh.b.toNat < 2 ^ 16 ∧
      rh.sum.toNat = rh.b.toNat * 2 ^ 16 + rh.a.toNat := by
  intro s
  obtain ⟨rh, hrun, hready⟩ := ready_feedAll (ready_pooled pooled blockSize) data
  have hlen := length_rtake data s
  have hred : Reduced (rh.a, rh.b) := hready.hash ▸ reduced_sumOf _
  refine ⟨rh, hrun, ?_, ?_, hready.sum_eq, ?_, recomputeChecked_eq, ?_, ?_, toNat_sum hred⟩
  · rw [Bool.eq_iff_iff, hready.isFull_iff, hlen, decide_eq_true_iff]
    exact min_eq_left_iff
  · rw [hready.window_eq, hlen]
    congr 3
    omega
  · rw [sumOf_checked, hready.hash]
  · exact hred.1.trans (by decide)
  · exact hred.2.trans (by decide)

end FileSync.Deltas
