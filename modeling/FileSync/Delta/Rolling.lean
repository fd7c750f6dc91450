import FileSync.Support.Io
import FileSync.Support.Ring

/-!
# Delta — the rolling hash and the signatures

`internal/delta/rolling.go`.  A `RollingHash` keeps the last `blockSize` bytes in a circular
buffer together with their Adler-32 style sum; `recompute` is run after every change.  Go's `int`
fields are integers here, `%` on them truncates, and an index or a slice out of range is `none`.

* `Ready n rh w`: `rh` has a buffer of `n` bytes, holds `w` in order, and its sum is that of `w`.
* `ready_new`, `Ready.rollIn`, `Ready.roll`: the operations keep it.
* `Ready.window_eq`, `Ready.sum_eq`, `Ready.oldest`: what the accessors return.
-/

namespace FileSync.Deltas
open Sha256 (Digest sum256)

def defaultBlockSize : Int := 4 * 1024

def rollingHashMod : UInt32 := 65521

def maxBlockSize : Int := 64 * 1024

structure RollingHash where
  a : UInt32
  b : UInt32
  window : Bytes
  size : Int
  pos : Int
  count : Int
  blockSize : Int

/-- One byte of the Adler-32 style sum. -/
def sumStep (s : UInt32 × UInt32) (c : UInt8) : UInt32 × UInt32 :=
  let a := (s.1 + c.toUInt32) % rollingHashMod
  let b := (s.2 + a) % rollingHashMod
  (a, b)

/-- The two components of the sum of `data`. -/
def sumOf (data : Bytes) : UInt32 × UInt32 := data.foldl sumStep (1, 0)

/-- `copy(dst, src)`, as the new `dst`. -/
def copyInto (dst src : Bytes) : Bytes := src.take dst.length ++ dst.drop src.length

theorem length_copyInto (dst src : Bytes) : (copyInto dst src).length = dst.length := by
  rw [copyInto, List.length_append, List.length_take, List.length_drop]
  omega

namespace RollingHash

def startPos (rh : RollingHash) : Int := (rh.pos - rh.count + rh.size).tmod rh.size

def reset (rh : RollingHash) (blockSize : Int) : RollingHash :=
  { rh with
    a := 1, b := 0, pos := 0, count := 0, blockSize := blockSize
    size := rh.window.length
    window := List.replicate rh.window.length 0 }

/-- The body of `recompute`'s loop. -/
def recomputeStep (rh : RollingHash) (s : UInt32 × UInt32) (i : ℕ) : Option (UInt32 × UInt32) := do
  let byteVal ← index rh.window ((rh.startPos + i).tmod rh.size)
  pure (sumStep s byteVal)

def recompute (rh : RollingHash) : Option RollingHash := do
  let s ← (List.range rh.count.toNat).foldlM rh.recomputeStep (1, 0)
  pure { rh with a := s.1, b := s.2 }

/-- The new state, and whether the window is full. -/
def rollIn (rh : RollingHash) (b : UInt8) : Option (RollingHash × Bool) :=
  if rh.count < rh.blockSize then do
    let window ← setIndex rh.window rh.pos b
    let rh ← { rh with
      window := window, pos := (rh.pos + 1).tmod rh.size, count := rh.count + 1 }.recompute
    pure (rh, decide (rh.count = rh.blockSize))
  else
    some (rh, true)

def roll (rh : RollingHash) (newByte : UInt8) : Option RollingHash := do
  let window ← setIndex rh.window rh.pos newByte
  { rh with window := window, pos := (rh.pos + 1).tmod rh.size }.recompute

def sum (rh : RollingHash) : UInt32 := (rh.b <<< 16) ||| rh.a

/-- `Window()`. -/
def windowBytes (rh : RollingHash) : Option Bytes :=
  let result : Bytes := List.replicate rh.blockSize.toNat 0
  if rh.startPos + rh.count ≤ rh.size then do
    let src ← slice rh.window rh.startPos (rh.startPos + rh.count)
    pure (copyInto result src)
  else do
    -- Wrap around
    let firstPart := rh.size - rh.startPos
    let dst₁ ← slice result 0 firstPart
    let src₁ ← slice rh.window rh.startPos rh.window.length
    let dst₂ ← slice result firstPart result.length
    let src₂ ← slice rh.window 0 (rh.count - firstPart)
    pure (copyInto dst₁ src₁ ++ copyInto dst₂ src₂)

def isFull (rh : RollingHash) : Bool := decide (rh.count ≥ rh.blockSize)

end RollingHash

/-- `NewRollingHash`, at the object the pool hands out: `pooled` is its window up to its
capacity. -/
def newRollingHash (pooled : Bytes) (blockSize : Int) : RollingHash :=
  let blockSize := if blockSize ≤ 0 then defaultBlockSize else blockSize
  let blockSize := if blockSize > maxBlockSize then maxBlockSize else blockSize
  let window :=
    if (pooled.length : Int) < blockSize then List.replicate blockSize.toNat 0
    else pooled.take blockSize.toNat
  RollingHash.reset ⟨0, 0, window, 0, 0, 0, 0⟩ blockSize

/-! ### Signatures -/

structure BlockSignature where
  index : UInt32
  weakHash : UInt32
  strongHash : Digest
deriving DecidableEq

structure Signature where
  blockSize : Int
  fileSize : Int64
  blocks : List BlockSignature
  weakIndex : UInt32 → List ℕ

namespace Signature

def addBlock (s : Signature) (index weakHash : UInt32) (strongHash : Digest) : Signature :=
  { s with
    blocks := s.blocks ++ [⟨index, weakHash, strongHash⟩]
    weakIndex := Function.update s.weakIndex weakHash (s.weakIndex weakHash ++ [s.blocks.length]) }

def findByWeakHash (s : Signature) (weakHash : UInt32) : List ℕ := s.weakIndex weakHash

def getBlock (s : Signature) (idx : ℕ) : Option BlockSignature := s.blocks[idx]?

end Signature

/-- The weak and the strong hash of a block. -/
def computeBlockSignature (data : Bytes) : UInt32 × Digest :=
  (((sumOf data).2 <<< 16) ||| (sumOf data).1, sum256 data)

/-! ### What the rolling hash holds -/

/-- `rh` is a rolling hash over `n` bytes that holds `w`. -/
structure Ready (n : ℕ) (rh : RollingHash) (w : Bytes) : Prop where
  pos_size : 0 < n
  blockSize : rh.blockSize = n
  size : rh.size = n
  length : rh.window.length = n
  count : rh.count = w.length
  le : w.length ≤ n
  hash : (rh.a, rh.b) = sumOf w
  ring : ∃ p s : ℕ, rh.pos = p ∧ p < n ∧ s < n ∧ (s + w.length) % n = p ∧ Ring.Holds rh.window s w

theorem natCast_tmod (x n : ℕ) : ((x : Int)).tmod (n : Int) = ((x % n : ℕ) : Int) := by
  rw [Int.tmod_eq_emod_of_nonneg (Int.natCast_nonneg x), Int.natCast_emod]

/-- The position `startPos` computes is where the contents start. -/
theorem start_mod {n p s c : ℕ} (hs : s < n) (hc : c ≤ n) (hp : (s + c) % n = p) :
    (p + (n - c)) % n = s := by
  rw [← hp, Nat.mod_add_mod, show s + c + (n - c) = s + n by omega, Nat.add_mod_right,
    Nat.mod_eq_of_lt hs]

theorem startPos_eq {n p s c : ℕ} {rh : RollingHash} (hsize : rh.size = n)
    (hcount : rh.count = c) (hpos : rh.pos = p) (hs : s < n) (hc : c ≤ n)
    (hp : (s + c) % n = p) : rh.startPos = s := by
  rw [RollingHash.startPos, hsize, hcount, hpos,
    show (p : Int) - c + n = ((p + (n - c) : ℕ) : Int) by omega, natCast_tmod,
    start_mod hs hc hp]

/-- `recompute` reads the contents in order. -/
theorem recompute_ready {n p s : ℕ} (rh : RollingHash) {w : Bytes} (hblock : rh.blockSize = n)
    (hsize : rh.size = n) (hlen : rh.window.length = n) (hcount : rh.count = w.length)
    (hle : w.length ≤ n) (hpos : rh.pos = p) (hp : p < n) (hs : s < n)
    (hps : (s + w.length) % n = p) (hring : Ring.Holds rh.window s w) :
    ∃ rh', rh.recompute = some rh' ∧ Ready n rh' w := by
  have hstart : rh.startPos = s := startPos_eq hsize hcount hpos hs hle hps
  -- after `k` rounds the sum is that of the first `k` bytes
  have hfold : ∀ (k : ℕ), k ≤ w.length →
      (List.range k).foldlM rh.recomputeStep (1, 0) = some ((w.take k).foldl sumStep (1, 0)) := by
    intro k
    induction k with
    | zero => intro _; rfl
    | succ k ih =>
      intro hk
      have hcell : index rh.window ((rh.startPos + k).tmod rh.size) = w[k]? := by
        rw [hstart, hsize, ← Int.natCast_add, natCast_tmod, index_natCast, ← hlen]
        exact hring.2 k (by omega)
      have hget : w[k]? = some (w.get ⟨k, by omega⟩) := List.getElem?_eq_getElem (by omega)
      have htake : w.take (k + 1) = w.take k ++ [w.get ⟨k, by omega⟩] := by
        rw [List.take_add_one, hget]; rfl
      rw [List.range_succ, List.foldlM_append, ih (by omega), htake, List.foldl_append]
      simp [RollingHash.recomputeStep, hcell, hget]
  have hk := hfold w.length le_rfl
  rw [List.take_length] at hk
  refine ⟨{ rh with a := (sumOf w).1, b := (sumOf w).2 }, ?_,
    ⟨by omega, hblock, hsize, hlen, hcount, hle, rfl, p, s, hpos, hp, hs, hps, hring⟩⟩
  simp only [RollingHash.recompute, hcount, Int.toNat_natCast]
  rw [hk]
  rfl

namespace Ready

variable {n : ℕ} {rh : RollingHash} {w : Bytes}

theorem reset_of_length (hn : 0 < n) (rh : RollingHash) (h : rh.window.length = n) :
    Ready n (rh.reset n) [] :=
  ⟨hn, rfl, by simp [RollingHash.reset, h], by simp [RollingHash.reset, h], rfl, by simp, rfl,
    0, 0, rfl, hn, hn, by simp, Ring.holds_nil _ _⟩

theorem reset (h : Ready n rh w) : Ready n (rh.reset n) [] :=
  reset_of_length h.pos_size rh h.length

/-- The write position moves on by one. -/
theorem next_pos (h : Ready n rh w) {p : ℕ} (hpos : rh.pos = p) :
    (rh.pos + 1).tmod rh.size = ((p + 1) % n : ℕ) := by
  rw [hpos, h.size, ← natCast_tmod]; rfl

/-- A byte rolled into a window that is not full. -/
theorem rollIn (h : Ready n rh w) (hw : w.length < n) (b : UInt8) :
    ∃ rh', rh.rollIn b = some (rh', decide (w.length + 1 = n)) ∧ Ready n rh' (w ++ [b]) := by
  obtain ⟨p, s, hpos, hp, hs, hps, hring⟩ := h.ring
  have hlt : rh.count < rh.blockSize := by rw [h.count, h.blockSize]; omega
  have hset : setIndex rh.window rh.pos b = some (rh.window.set p b) := by
    rw [hpos, setIndex_natCast (by rw [h.length]; exact hp)]
  have hring' : Ring.Holds (rh.window.set p b) s (w ++ [b]) := by
    have := Ring.holds_push hring (by rw [h.length]; exact hw) b
    rwa [h.length, hps] at this
  have hps' : (s + (w ++ [b]).length) % n = (p + 1) % n := by
    rw [← hps, Nat.mod_add_mod, List.length_append]; rfl
  obtain ⟨rh', hrec, hready⟩ := recompute_ready { rh with
      window := rh.window.set p b, pos := (rh.pos + 1).tmod rh.size, count := rh.count + 1 }
    h.blockSize h.size (by simp [h.length]) (by simp [h.count]) (by simp; omega)
    (h.next_pos hpos) (Nat.mod_lt _ h.pos_size) hs hps' hring'
  refine ⟨rh', ?_, hready⟩
  rw [RollingHash.rollIn, if_pos hlt, hset]
  simp only [Option.bind_eq_bind, Option.bind_some, hrec, Option.pure_def, hready.count,
    hready.blockSize, List.length_append, List.length_singleton, Int.natCast_inj]

/-- A byte rolled into a full window: the oldest one leaves. -/
theorem roll (h : Ready n rh w) (hw : w.length = n) (b : UInt8) :
    ∃ rh', rh.roll b = some rh' ∧ Ready n rh' (w.tail ++ [b]) := by
  obtain ⟨p, s, hpos, hp, hs, hps, hring⟩ := h.ring
  obtain rfl : s = p := by rw [← hps, hw, Nat.add_mod_right, Nat.mod_eq_of_lt hs]
  have hset : setIndex rh.window rh.pos b = some (rh.window.set s b) := by
    rw [hpos, setIndex_natCast (by rw [h.length]; exact hp)]
  have hlen : (w.tail ++ [b]).length = n := by
    have := h.pos_size
    simp; omega
  have hring' : Ring.Holds (rh.window.set s b) ((s + 1) % n) (w.tail ++ [b]) := by
    have := Ring.holds_slide hring (by rw [h.length]; exact hw) (by rw [h.length]; exact hp) b
    rwa [h.length] at this
  have hmod : (s + 1) % n < n := Nat.mod_lt _ h.pos_size
  obtain ⟨rh', hrec, hready⟩ := recompute_ready { rh with
      window := rh.window.set s b, pos := (rh.pos + 1).tmod rh.size }
    h.blockSize h.size (by simp [h.length]) (by rw [hlen, ← hw]; exact h.count) hlen.le
    (h.next_pos hpos) hmod hmod (by rw [hlen, Nat.add_mod_right, Nat.mod_mod]) hring'
  refine ⟨rh', ?_, hready⟩
  rw [RollingHash.roll, hset]
  exact hrec

theorem isFull_iff (h : Ready n rh w) : rh.isFull = true ↔ w.length = n := by
  have := h.le
  simp only [RollingHash.isFull, h.count, h.blockSize, decide_eq_true_eq]
  omega

theorem isFull_of (h : Ready n rh w) (hw : w.length = n) : rh.isFull = true := h.isFull_iff.mpr hw

/-- `Sum` is the weak hash of the contents. -/
theorem sum_eq (h : Ready n rh w) : rh.sum = (computeBlockSignature w).1 := by
  have h₁ : rh.a = (sumOf w).1 := congrArg Prod.fst h.hash
  have h₂ : rh.b = (sumOf w).2 := congrArg Prod.snd h.hash
  rw [RollingHash.sum, h₁, h₂]
  rfl

/-- `Window` is the contents, with zeros behind them. -/
theorem window_eq (h : Ready n rh w) :
    rh.windowBytes = some (w ++ List.replicate (n - w.length) 0) := by
  obtain ⟨p, s, hpos, hp, hs, hps, hring⟩ := h.ring
  have hle := h.le
  have hlen := h.length
  have hstart : rh.startPos = s := startPos_eq h.size h.count hpos hs h.le hps
  simp only [RollingHash.windowBytes, hstart, h.count, h.size, h.blockSize, Int.toNat_natCast]
  by_cases hc : s + w.length ≤ n
  · have hsl : slice rh.window s (s + w.length) = some w := by
      rw [← Int.natCast_add, slice_natCast _ (by omega) (by omega), hring.contiguous (by omega)]
    rw [if_pos (by omega), hsl]
    simp [copyInto, List.take_of_length_le hle]
  · have h₁ : slice (List.replicate n (0 : UInt8)) 0 ((n : Int) - s) =
        some (List.replicate (n - s) 0) := by
      have := slice_natCast (List.replicate n (0 : UInt8)) (Nat.zero_le (n - s)) (by simp)
      rw [show (n : Int) - s = ((n - s : ℕ) : Int) by omega]
      simpa using this
    have h₂ : slice rh.window s rh.window.length = some (rh.window.drop s) := by
      rw [slice_natCast _ (by omega) le_rfl, List.take_length]
    have h₃ : slice (List.replicate n (0 : UInt8)) ((n : Int) - s)
        (List.replicate n (0 : UInt8)).length = some (List.replicate s 0) := by
      rw [show (n : Int) - s = ((n - s : ℕ) : Int) by omega, slice_natCast _ (by simp) le_rfl]
      simp
      omega
    have h₄ : slice rh.window 0 ((w.length : Int) - ((n : Int) - s)) =
        some (rh.window.take (w.length - (n - s))) := by
      have := slice_natCast rh.window (Nat.zero_le (w.length - (n - s))) (by omega)
      rw [show (w.length : Int) - ((n : Int) - s) = ((w.length - (n - s) : ℕ) : Int) by omega]
      simpa using this
    have hw := hring.wrapped (by omega) (by omega)
    rw [hlen] at hw
    rw [if_neg (by omega), h₁, h₂, h₃, h₄]
    simp only [Option.bind_eq_bind, Option.bind_some, Option.pure_def, Option.some.injEq, copyInto,
      List.length_replicate, List.drop_replicate, List.length_drop, List.length_take, hlen]
    conv_rhs => rw [← hw]
    rw [List.take_of_length_le (by simp; omega), List.take_of_length_le (by simp; omega)]
    simp only [Nat.sub_self, List.replicate_zero, List.append_nil, List.append_assoc]
    congr 3
    simp
    omega

/-- The window of a full rolling hash. -/
theorem window_full (h : Ready n rh w) (hw : w.length = n) : rh.windowBytes = some w := by
  rw [h.window_eq, hw, Nat.sub_self, List.replicate_zero, List.append_nil]

/-- The leading bytes of a window that is not full. -/
theorem window_slice (h : Ready n rh w) :
    ∃ v, rh.windowBytes = some v ∧ slice v 0 (w.length : Int) = some w := by
  refine ⟨_, h.window_eq, ?_⟩
  have := slice_natCast (w ++ List.replicate (n - w.length) (0 : UInt8))
    (Nat.zero_le w.length) (by simp)
  simpa using this

/-- The byte a full window drops next. -/
theorem oldest {b : UInt8} {v : Bytes} (h : Ready n rh (b :: v)) :
    index rh.window ((rh.pos - rh.count + rh.size).tmod rh.size) = some b := by
  obtain ⟨p, s, hpos, hp, hs, hps, hring⟩ := h.ring
  have hstart : rh.startPos = s := startPos_eq h.size h.count hpos hs h.le hps
  rw [RollingHash.startPos] at hstart
  rw [hstart, index_natCast, hring.oldest (by simp) (by rw [h.length]; exact hs)]
  rfl

end Ready

/-- A new rolling hash, whatever the pooled object held before. -/
theorem ready_new (pooled : Bytes) {n : ℕ} (hn : 0 < n) (hmax : (n : Int) ≤ maxBlockSize) :
    Ready n (newRollingHash pooled n) [] := by
  have h₁ : ¬ (n : Int) ≤ 0 := by omega
  have h₂ : ¬ (n : Int) > maxBlockSize := by omega
  simp only [newRollingHash, if_neg h₁, if_neg h₂]
  apply Ready.reset_of_length hn
  split
  · simp
  · simp
    omega

end FileSync.Deltas
