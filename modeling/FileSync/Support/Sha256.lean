import Mathlib.Algebra.Ring.Int.Defs
import Mathlib.Algebra.Ring.Nat
import Mathlib.Data.Set.Function

/-!
# Support — Sha256

The SHA-256 digest of FIPS 180-4, computed on byte lists: the padding, the message schedule as a
window of sixteen words that slides along the rounds, the compression of one block and the
concatenation of the eight chaining words.

* `sum256` is `sha256.Sum256`; its value is a `Digest`, a byte list that carries its length.
* `Hasher` is the streaming interface `sha256.New`, `Write`, `Sum`: it remembers what it was fed.

`sum256` is irreducible: no proof below depends on how the digest is computed, and hypotheses
about collisions are stated on the inputs a program hashes.
-/

abbrev Bytes := List UInt8

namespace Sha256

/-- The round constants. -/
def roundConstants : List UInt32 :=
  [0x428a2f98, 0x71374491, 0xb5c0fbcf, 0xe9b5dba5, 0x3956c25b, 0x59f111f1, 0x923f82a4, 0xab1c5ed5,
   0xd807aa98, 0x12835b01, 0x243185be, 0x550c7dc3, 0x72be5d74, 0x80deb1fe, 0x9bdc06a7, 0xc19bf174,
   0xe49b69c1, 0xefbe4786, 0x0fc19dc6, 0x240ca1cc, 0x2de92c6f, 0x4a7484aa, 0x5cb0a9dc, 0x76f988da,
   0x983e5152, 0xa831c66d, 0xb00327c8, 0xbf597fc7, 0xc6e00bf3, 0xd5a79147, 0x06ca6351, 0x14292967,
   0x27b70a85, 0x2e1b2138, 0x4d2c6dfc, 0x53380d13, 0x650a7354, 0x766a0abb, 0x81c2c92e, 0x92722c85,
   0xa2bfe8a1, 0xa81a664b, 0xc24b8b70, 0xc76c51a3, 0xd192e819, 0xd6990624, 0xf40e3585, 0x106aa070,
   0x19a4c116, 0x1e376c08, 0x2748774c, 0x34b0bcb5, 0x391c0cb3, 0x4ed8aa4a, 0x5b9cca4f, 0x682e6ff3,
   0x748f82ee, 0x78a5636f, 0x84c87814, 0x8cc70208, 0x90befffa, 0xa4506ceb, 0xbef9a3f7, 0xc67178f2]

def rotr (n x : UInt32) : UInt32 := (x >>> n) ||| (x <<< (32 - n))

def bigSigma0 (x : UInt32) : UInt32 := rotr 2 x ^^^ rotr 13 x ^^^ rotr 22 x

def bigSigma1 (x : UInt32) : UInt32 := rotr 6 x ^^^ rotr 11 x ^^^ rotr 25 x

def smallSigma0 (x : UInt32) : UInt32 := rotr 7 x ^^^ rotr 18 x ^^^ (x >>> 3)

def smallSigma1 (x : UInt32) : UInt32 := rotr 17 x ^^^ rotr 19 x ^^^ (x >>> 10)

def ch (x y z : UInt32) : UInt32 := (x &&& y) ^^^ (~~~x &&& z)

def maj (x y z : UInt32) : UInt32 := (x &&& y) ^^^ (x &&& z) ^^^ (y &&& z)

/-- The eight chaining words. -/
structure State where
  (a b c d e f g h : UInt32)

/-- The initial hash value. -/
def State.init : State :=
  ⟨0x6a09e667, 0xbb67ae85, 0x3c6ef372, 0xa54ff53a, 0x510e527f, 0x9b05688c, 0x1f83d9ab, 0x5be0cd19⟩

def State.add (s t : State) : State :=
  ⟨s.a + t.a, s.b + t.b, s.c + t.c, s.d + t.d, s.e + t.e, s.f + t.f, s.g + t.g, s.h + t.h⟩

/-- One round, at the constant `k` and the schedule word `w`. -/
def State.round (s : State) (k w : UInt32) : State :=
  let t₁ := s.h + bigSigma1 s.e + ch s.e s.f s.g + k + w
  let t₂ := bigSigma0 s.a + maj s.a s.b s.c
  ⟨t₁ + t₂, s.a, s.b, s.c, s.d + t₁, s.e, s.f, s.g⟩

/-- The rounds for the constants `ks`.  `w` is the window `W_t, …, W_{t+15}` of the schedule. -/
def rounds : List UInt32 → List UInt32 → State → State
  | [], _, s => s
  | k :: ks, w, s =>
    let wt := w.headD 0
    let w16 := smallSigma1 (w.getD 14 0) + w.getD 9 0 + smallSigma0 (w.getD 1 0) + wt
    rounds ks (w.tail ++ [w16]) (s.round k wt)

/-- The big-endian words of a byte list. -/
def words : Bytes → List UInt32
  | a :: b :: c :: d :: rest =>
    ((a.toUInt32 <<< 24) ||| (b.toUInt32 <<< 16) ||| (c.toUInt32 <<< 8) ||| d.toUInt32) ::
      words rest
  | _ => []

def wordBytes (x : UInt32) : Bytes :=
  [(x >>> 24).toUInt8, (x >>> 16).toUInt8, (x >>> 8).toUInt8, x.toUInt8]

def compress (s : State) (block : Bytes) : State :=
  s.add (rounds roundConstants (words block) s)

/-- `n` blocks of 64 bytes. -/
def compressBlocks : Nat → Bytes → State → State
  | 0, _, s => s
  | n + 1, m, s => compressBlocks n (m.drop 64) (compress s (m.take 64))

/-- The message, `0x80`, zeros up to 56 modulo 64, and the bit length in eight bytes. -/
def pad (m : Bytes) : Bytes :=
  m ++ 0x80 :: List.replicate ((119 - m.length % 64) % 64) 0 ++
    (List.range 8).map fun i => UInt8.ofNat (m.length * 8 / 2 ^ (8 * (7 - i)))

def State.bytes (s : State) : Bytes :=
  wordBytes s.a ++ wordBytes s.b ++ wordBytes s.c ++ wordBytes s.d ++
    wordBytes s.e ++ wordBytes s.f ++ wordBytes s.g ++ wordBytes s.h

theorem State.length_bytes (s : State) : s.bytes.length = 32 := rfl

/-- `[32]byte`. -/
structure Digest where
  bytes : Bytes
  length_bytes : bytes.length = 32
deriving DecidableEq

theorem Digest.ext_bytes {d e : Digest} (h : d.bytes = e.bytes) : d = e := by
  cases d; cases e; cases h; rfl

/-- `sha256.Sum256`. -/
@[irreducible] def sum256 (m : Bytes) : Digest :=
  ⟨(compressBlocks ((pad m).length / 64) (pad m) State.init).bytes, State.length_bytes _⟩

-- The published digest of the three bytes `abc`.
example : (sum256 [97, 98, 99]).bytes =
    [0xba, 0x78, 0x16, 0xbf, 0x8f, 0x01, 0xcf, 0xea, 0x41, 0x41, 0x40, 0xde, 0x5d, 0xae, 0x22, 0x23,
     0xb0, 0x03, 0x61, 0xa3, 0x96, 0x17, 0x7a, 0x9c, 0xb4, 0x10, 0xff, 0x61, 0xf2, 0x00, 0x15,
     0xad] := by decide +kernel

/-- `sha256` does not collide on the inputs in `S`. -/
def NoCollision (S : Set Bytes) : Prop := Set.InjOn sum256 S

theorem noCollision_of_forall {l : List Bytes}
    (h : ∀ x ∈ l, ∀ y ∈ l, sum256 x = sum256 y → x = y) : NoCollision {m | m ∈ l} :=
  fun _ hx _ hy => h _ hx _ hy

/-- A running `sha256.New()`: what has been written to it. -/
structure Hasher where
  fed : Bytes

namespace Hasher

def new : Hasher := ⟨[]⟩

def write (h : Hasher) (p : Bytes) : Hasher := ⟨h.fed ++ p⟩

def sum (h : Hasher) : Digest := sum256 h.fed

@[simp] theorem fed_new : new.fed = [] := rfl

@[simp] theorem fed_write (h : Hasher) (p : Bytes) : (h.write p).fed = h.fed ++ p := rfl

end Hasher

end Sha256
