import FileSync.Support.Sha256

/-!
# Support — Hex

`hex.EncodeToString`: two lower-case digits for each byte, from which the bytes can be read back
(`decodeString_encode`).
-/

namespace Hex

def digit (n : UInt8) : UInt8 := if n < 10 then 48 + n else 87 + n

/-- The value of a digit. -/
def value (c : UInt8) : UInt8 := if c < 58 then c - 48 else c - 87

/-- `hex.EncodeToString`. -/
def encode (b : Bytes) : Bytes := b.flatMap fun x : UInt8 => [digit (x >>> 4), digit (x &&& 15)]

@[simp] theorem encode_nil : encode [] = [] := rfl

theorem encode_cons (x : UInt8) (b : Bytes) :
    encode (x :: b) = digit (x >>> 4) :: digit (x &&& 15) :: encode b := rfl

/-- A fact about every byte, checked on all of them. -/
theorem forall_byte {P : UInt8 → Prop} (h : ∀ n : Fin 256, P (UInt8.ofFin n)) (x : UInt8) : P x :=
  h x.toFin

theorem value_digits (x : UInt8) : value (digit (x >>> 4)) * 16 + value (digit (x &&& 15)) = x :=
  forall_byte (P := fun x => value (digit (x >>> 4)) * 16 + value (digit (x &&& 15)) = x)
    (by decide +kernel) x

theorem digit_ne (x : UInt8) :
    (digit (x >>> 4) ≠ 46 ∧ digit (x >>> 4) ≠ 47) ∧ digit (x &&& 15) ≠ 46 ∧ digit (x &&& 15) ≠ 47 :=
  forall_byte (P := fun x => (digit (x >>> 4) ≠ 46 ∧ digit (x >>> 4) ≠ 47) ∧
    digit (x &&& 15) ≠ 46 ∧ digit (x &&& 15) ≠ 47) (by decide +kernel) x

/-- No digit is a dot or a slash. -/
theorem ne_of_mem_encode {b : Bytes} {c : UInt8} (h : c ∈ encode b) : c ≠ 46 ∧ c ≠ 47 := by
  obtain ⟨x, -, hc⟩ := List.mem_flatMap.1 h
  obtain ⟨hhigh, hlow⟩ := digit_ne x
  rcases List.mem_cons.1 hc with rfl | hc
  · exact hhigh
  · exact List.mem_singleton.1 hc ▸ hlow

theorem encode_injective : Function.Injective encode := by
  intro a b h
  induction a generalizing b with
  | nil =>
    cases b with
    | nil => rfl
    | cons y b => simp [encode_cons] at h
  | cons x a ih =>
    cases b with
    | nil => simp [encode_cons] at h
    | cons y b =>
      simp only [encode_cons, List.cons.injEq] at h
      obtain ⟨hhigh, hlow, hrest⟩ := h
      rw [← value_digits x, hhigh, hlow, value_digits, ih hrest]

/-! ### Reading back -/

/-- The value of a digit of either case. -/
def fromHexChar (c : UInt8) : Option UInt8 :=
  if 48 ≤ c ∧ c ≤ 57 then some (c - 48)
  else if 97 ≤ c ∧ c ≤ 102 then some (c - 97 + 10)
  else if 65 ≤ c ∧ c ≤ 70 then some (c - 65 + 10)
  else none

/-- `hex.DecodeString`, which fails on a byte that is no digit and on an odd length. -/
def decodeString : Bytes → Option Bytes
  | [] => some []
  | [_] => none
  | a :: b :: r => do
      let x ← fromHexChar a
      let y ← fromHexChar b
      let r ← decodeString r
      return (x <<< 4 ||| y) :: r

theorem fromHexChar_digits (x : UInt8) :
    ∃ a b, fromHexChar (digit (x >>> 4)) = some a ∧ fromHexChar (digit (x &&& 15)) = some b ∧
      a <<< 4 ||| b = x :=
  ⟨x >>> 4, x &&& 15, forall_byte (P := fun x =>
    fromHexChar (digit (x >>> 4)) = some (x >>> 4) ∧
      fromHexChar (digit (x &&& 15)) = some (x &&& 15) ∧ (x >>> 4) <<< 4 ||| (x &&& 15) = x)
    (by decide +kernel) x⟩

theorem decodeString_encode (b : Bytes) : decodeString (encode b) = some b := by
  induction b with
  | nil => rfl
  | cons x b ih =>
    obtain ⟨a, c, ha, hc, hx⟩ := fromHexChar_digits x
    rw [encode_cons, decodeString, ha, hc, ih]
    simp [hx]

end Hex
