import FileSync.Support.Io

/-!
# Support — Binary

Fixed-width integers in big-endian order, as package `encoding/binary` reads and writes them, and
fields behind a 16-bit length.
-/

namespace Binary

/-- `binary.BigEndian.PutUint32` of a number, which is cut to 32 bits. -/
def putUint32 (n : ℕ) : Bytes :=
  [UInt8.ofNat (n / 2 ^ 24), UInt8.ofNat (n / 2 ^ 16), UInt8.ofNat (n / 2 ^ 8), UInt8.ofNat n]

/-- `binary.BigEndian.Uint32` of four bytes. -/
def uint32 (b : Bytes) : ℕ := b.foldl (fun n x => n * 256 + x.toNat) 0

/-- `binary.BigEndian.PutUint16` of a number, which is cut to 16 bits. -/
def putUint16 (n : ℕ) : Bytes := [UInt8.ofNat (n / 2 ^ 8), UInt8.ofNat n]

/-- `binary.BigEndian.Uint16` of two bytes. -/
def uint16 (b : Bytes) : ℕ := b.foldl (fun n x => n * 256 + x.toNat) 0

/-- `binary.BigEndian.PutUint64` of a number, which is cut to 64 bits. -/
def putUint64 (n : ℕ) : Bytes := putUint32 (n / 2 ^ 32) ++ putUint32 n

/-- `binary.BigEndian.Uint64` of eight bytes. -/
def uint64 (b : Bytes) : ℕ := b.foldl (fun n x => n * 256 + x.toNat) 0

@[simp] theorem length_putUint32 (n : ℕ) : (putUint32 n).length = 4 := rfl

@[simp] theorem length_putUint16 (n : ℕ) : (putUint16 n).length = 2 := rfl

@[simp] theorem length_putUint64 (n : ℕ) : (putUint64 n).length = 8 := rfl

@[simp] theorem uint32_putUint32 (n : ℕ) : uint32 (putUint32 n) = n % 2 ^ 32 := by
  simp only [uint32, putUint32, List.foldl, UInt8.toNat_ofNat']
  omega

@[simp] theorem uint16_putUint16 (n : ℕ) : uint16 (putUint16 n) = n % 2 ^ 16 := by
  simp only [uint16, putUint16, List.foldl, UInt8.toNat_ofNat']
  omega

/-- Four bytes are those of the number they stand for. -/
theorem putUint32_uint32 : ∀ {b : Bytes}, b.length = 4 → putUint32 (uint32 b) = b
  | [w, x, y, z], _ => by
    have hw := w.toNat_lt
    have hx := x.toNat_lt
    have hy := y.toNat_lt
    have hz := z.toNat_lt
    simp only [uint32, putUint32, List.foldl, List.cons.injEq, and_true]
    refine ⟨?_, ?_, ?_, ?_⟩ <;> rw [← UInt8.toNat_inj, UInt8.toNat_ofNat'] <;> omega

theorem uint32_lt {b : Bytes} (h : b.length = 4) : uint32 b < 2 ^ 32 := by
  rw [← putUint32_uint32 h, uint32_putUint32]
  exact Nat.mod_lt _ (Nat.two_pow_pos 32)

/-- A number of eight bytes by its two halves. -/
theorem uint64_append (hi : Bytes) : ∀ {lo : Bytes}, lo.length = 4 →
    uint64 (hi ++ lo) = uint32 hi * 2 ^ 32 + uint32 lo
  | [w, x, y, z], _ => by
    simp only [uint64, uint32, List.foldl_append, List.foldl]
    omega

@[simp] theorem uint64_putUint64 (n : ℕ) : uint64 (putUint64 n) = n % 2 ^ 64 := by
  rw [putUint64, uint64_append _ (length_putUint32 n), uint32_putUint32, uint32_putUint32]
  omega

/-- Eight bytes are those of the number they stand for. -/
theorem putUint64_uint64 {b : Bytes} (h : b.length = 8) : putUint64 (uint64 b) = b := by
  have hhi : (b.take 4).length = 4 := by rw [List.length_take, h]; rfl
  have hlo : (b.drop 4).length = 4 := by rw [List.length_drop, h]
  have hlt := uint32_lt hlo
  have hnum : uint64 b = uint32 (b.take 4) * 2 ^ 32 + uint32 (b.drop 4) := by
    rw [← uint64_append _ hlo, List.take_append_drop]
  have hdiv : uint64 b / 2 ^ 32 = uint32 (b.take 4) := by omega
  have hcut : putUint32 (uint64 b) = putUint32 (uint32 (b.drop 4)) := by
    rw [← putUint32_uint32 (length_putUint32 (uint64 b)), uint32_putUint32, hnum,
      Nat.mul_add_mod_self_right, Nat.mod_eq_of_lt hlt]
  rw [putUint64, hdiv, hcut, putUint32_uint32 hhi, putUint32_uint32 hlo, List.take_append_drop]

theorem uint64_lt {b : Bytes} (h : b.length = 8) : uint64 b < 2 ^ 64 := by
  rw [← putUint64_uint64 h, uint64_putUint64]
  exact Nat.mod_lt _ (Nat.two_pow_pos 64)

/-- Two bytes are those of the number they stand for. -/
theorem putUint16_uint16 : ∀ {b : Bytes}, b.length = 2 → putUint16 (uint16 b) = b
  | [x, y], _ => by
    have hx := x.toNat_lt
    have hy := y.toNat_lt
    simp only [uint16, putUint16, List.foldl, List.cons.injEq, and_true]
    refine ⟨?_, ?_⟩ <;> rw [← UInt8.toNat_inj, UInt8.toNat_ofNat'] <;> omega

theorem uint16_lt {b : Bytes} (h : b.length = 2) : uint16 b < 2 ^ 16 := by
  rw [← putUint16_uint16 h, uint16_putUint16]
  exact Nat.mod_lt _ (Nat.two_pow_pos 16)

theorem putUint16_xor (m n : ℕ) :
    putUint16 (m ^^^ n) = List.zipWith (· ^^^ ·) (putUint16 m) (putUint16 n) := by
  simp only [putUint16, List.zipWith_cons_cons, List.zipWith_nil_left, ← Nat.shiftRight_eq_div_pow,
    Nat.shiftRight_xor_distrib, UInt8.ofNat_xor]

/-- The exclusive or of two numbers, byte by byte. -/
theorem putUint32_xor (m n : ℕ) :
    putUint32 (m ^^^ n) = List.zipWith (· ^^^ ·) (putUint32 m) (putUint32 n) := by
  simp only [putUint32, List.zipWith_cons_cons, List.zipWith_nil_left, ← Nat.shiftRight_eq_div_pow,
    Nat.shiftRight_xor_distrib, UInt8.ofNat_xor]

/-! ### Fields -/

/-- The length of a field, cut to 16 bits, and the field. -/
def putField (b : Bytes) : Bytes := putUint16 b.length ++ b

/-- The field at the start of `body` and what follows it, if there are as many bytes. -/
def readField (body : Bytes) : Option (Bytes × Bytes) :=
  if body.length < 2 then none
  else
    let n := uint16 (body.take 2)
    if body.length < 2 + n then none else some ((body.drop 2).take n, body.drop (2 + n))

@[simp] theorem length_putField (b : Bytes) : (putField b).length = 2 + b.length := by
  rw [putField, List.length_append, length_putUint16]

theorem readField_putField {b : Bytes} (h : b.length < 2 ^ 16) (rest : Bytes) :
    readField (putField b ++ rest) = some (b, rest) := by
  have htake : (putField b ++ rest).take 2 = putUint16 b.length := rfl
  have hdrop : (putField b ++ rest).drop 2 = b ++ rest := rfl
  have hlen : (putField b ++ rest).length = 2 + b.length + rest.length := by
    rw [List.length_append, length_putField]
  rw [readField, hlen, if_neg (by omega), htake, uint16_putUint16, Nat.mod_eq_of_lt h]
  rw [if_neg (by omega), ← List.drop_drop, hdrop, List.take_left' rfl, List.drop_left' rfl]

/-- There is no whole field at the start. -/
inductive Cut : Bytes → Prop
  | length (body : Bytes) (h : body.length < 2) : Cut body
  | value (len body : Bytes) (h₂ : len.length = 2) (h : body.length < uint16 len) :
      Cut (len ++ body)

theorem cut_or_putField (body : Bytes) :
    Cut body ∨ ∃ b rest, b.length < 2 ^ 16 ∧ body = putField b ++ rest := by
  rcases Nat.lt_or_ge body.length 2 with h | h
  · exact .inl (.length body h)
  · have h₂ : (body.take 2).length = 2 := by rw [List.length_take, Nat.min_eq_left h]
    rw [← List.take_append_drop 2 body]
    generalize body.take 2 = len at h₂ ⊢
    generalize body.drop 2 = value
    rcases Nat.lt_or_ge value.length (uint16 len) with hv | hv
    · exact .inl (.value len value h₂ hv)
    · refine .inr ⟨value.take (uint16 len), value.drop (uint16 len), ?_, ?_⟩
      · rw [List.length_take, Nat.min_eq_left hv]
        exact uint16_lt h₂
      · rw [putField, List.length_take, Nat.min_eq_left hv, putUint16_uint16 h₂,
          List.append_assoc, List.take_append_drop]

theorem readField_of_cut {body : Bytes} (h : Cut body) : readField body = none := by
  cases h with
  | length body h => exact if_pos h
  | value len body h₂ h =>
    have htake : (len ++ body).take 2 = len := List.take_left' h₂
    rw [readField, htake, List.length_append, h₂, if_neg (by omega)]
    exact if_pos (by omega)

/-- The two slices of a field at a cursor, and what is left behind it. -/
theorem slice_field {data b tail : Bytes} {pos : ℕ} (h : data.drop pos = putField b ++ tail)
    (hpos : pos ≤ data.length) :
    slice data pos ↑(pos + 2) = some (putUint16 b.length) ∧
      slice data ↑(pos + 2) ↑(pos + 2 + b.length) = some b ∧
      data.drop (pos + 2 + b.length) = tail ∧ pos + 2 + b.length ≤ data.length := by
  have hlen := congrArg List.length h
  rw [List.length_drop, List.length_append, length_putField] at hlen
  rw [putField, List.append_assoc] at h
  have hvalue : data.drop (pos + 2) = b ++ tail := drop_behind h
  exact ⟨slice_of_drop h hpos, slice_of_drop hvalue (by omega), drop_behind hvalue, by omega⟩

end Binary
