import Mathlib.Data.List.Basic
import Mathlib.Data.Nat.ModEq

/-!
# Support — Ring

A circular buffer read in order.  `Holds buf s w` says that the cells of `buf` from `s` on,
wrapping at its end, hold `w`.

* `holds_push`, `holds_slide`: one store at the write position extends `w`, or, when `w` fills the
  buffer, drops its oldest element.
* `Holds.contiguous`, `Holds.wrapped`: `w` as one slice of `buf`, or as two.
-/

namespace Ring

variable {α : Type*}

/-- The cells of `buf` from `s` on hold `w`. -/
def Holds (buf : List α) (s : ℕ) (w : List α) : Prop :=
  w.length ≤ buf.length ∧ ∀ i < w.length, buf[(s + i) % buf.length]? = w[i]?

theorem holds_nil (buf : List α) (s : ℕ) : Holds buf s [] :=
  ⟨Nat.zero_le _, fun i h => absurd h (Nat.not_lt_zero i)⟩

/-- Two cells at different distances from `s`, less than a round apart, are different. -/
theorem add_mod_ne {n s i j : ℕ} (hij : i < j) (hj : j < i + n) : (s + i) % n ≠ (s + j) % n := by
  intro h
  have hd : n ∣ (s + j) - (s + i) := (Nat.modEq_iff_dvd' (by omega)).mp h
  have hle : n ≤ (s + j) - (s + i) := Nat.le_of_dvd (by omega) hd
  omega

/-- A store behind the last element. -/
theorem holds_push {buf w : List α} {s : ℕ} (h : Holds buf s w) (hw : w.length < buf.length)
    (b : α) : Holds (buf.set ((s + w.length) % buf.length) b) s (w ++ [b]) := by
  obtain ⟨-, hcell⟩ := h
  refine ⟨by simp; omega, fun i hi => ?_⟩
  rw [List.length_set]
  have hi' : i < w.length ∨ i = w.length := by simp at hi; omega
  rcases hi' with hlt | rfl
  · rw [List.getElem?_set_ne (add_mod_ne hlt (by omega)).symm, hcell i hlt,
      List.getElem?_append_left hlt]
  · have hpos : (s + w.length) % buf.length < buf.length := Nat.mod_lt _ (by omega)
    rw [List.getElem?_set_self hpos]
    simp

/-- A store over the oldest element of a full buffer. -/
theorem holds_slide {buf w : List α} {s : ℕ} (h : Holds buf s w) (hw : w.length = buf.length)
    (hs : s < buf.length) (b : α) :
    Holds (buf.set s b) ((s + 1) % buf.length) (w.tail ++ [b]) := by
  obtain ⟨-, hcell⟩ := h
  refine ⟨by simp; omega, fun i hi => ?_⟩
  rw [List.length_set, Nat.mod_add_mod]
  have hi' : i + 1 < w.length ∨ i + 1 = w.length := by simp at hi; omega
  rcases hi' with hlt | heq
  · have hne : (s + 0) % buf.length ≠ (s + (i + 1)) % buf.length :=
      add_mod_ne (Nat.succ_pos i) (by omega)
    rw [Nat.add_zero, Nat.mod_eq_of_lt hs] at hne
    rw [show s + 1 + i = s + (i + 1) by omega, List.getElem?_set_ne hne, hcell (i + 1) hlt,
      List.getElem?_append_left (by simp; omega), List.getElem?_tail]
  · rw [show s + 1 + i = s + buf.length by omega, Nat.add_mod_right, Nat.mod_eq_of_lt hs,
      List.getElem?_set_self hs, List.getElem?_append_right (by simp; omega)]
    simp [show i - (w.length - 1) = 0 by omega]

/-- The oldest element of a full buffer is where the next store goes. -/
theorem Holds.oldest {buf w : List α} {s : ℕ} (h : Holds buf s w) (hw : 0 < w.length)
    (hs : s < buf.length) : buf[s]? = w[0]? := by
  have := h.2 0 hw
  rwa [Nat.add_zero, Nat.mod_eq_of_lt hs] at this

/-- The contents as one slice. -/
theorem Holds.contiguous {buf w : List α} {s : ℕ} (h : Holds buf s w)
    (hs : s + w.length ≤ buf.length) : (buf.take (s + w.length)).drop s = w := by
  refine List.ext_getElem? fun i => ?_
  rw [List.getElem?_drop, List.getElem?_take]
  by_cases hi : i < w.length
  · rw [if_pos (by omega), ← h.2 i hi, Nat.mod_eq_of_lt (by omega)]
  · rw [if_neg (by omega), List.getElem?_eq_none (by omega)]

/-- The contents as two slices, around the end of the buffer. -/
theorem Holds.wrapped {buf w : List α} {s : ℕ} (h : Holds buf s w) (hs : s < buf.length)
    (hw : buf.length < s + w.length) :
    buf.drop s ++ buf.take (w.length - (buf.length - s)) = w := by
  have hle := h.1
  refine List.ext_getElem? fun i => ?_
  by_cases hi : i < w.length
  · by_cases hf : i < buf.length - s
    · rw [List.getElem?_append_left (by simp; omega), List.getElem?_drop, ← h.2 i hi,
        Nat.mod_eq_of_lt (by omega)]
    · rw [List.getElem?_append_right (by simp; omega), List.length_drop, List.getElem?_take,
        if_pos (by omega), ← h.2 i hi,
        show s + i = (i - (buf.length - s)) + buf.length by omega, Nat.add_mod_right,
        Nat.mod_eq_of_lt (by omega)]
  · rw [List.getElem?_eq_none (by simp; omega), List.getElem?_eq_none (by omega)]

end Ring
