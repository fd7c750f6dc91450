import Mathlib.Data.List.Infix
import Mathlib.Data.List.Basic

/-!
# Support — Blocks

A list cut into consecutive pieces of `n` elements, the last one possibly shorter: what a loop
that fills a buffer of `n` elements until the end of its input sees.

* `blocks_of_ne_nil`: the cut is the loop's own recursion.
* `flatten_blocks`: the pieces are consecutive and cover the list.
* `getElem?_blocks`: piece `i` holds the elements from `i * n` on.
* `length_of_mem_dropLast_blocks`: every piece but the last has `n` elements.
* `length_blocks`: there are as many pieces as `n` goes into the length, rounded up.
-/

namespace Blocks

variable {α : Type*}

def blocksFuel (n : ℕ) : ℕ → List α → List (List α)
  | 0, _ => []
  | _ + 1, [] => []
  | f + 1, x :: xs => (x :: xs).take n :: blocksFuel n f ((x :: xs).drop n)

/-- The list in pieces of `n`. -/
def blocks (n : ℕ) (xs : List α) : List (List α) := blocksFuel n xs.length xs

theorem blocksFuel_eq {n : ℕ} (hn : 0 < n) :
    ∀ (f : ℕ) (xs : List α), xs.length ≤ f → blocksFuel n f xs = blocksFuel n xs.length xs := by
  intro f
  induction f using Nat.strong_induction_on with
  | _ f ih =>
    intro xs hf
    cases xs with
    | nil => cases f <;> rfl
    | cons x xs =>
      cases f with
      | zero => simp at hf
      | succ f =>
        have hd : ((x :: xs).drop n).length ≤ xs.length := by simp; omega
        simp only [List.length_cons] at hf
        simp only [blocksFuel, List.length_cons]
        rw [ih f (by omega) _ (by omega), ih xs.length (by omega) _ hd]

@[simp] theorem blocks_nil (n : ℕ) : blocks n ([] : List α) = [] := rfl

theorem blocks_of_ne_nil {n : ℕ} (hn : 0 < n) {xs : List α} (h : xs ≠ []) :
    blocks n xs = xs.take n :: blocks n (xs.drop n) := by
  cases xs with
  | nil => exact absurd rfl h
  | cons x xs =>
    have hd : ((x :: xs).drop n).length ≤ xs.length := by simp; omega
    show _ :: blocksFuel n xs.length _ = _
    rw [blocksFuel_eq hn _ _ hd]
    rfl

/-- The pieces of a list, by the recursion of the cut. -/
theorem blocks_induction {n : ℕ} (hn : 0 < n) {motive : List α → Prop} (nil : motive [])
    (cut : ∀ xs, xs ≠ [] → motive (xs.drop n) → motive xs) (xs : List α) : motive xs := by
  induction h : xs.length using Nat.strong_induction_on generalizing xs with
  | _ k ih =>
    by_cases hx : xs = []
    · exact hx ▸ nil
    · have : 0 < xs.length := List.length_pos_iff.mpr hx
      exact cut xs hx (ih (xs.drop n).length (by simp; omega) _ rfl)

theorem flatten_blocks {n : ℕ} (hn : 0 < n) (xs : List α) : (blocks n xs).flatten = xs := by
  induction xs using blocks_induction hn with
  | nil => rfl
  | cut xs hx ih => rw [blocks_of_ne_nil hn hx, List.flatten_cons, ih, List.take_append_drop]

/-- A piece is one piece. -/
theorem blocks_of_mem {n : ℕ} (hn : 0 < n) {xs b : List α} (h : b ∈ blocks n xs) :
    blocks n b = [b] := by
  induction xs using blocks_induction hn with
  | nil => cases h
  | cut xs hx ih =>
    rw [blocks_of_ne_nil hn hx, List.mem_cons] at h
    rcases h with rfl | h
    · have hne : xs.take n ≠ [] := by simp [hx, hn.ne']
      rw [blocks_of_ne_nil hn hne, List.take_take, min_self, List.drop_take_self, blocks_nil]
    · exact ih h

/-- No piece is empty, and none is longer than it should be. -/
theorem length_of_mem_blocks {n : ℕ} (hn : 0 < n) {xs b : List α} (h : b ∈ blocks n xs) :
    0 < b.length ∧ b.length ≤ n := by
  induction xs using blocks_induction hn with
  | nil => cases h
  | cut xs hx ih =>
    rw [blocks_of_ne_nil hn hx, List.mem_cons] at h
    rcases h with rfl | h
    · have hpos : 0 < xs.length := List.length_pos_iff.mpr hx
      rw [List.length_take]
      omega
    · exact ih h

/-- Only the last piece may be shorter. -/
theorem length_of_mem_dropLast_blocks {n : ℕ} (hn : 0 < n) {xs b : List α}
    (h : b ∈ (blocks n xs).dropLast) : b.length = n := by
  induction xs using blocks_induction hn with
  | nil => cases h
  | cut xs hx ih =>
    rw [blocks_of_ne_nil hn hx] at h
    by_cases hrest : xs.drop n = []
    · rw [hrest, blocks_nil] at h
      cases h
    · have hne : blocks n (xs.drop n) ≠ [] := by
        rw [blocks_of_ne_nil hn hrest]
        exact List.cons_ne_nil _ _
      rw [List.dropLast_cons_of_ne_nil hne, List.mem_cons] at h
      rcases h with rfl | h
      · rw [List.drop_eq_nil_iff, not_le] at hrest
        rw [List.length_take]
        omega
      · exact ih h

/-- Pieces of one element. -/
theorem blocks_one (xs : List α) : blocks 1 xs = xs.map fun x => [x] := by
  induction xs with
  | nil => rfl
  | cons x xs ih =>
    rw [blocks_of_ne_nil Nat.one_pos (List.cons_ne_nil x xs), List.map_cons, ← ih]
    rfl

/-- The number of pieces. -/
theorem length_blocks {n : ℕ} (hn : 0 < n) (xs : List α) :
    (blocks n xs).length = (xs.length + n - 1) / n := by
  induction xs using blocks_induction hn with
  | nil =>
    rw [blocks_nil, List.length_nil, List.length_nil, Nat.zero_add,
      Nat.div_eq_of_lt (Nat.sub_one_lt hn.ne')]
  | cut xs hx ih =>
    have hpos : 0 < xs.length := List.length_pos_iff.mpr hx
    rw [blocks_of_ne_nil hn hx, List.length_cons, ih, List.length_drop,
      ← Nat.add_div_right _ hn]
    rcases Nat.lt_or_ge xs.length n with hlt | hge
    · have one : ∀ m, n ≤ m → m < n + n → m / n = 1 :=
        fun m h₁ h₂ => Nat.div_eq_of_lt_le (by omega) (by omega)
      rw [one _ (by omega) (by omega), one _ (by omega) (by omega)]
    · rw [Nat.sub_add_cancel hge, ← Nat.sub_add_comm hpos]

theorem getElem?_blocks {n : ℕ} (hn : 0 < n) (xs : List α) :
    ∀ i, (blocks n xs)[i]? =
      if i * n < xs.length then some ((xs.drop (i * n)).take n) else none := by
  induction xs using blocks_induction hn with
  | nil => intro i; simp
  | cut xs hx ih =>
    have hpos : 0 < xs.length := List.length_pos_iff.mpr hx
    intro i
    rw [blocks_of_ne_nil hn hx]
    cases i with
    | zero => simp [hpos]
    | succ i =>
      rw [List.getElem?_cons_succ, ih i, List.length_drop, List.drop_drop,
        Nat.add_comm n, ← Nat.succ_mul]
      have : (i * n < xs.length - n) ↔ (i + 1) * n < xs.length := by
        rw [Nat.succ_mul]; omega
      simp only [this]

end Blocks
