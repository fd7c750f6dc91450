import Mathlib.Data.Nat.Notation

/-!
# Support — Search

`sort.Search`: binary search for an index at which a predicate turns true.  Nothing is assumed of
the predicate.

* `search_spec`: the predicate is false right before the result and true at it, as far as these are
  in range.
* `search_separates`: two searches with different results part at an index at which the first
  predicate is true and the second is not.
-/

namespace Search

/-- The loop of `sort.Search`, at the bounds `i` and `j`. -/
def loop (f : ℕ → Bool) (i j : ℕ) : ℕ :=
  if i < j then
    let h := (i + j) / 2
    if f h then loop f i h else loop f (h + 1) j
  else i
termination_by j - i

/-- `sort.Search`. -/
def search (n : ℕ) (f : ℕ → Bool) : ℕ := loop f 0 n

theorem loop_left {f : ℕ → Bool} {i j : ℕ} (hlt : i < j) (hf : f ((i + j) / 2) = true) :
    loop f i j = loop f i ((i + j) / 2) := by
  rw [loop, if_pos hlt, if_pos hf]

theorem loop_right {f : ℕ → Bool} {i j : ℕ} (hlt : i < j) (hf : f ((i + j) / 2) = false) :
    loop f i j = loop f ((i + j) / 2 + 1) j := by
  rw [loop, if_pos hlt, if_neg (by simp [hf])]

theorem loop_spec (f : ℕ → Bool) {i j : ℕ} (hij : i ≤ j) :
    i ≤ loop f i j ∧ loop f i j ≤ j ∧ (i < loop f i j → f (loop f i j - 1) = false) ∧
      (loop f i j < j → f (loop f i j) = true) := by
  fun_induction loop f i j with
  | case1 i j hlt h hf ih =>
    obtain ⟨hlow, hhigh, hbefore, hat⟩ := ih (by omega)
    refine ⟨hlow, by omega, hbefore, fun _ => ?_⟩
    -- The result is the last index that was found true, or lies below it.
    rcases Nat.lt_or_eq_of_le hhigh with hless | heq
    · exact hat hless
    · rw [heq]
      exact hf
  | case2 i j hlt h hf ih =>
    obtain ⟨hlow, hhigh, hbefore, hat⟩ := ih (by omega)
    refine ⟨by omega, hhigh, fun _ => ?_, hat⟩
    rcases Nat.lt_or_eq_of_le hlow with hless | heq
    · exact hbefore hless
    · rw [← heq, Nat.add_sub_cancel]
      exact Bool.eq_false_iff.2 hf
  | case3 i j hlt => exact ⟨Nat.le_refl i, hij, fun h => by omega, fun h => by omega⟩

theorem search_spec (n : ℕ) (f : ℕ → Bool) :
    search n f ≤ n ∧ (0 < search n f → f (search n f - 1) = false) ∧
      (search n f < n → f (search n f) = true) :=
  (loop_spec f (Nat.zero_le n)).2

theorem loop_separates (f g : ℕ → Bool) {i j : ℕ} (hij : i ≤ j)
    (h : loop f i j < loop g i j) : ∃ k, f k = true ∧ g k = false := by
  fun_induction loop f i j with
  | case1 i j hlt k hf ih =>
    cases hg : g k with
    | true => exact ih (by omega) (loop_left hlt hg ▸ h)
    | false => exact ⟨k, hf, hg⟩
  | case2 i j hlt k hf ih =>
    cases hg : g k with
    | true =>
      -- The first search goes right and the second left.
      have hleft : loop g i j = loop g i k := loop_left hlt hg
      have hlow : k + 1 ≤ loop f (k + 1) j := (loop_spec f (by omega)).1
      have hhigh : loop g i k ≤ k := (loop_spec g (by omega)).2.1
      omega
    | false => exact ih (by omega) (loop_right hlt hg ▸ h)
  | case3 i j hlt =>
    rw [loop, if_neg hlt] at h
    omega

theorem search_separates {n : ℕ} {f g : ℕ → Bool} (h : search n f < search n g) :
    ∃ k, f k = true ∧ g k = false :=
  loop_separates f g (Nat.zero_le n) h

end Search
