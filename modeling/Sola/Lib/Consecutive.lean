import Mathlib.Data.Nat.Find
import Mathlib.Order.Lattice

/-!
Intervals that follow each other without a gap.

The intervals `low i … high i`, for `i < n`, start at 0, each starts right
after the one before it, and the last one ends at `M`.  Every number up to
`M` is in exactly one of them.
-/

namespace Sola.Lib

/-- `n` consecutive intervals that fill `0 … M`. -/
structure Consecutive (n M : ℕ) (low high : ℕ → ℕ) : Prop where
  first : low 0 = 0
  next : ∀ i, i + 1 < n → low (i + 1) = high i + 1
  last : ∀ i, i + 1 = n → high i = M
  le : ∀ i, i < n → low i ≤ high i

namespace Consecutive

variable {n M : ℕ} {low high : ℕ → ℕ} (h : Consecutive n M low high)
include h

theorem high_lt_low {i j : ℕ} (hij : i < j) (hj : j < n) : high i < low j := by
  induction j, hij using Nat.le_induction with
  | base => rw [h.next i hj]; omega
  | succ j hij ih =>
    have hle := h.le j (by omega)
    have hlt := ih (by omega)
    rw [h.next j hj]
    omega

theorem index_unique {x i j : ℕ} (hi : i < n) (hxi : low i ≤ x ∧ x ≤ high i) (hj : j < n)
    (hxj : low j ≤ x ∧ x ≤ high j) : i = j := by
  rcases lt_trichotomy i j with hij | hij | hij
  · have := h.high_lt_low hij hj
    omega
  · exact hij
  · have := h.high_lt_low hij hi
    omega

theorem exists_index {x : ℕ} (hn : 0 < n) (hx : x ≤ M) :
    ∃ i, i < n ∧ low i ≤ x ∧ x ≤ high i := by
  -- the first interval that does not end before `x`
  have hex : ∃ i, i < n ∧ x ≤ high i :=
    ⟨n - 1, by omega, by rw [h.last (n - 1) (by omega)]; exact hx⟩
  obtain ⟨hlt, hhigh⟩ := Nat.find_spec hex
  refine ⟨Nat.find hex, hlt, ?_, hhigh⟩
  cases hi : Nat.find hex with
  | zero => rw [h.first]; omega
  | succ k =>
    have hmin : ¬ (k < n ∧ x ≤ high k) := Nat.find_min hex (by omega)
    rw [h.next k (by omega)]
    omega

end Consecutive

end Sola.Lib
