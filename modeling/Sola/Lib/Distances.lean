import Mathlib.Data.List.Basic
import Mathlib.Data.Nat.Log
import Mathlib.Tactic.Ring

/-!
Distances of the form `d * m ^ i` with `1 ≤ d < m`.

They are the numbers with a single non-zero digit in base `m`.  Every
positive number has a largest such distance below it, its leading digit, and
what is left over is smaller than the gap to the next distance.
-/

namespace Sola.Lib.Distances

open List Nat

/-- `δ` has exactly one non-zero digit in base `m`. -/
def IsDist (m δ : ℕ) : Prop := ∃ d i, 0 < d ∧ d < m ∧ δ = d * m ^ i

variable {m δ : ℕ} {l : List ℕ} {P : ℕ → Bool}

theorem IsDist.pos (hm : 0 < m) (h : IsDist m δ) : 0 < δ := by
  obtain ⟨d, i, hd, -, rfl⟩ := h
  exact Nat.mul_pos hd (Nat.pow_pos hm)

theorem isDist_of_le (hm : 2 ≤ m) (hpos : 0 < δ) (hle : δ ≤ m) : IsDist m δ := by
  rcases Nat.lt_or_ge δ m with hlt | hge
  · exact ⟨δ, 0, hpos, hlt, by simp⟩
  · exact ⟨1, 1, by omega, by omega, by rw [pow_one]; omega⟩

theorem isDist_one (hm : 2 ≤ m) : IsDist m 1 := isDist_of_le hm Nat.one_pos (by omega)

/-- Without their last digits, numbers at a distance are equal or at a
distance again. -/
theorem IsDist.div {x y : ℕ} (hm : 2 ≤ m) (h : IsDist m δ) (hxy : x + δ = y) :
    x / m = y / m ∨ x / m < y / m ∧ IsDist m (y / m - x / m) := by
  obtain ⟨d, i, hd, hdm, rfl⟩ := h
  cases i with
  | zero =>
    -- a carry of at most one
    rw [pow_zero, mul_one] at hxy
    have hle : x / m ≤ y / m := Nat.div_le_div_right (by omega)
    have hcarry : y / m ≤ x / m + 1 := by
      rw [← add_div_right x (by omega)]
      exact Nat.div_le_div_right (by omega)
    rcases hle.eq_or_lt with heq | hlt
    · exact Or.inl heq
    · exact Or.inr ⟨hlt, isDist_of_le hm (by omega) (by omega)⟩
  | succ i =>
    have hdiv : y / m = x / m + d * m ^ i := by
      rw [← hxy, pow_succ, ← Nat.mul_assoc, add_mul_div_right _ _ (by omega)]
    have hpos : 0 < d * m ^ i := Nat.mul_pos hd (Nat.pow_pos (by omega))
    exact Or.inr ⟨by omega, d, i, hd, hdm, by omega⟩

/-- The exponent of a distance that fits below `m ^ l` is below `l`. -/
theorem exponent_lt {d i l : ℕ} (hm : 2 ≤ m) (hd : 0 < d) (h : d * m ^ i < m ^ l) : i < l := by
  by_contra hle
  have h1 : m ^ l ≤ m ^ i := Nat.pow_le_pow_right (by omega) (by omega)
  have h2 : 1 * m ^ i ≤ d * m ^ i := Nat.mul_le_mul_right _ hd
  omega

/-- The distances with exponents below `n`, in ascending order. -/
def distances (m n : ℕ) : List ℕ :=
  (List.range n).flatMap fun i => (List.range (m - 1)).map fun d => (d + 1) * m ^ i

theorem mem_distances {n : ℕ} :
    δ ∈ distances m n ↔ ∃ d i, i < n ∧ 0 < d ∧ d < m ∧ δ = d * m ^ i := by
  simp only [distances, mem_flatMap, mem_range, mem_map]
  constructor
  · rintro ⟨i, hi, d, hd, rfl⟩
    exact ⟨d + 1, i, hi, by omega, by omega, rfl⟩
  · rintro ⟨d, i, hi, hd, hdm, rfl⟩
    exact ⟨i, hi, d - 1, by omega, by rw [Nat.sub_add_cancel hd]⟩

theorem distances_pairwise (hm : 2 ≤ m) (n : ℕ) : (distances m n).Pairwise (· < ·) := by
  unfold distances
  rw [pairwise_flatMap]
  constructor
  · intro i _
    rw [pairwise_map]
    refine pairwise_lt_range.imp fun {a b} hab => ?_
    exact Nat.mul_lt_mul_of_pos_right (by omega) (Nat.pow_pos (by omega))
  · refine pairwise_lt_range.imp fun {i j} hij x hx y hy => ?_
    simp only [mem_map, mem_range] at hx hy
    obtain ⟨d, hd, rfl⟩ := hx
    obtain ⟨e, -, rfl⟩ := hy
    calc (d + 1) * m ^ i < m * m ^ i :=
          Nat.mul_lt_mul_of_pos_right (by omega) (Nat.pow_pos (by omega))
      _ = m ^ (i + 1) := (pow_succ' m i).symm
      _ ≤ m ^ j := Nat.pow_le_pow_right (by omega) hij
      _ ≤ (e + 1) * m ^ j := Nat.le_mul_of_pos_left _ (by omega)

/-- In an ascending list a loop that breaks at the first element failing a
downward closed test keeps exactly the elements that pass it. -/
theorem mem_takeWhile_of_pairwise (hl : l.Pairwise (· < ·))
    (hP : ∀ a b, a < b → P b = true → P a = true) {x : ℕ} :
    x ∈ l.takeWhile P ↔ x ∈ l ∧ P x = true := by
  induction l with
  | nil => simp
  | cons a l ih =>
    rw [pairwise_cons] at hl
    by_cases ha : P a = true
    · rw [takeWhile_cons_of_pos ha, mem_cons, mem_cons, ih hl.2]
      constructor
      · rintro (rfl | ⟨hx, hPx⟩)
        · exact ⟨Or.inl rfl, ha⟩
        · exact ⟨Or.inr hx, hPx⟩
      · rintro ⟨rfl | hx, hPx⟩
        · exact Or.inl rfl
        · exact Or.inr ⟨hx, hPx⟩
    · rw [takeWhile_cons_of_neg ha]
      simp only [not_mem_nil, mem_cons, false_iff, not_and]
      rintro (rfl | hx) hPx
      · exact ha hPx
      · exact ha (hP a x (hl.1 x hx) hPx)

theorem pairwise_takeWhile (hl : l.Pairwise (· < ·)) : (l.takeWhile P).Pairwise (· < ·) :=
  hl.sublist (takeWhile_sublist P)

/-! ### Taking away the leading digit -/

/-- `x` has fewer digits than `n`. -/
def Shorter (m x n : ℕ) : Prop := ∀ k, n < m ^ (k + 1) → x < m ^ k

/-- The largest distance up to `n` is its leading digit: what is left has fewer digits. -/
theorem sub_shorter {n : ℕ} (hm : 2 ≤ m) (hn : 0 < n) (hmax : ∀ δ', IsDist m δ' → δ' ≤ n → δ' ≤ δ) :
    Shorter m (n - δ) n := by
  intro k hk
  have hpow : 0 < m ^ log m n := Nat.pow_pos (by omega)
  have hle : m ^ log m n ≤ n := pow_log_le_self m (by omega)
  have hlead : n / m ^ log m n * m ^ log m n ≤ δ := by
    refine hmax _ ⟨_, _, Nat.div_pos hle hpow, ?_, rfl⟩ (div_mul_le_self _ _)
    rw [Nat.div_lt_iff_lt_mul hpow, ← pow_succ']
    exact lt_pow_succ_log_self (by omega) n
  have hrest : n % m ^ log m n < m ^ log m n := mod_lt _ hpow
  have hsum := div_add_mod' n (m ^ log m n)
  have hlog : log m n ≤ k := Nat.lt_succ_iff.mp (log_lt_of_lt_pow (by omega) hk)
  have hmono : m ^ log m n ≤ m ^ k := Nat.pow_le_pow_right (by omega) hlog
  omega

end Sola.Lib.Distances
