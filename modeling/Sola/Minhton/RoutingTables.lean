import Sola.Minhton.RoutingCalculations

/-!
Routing tables and overflows (`minhton/src/core/routing_calculations.cpp`).

A number that has wrapped around is noticed by being smaller than the number it
was calculated from.  This is reliable for sums of two 32 bit numbers, but not
for products, and not for distances that have been reduced to 32 bits before.
-/

namespace Sola.Minhton

open Sola.Lib Sola.Lib.MaryTree Sola.Lib.Distances List Nat

/-- The positions to the left of `p` on its level at the distances `d * m ^ i`,
from the nearest to the farthest. -/
structure IsLeftTable (m : ℕ) (p : Pos) (table : List Pos) : Prop where
  mem_iff : ∀ q, q ∈ table ↔
    q.level = p.level ∧ ∃ d i, 1 ≤ d ∧ d < m ∧ q.number + d * m ^ i = p.number
  ordered : table.Pairwise fun q r => r.number < q.number

/-- The positions to the right of `p` on its level at the distances `d * m ^ i`,
from the nearest to the farthest. -/
structure IsRightTable (m : ℕ) (p : Pos) (table : List Pos) : Prop where
  mem_iff : ∀ q, q ∈ table ↔ q.level = p.level ∧ q.number < m ^ p.level ∧
    ∃ d i, 1 ≤ d ∧ d < m ∧ q.number = p.number + d * m ^ i
  ordered : table.Pairwise fun q r => q.number < r.number

variable {m : ℕ} {p : Pos} {inside : List ℕ}

/-- Ascending distances that are those which stay on the level. -/
theorem isRightTable_map {seq : List ℕ} (hsorted : seq.Pairwise (· < ·))
    (hmem : ∀ δ, δ ∈ seq ↔ IsDist m δ ∧ p.number + δ < m ^ p.level) :
    IsRightTable m p (seq.map fun i => ⟨p.level, p.number + i⟩) := by
  refine ⟨fun q => ?_, ?_⟩
  · rw [mem_map]
    constructor
    · rintro ⟨δ, hδ, rfl⟩
      obtain ⟨⟨d, i, hd, hdm, rfl⟩, hlt⟩ := (hmem δ).mp hδ
      exact ⟨rfl, hlt, d, i, hd, hdm, rfl⟩
    · rintro ⟨hlevel, hlt, d, i, hd, hdm, hnumber⟩
      refine ⟨d * m ^ i, (hmem _).mpr ⟨⟨d, i, hd, hdm, rfl⟩, by omega⟩, ?_⟩
      exact Pos.ext_iff'.mpr ⟨hlevel.symm, hnumber.symm⟩
  · rw [pairwise_map]
    exact hsorted.imp fun h => Nat.add_lt_add_left h _

section Size

variable {m : ℕ} (hm : isFanoutValid m = true) {p : Pos} (hp : p.Valid m)
  (hsize : m ^ p.level ≤ 2 ^ 31)
include hm hp hsize

theorem exists_leftTable : ∃ table, calcLeftRT m p = .ok table ∧ IsLeftTable m p table := by
  have hm0 : 0 < m := by
    have := isFanoutValid_iff.mp hm
    omega
  have hmem := fun δ => mem_leftDistances_of_size (δ := δ) hm hsize hp
  refine ⟨_, calcLeftRT_eq hm hp, fun q => ?_, ?_⟩
  · rw [mem_map]
    constructor
    · rintro ⟨δ, hδ, rfl⟩
      obtain ⟨⟨d, i, hd, hdm, rfl⟩, hle⟩ := (hmem δ).mp hδ
      exact ⟨rfl, d, i, hd, hdm, Nat.sub_add_cancel hle⟩
    · rintro ⟨hlevel, d, i, hd, hdm, hnumber⟩
      refine ⟨d * m ^ i, (hmem _).mpr ⟨⟨d, i, hd, hdm, rfl⟩, by omega⟩, ?_⟩
      exact Pos.ext_iff'.mpr ⟨hlevel.symm, by show p.number - d * m ^ i = q.number; omega⟩
  · rw [pairwise_map]
    refine (leftDistances_pairwise hm hsize hp).imp_of_mem fun {a b} _ hb hab => ?_
    have hle := ((hmem b).mp hb).2
    show p.number - b < p.number - a
    omega

theorem exists_rightTable : ∃ table, calcRightRT m p = .ok table ∧ IsRightTable m p table :=
  ⟨_, calcRightRT_eq_of_size hm hsize hp,
    isRightTable_map (rightDistances_pairwise hm hsize) fun _ =>
      mem_rightDistances_of_size hm hsize⟩

end Size

/-! ### Overflows of children -/

/-- The children are calculated exactly if their numbers fit into 32 bits, and
otherwise an exception is thrown. -/
def ChildOverflowReported (m : ℕ) (p : Pos) : Prop :=
  ((∀ i < m, p.number * m + i < 2 ^ 32) → calcChildren m p = .ok (childPositions m p)) ∧
    ((∃ i < m, 2 ^ 32 ≤ p.number * m + i) → ∃ e, calcChildren m p = .error e)

/-- The product overflows, but what is left of it is not smaller than the
number, and the children are not split by the end of the 32 bit numbers. -/
def ChildOverflowHidden (m : ℕ) (p : Pos) : Prop :=
  2 ^ 32 ≤ p.number * m ∧ p.number ≤ p.number * m % 2 ^ 32 ∧
    p.number * m % 2 ^ 32 + m ≤ 2 ^ 32

theorem calcChild_ok_iff {i : ℕ} :
    (∃ q, calcChild m p i = .ok q) ↔ p.number ≤ (p.number * m + i) % 2 ^ 32 := by
  have hmod : u32 (u32 (p.number * m) + i) = (p.number * m + i) % 2 ^ 32 :=
    mod_add_mod _ _ _
  unfold calcChild
  simp only [hmod]
  split_ifs with h
  · exact iff_of_false (by simp) (by omega)
  · exact iff_of_true ⟨_, rfl⟩ (by omega)

theorem calcChildren_error_iff (hm : isFanoutValid m = true) (hp : p.Valid m)
    (hl : p.level < 2 ^ 32 - 1) :
    (∃ e, calcChildren m p = .error e) ↔ ∃ i < m, (p.number * m + i) % 2 ^ 32 < p.number := by
  have hne : p.level ≠ 2 ^ 32 - 1 := by omega
  have hok : (∃ qs, calcChildren m p = .ok qs) ↔
      ∀ i < m, p.number ≤ (p.number * m + i) % 2 ^ 32 := by
    unfold calcChildren
    simp only [(isPositionValid_iff hm).mpr hp, Bool.not_true, Bool.false_eq_true, if_false, hne]
    rw [mapM_ok_iff]
    simp only [mem_range, calcChild_ok_iff]
  cases hc : calcChildren m p with
  | ok qs =>
    have h := hok.mp ⟨qs, hc⟩
    simp only [reduceCtorEq, exists_false, false_iff, not_exists, not_and, not_lt]
    exact h
  | error e =>
    refine iff_of_true ⟨e, rfl⟩ ?_
    by_contra hnot
    obtain ⟨qs, hqs⟩ := hok.mpr fun i hi => le_of_not_gt fun hlt => hnot ⟨i, hi, hlt⟩
    rw [hc] at hqs
    cases hqs

theorem childOverflowReported_iff (hm : isFanoutValid m = true) (hp : p.Valid m)
    (hl : p.level < 2 ^ 32 - 1) : ChildOverflowReported m p ↔ ¬ ChildOverflowHidden m p := by
  have hm2 := isFanoutValid_iff.mp hm
  have hsplit := div_add_mod (p.number * m) (2 ^ 32)
  have hrest : p.number * m % 2 ^ 32 < 2 ^ 32 := mod_lt _ (by omega)
  -- the numbers of the children modulo `2 ^ 32`
  have hmod : ∀ i, p.number * m % 2 ^ 32 + i < 2 ^ 32 →
      (p.number * m + i) % 2 ^ 32 = p.number * m % 2 ^ 32 + i := by
    intro i hi
    rw [← mod_add_mod, mod_eq_of_lt hi]
  rw [ChildOverflowReported, calcChildren_error_iff hm hp hl]
  constructor
  · rintro ⟨-, hreport⟩ ⟨hover, hge, hfit⟩
    obtain ⟨i, hi, hlt⟩ := hreport ⟨0, by omega, by omega⟩
    rw [hmod i (by omega)] at hlt
    omega
  · intro hhidden
    refine ⟨fun hfit => ?_, ?_⟩
    · refine calcChildren_eq hm hp hl ?_
      have hlast := hfit (m - 1) (by omega)
      rw [Nat.add_mul, Nat.one_mul]
      omega
    · rintro ⟨i, hi, hover⟩
      have hpos : 0 < p.number := by
        by_contra h0
        have hzero : p.number = 0 := by omega
        rw [hzero, Nat.zero_mul] at hover
        omega
      rcases Nat.lt_or_ge (2 ^ 32) (p.number * m % 2 ^ 32 + m) with hwrap | hfit
      · -- one of the children has the number 0
        refine ⟨2 ^ 32 - p.number * m % 2 ^ 32, by omega, ?_⟩
        rw [← mod_add_mod, Nat.add_sub_cancel' hrest.le, mod_self]
        exact hpos
      · refine ⟨0, by omega, ?_⟩
        rw [hmod 0 (by omega)]
        by_contra hge
        refine hhidden ⟨?_, by omega, hfit⟩
        by_contra hsmall
        have hself : p.number * m % 2 ^ 32 = p.number * m := mod_eq_of_lt (by omega)
        omega

/-! ### Overflows of right neighbors -/

/-- No position of the right routing table is beyond 32 bits. -/
def RightFits (m : ℕ) (p : Pos) : Prop :=
  ∀ d i, 1 ≤ d → d < m → p.number + d * m ^ i < m ^ p.level → p.number + d * m ^ i < 2 ^ 32

/-- The right routing table is calculated exactly if its numbers fit into 32
bits, and otherwise an exception is thrown. -/
def RightOverflowReported (m : ℕ) (p : Pos) : Prop :=
  (RightFits m p → ∃ table, calcRightRT m p = .ok table ∧ IsRightTable m p table) ∧
    (¬ RightFits m p → ∃ e, calcRightRT m p = .error e)

/-- The first distance of the routing sequence that leaves the level or the 32
bit numbers. -/
structure FirstOut (m : ℕ) (p : Pos) (δ : ℕ) : Prop where
  mem : δ ∈ distances m ((m - 1) * p.level)
  out : min (m ^ p.level) (2 ^ 32) ≤ p.number + δ
  first : ∀ δ' ∈ distances m ((m - 1) * p.level), δ' < δ →
    p.number + δ' < min (m ^ p.level) (2 ^ 32)

/-- The loop bounds fit into their types, and the first distance that goes too
far either leaves the level within 32 bits, or is itself a 32 bit number that
does not leave the level. -/
structure RightOverflowVisible (m : ℕ) (p : Pos) : Prop where
  rounds : (m - 1) * p.level < 2 ^ 32
  size : m ^ p.level < 2 ^ 64
  firstOut : ∀ δ, FirstOut m p δ →
    p.number + δ < 2 ^ 32 ∨ δ < 2 ^ 32 ∧ p.number + δ < m ^ p.level

/-- The loop collects the distances that stay on the level and in 32 bits. -/
theorem rightRTLoop_append {maxNumber : ℕ} (rest : List ℕ)
    (hinside : ∀ i ∈ inside, p.number + i < min maxNumber (2 ^ 32)) :
    rightRTLoop p maxNumber (inside ++ rest) =
      (rightRTLoop p maxNumber rest).map
        (inside.map (fun i => (⟨p.level, p.number + i⟩ : Pos)) ++ ·) := by
  induction inside with
  | nil =>
    cases h : rightRTLoop p maxNumber rest with
    | error e => simp [h, Except.map]
    | ok ps => simp [h, Except.map]
  | cons i inside ih =>
    have hi := hinside i (by simp)
    have hk : u32 (p.number + i) = p.number + i := mod_eq_of_lt (by omega)
    rw [cons_append, rightRTLoop, hk, if_neg (by omega), if_neg (by omega),
      ih fun j hj => hinside j (by simp [hj])]
    cases rightRTLoop p maxNumber rest with
    | error e => rfl
    | ok ps => rfl

theorem calcRightRT_eq_loop (hm : isFanoutValid m = true) (hp : p.Valid m)
    (hrounds : (m - 1) * p.level < 2 ^ 32) (hsize : m ^ p.level < 2 ^ 64) :
    calcRightRT m p = rightRTLoop p (m ^ p.level) (distances m ((m - 1) * p.level)) := by
  have h32 : u32 ((m - 1) * p.level) = (m - 1) * p.level := mod_eq_of_lt hrounds
  have h64 : u64 (m ^ p.level) = m ^ p.level := mod_eq_of_lt hsize
  unfold calcRightRT calcRoutingSequence
  simp only [(isPositionValid_iff hm).mpr hp, hm, Bool.not_true, Bool.false_eq_true, if_false,
    bind, Except.bind]
  rw [routingSequence_eq, h32, rightRTLoop_map_u32, h64]

/-- A loop over a list runs to its end or stops at a first element. -/
theorem forall_or_exists_first (P : ℕ → Prop) [DecidablePred P] (l : List ℕ) :
    (∀ x ∈ l, P x) ∨ ∃ before x after, l = before ++ x :: after ∧ (∀ y ∈ before, P y) ∧ ¬ P x := by
  induction l with
  | nil => exact Or.inl (by simp)
  | cons a l ih =>
    by_cases ha : P a
    · rcases ih with h | ⟨before, x, after, rfl, hbefore, hx⟩
      · exact Or.inl (by simpa [ha] using h)
      · exact Or.inr ⟨a :: before, x, after, rfl, by simpa [ha] using hbefore, hx⟩
    · exact Or.inr ⟨[], a, l, rfl, by simp, ha⟩

/-- A table of all positions that stay on the level and in 32 bits. -/
theorem rightOverflowReported_of_ok
    (hok : calcRightRT m p = .ok (inside.map fun i => ⟨p.level, p.number + i⟩))
    (hsorted : inside.Pairwise (· < ·))
    (hmem : ∀ δ, δ ∈ inside ↔ IsDist m δ ∧ p.number + δ < m ^ p.level)
    (hinside : ∀ δ ∈ inside, p.number + δ < min (m ^ p.level) (2 ^ 32)) :
    RightOverflowReported m p := by
  have hfits : RightFits m p := by
    intro d i hd hdm hlt
    have h := hinside _ ((hmem _).mpr ⟨⟨d, i, hd, hdm, rfl⟩, hlt⟩)
    omega
  exact ⟨fun _ => ⟨_, hok, isRightTable_map hsorted hmem⟩, fun hnot => absurd hfits hnot⟩

theorem isDist_of_mem {n δ : ℕ} (h : δ ∈ distances m n) : IsDist m δ := by
  obtain ⟨d, i, -, hd, hdm, rfl⟩ := mem_distances.mp h
  exact ⟨d, i, hd, hdm, rfl⟩

theorem rightOverflowReported (hm : isFanoutValid m = true) (hp : p.Valid m)
    (hn : p.number < 2 ^ 32) (hvisible : RightOverflowVisible m p) : RightOverflowReported m p := by
  have hm2 := isFanoutValid_iff.mp hm
  have hp' : p.number < m ^ p.level := hp
  have hsorted := distances_pairwise hm2.1 ((m - 1) * p.level)
  have hloop := calcRightRT_eq_loop hm hp hvisible.rounds hvisible.size
  have hdist : ∀ δ, IsDist m δ → p.number + δ < m ^ p.level →
      δ ∈ distances m ((m - 1) * p.level) := fun δ hδ hlt =>
    (mem_distances_of_lt hm (by omega)).mpr hδ
  rcases forall_or_exists_first (fun δ => p.number + δ < min (m ^ p.level) (2 ^ 32))
    (distances m ((m - 1) * p.level)) with hall | ⟨inside, δ, rest, hsplit, hinside, hout⟩
  · -- nothing goes too far
    have hok := hloop
    rw [← append_nil (distances m ((m - 1) * p.level)), rightRTLoop_append [] hall] at hok
    simp only [rightRTLoop, Except.map, append_nil] at hok
    refine rightOverflowReported_of_ok hok hsorted (fun δ => ⟨fun h => ?_, fun h => ?_⟩) hall
    · have := hall δ h
      exact ⟨isDist_of_mem h, by omega⟩
    · exact hdist δ h.1 h.2
  · have hmem : ∀ δ' ∈ inside, δ' ∈ distances m ((m - 1) * p.level) := by
      intro δ' h
      rw [hsplit]
      simp [h]
    have hδ : δ ∈ distances m ((m - 1) * p.level) := by
      rw [hsplit]
      simp
    rw [hsplit, rightRTLoop_append _ hinside] at hloop
    have hsorted' := hsplit ▸ hsorted
    rw [pairwise_append, pairwise_cons] at hsorted'
    -- a smaller distance of the sequence is one of those before
    have hbefore : ∀ δ' ∈ distances m ((m - 1) * p.level), δ' < δ → δ' ∈ inside := by
      intro δ' h hlt
      rw [hsplit, mem_append, mem_cons] at h
      rcases h with h | rfl | h
      · exact h
      · omega
      · have := hsorted'.2.1.1 δ' h
        omega
    have hfirst : FirstOut m p δ :=
      ⟨hδ, by omega, fun δ' h hlt => hinside δ' (hbefore δ' h hlt)⟩
    rcases hvisible.firstOut δ hfirst with hsmall | ⟨h32, hlevel⟩
    · -- the level is left within 32 bits
      have hge : m ^ p.level ≤ p.number + δ := by omega
      have hk : u32 (p.number + δ) = p.number + δ := mod_eq_of_lt hsmall
      rw [rightRTLoop, hk, if_pos hge] at hloop
      simp only [Except.map, append_nil] at hloop
      refine rightOverflowReported_of_ok hloop hsorted'.1
        (fun δ' => ⟨fun h => ?_, fun h => ?_⟩) hinside
      · have := hinside δ' h
        exact ⟨isDist_of_mem (hmem δ' h), by omega⟩
      · exact hbefore δ' (hdist δ' h.1 h.2) (by omega)
    · -- the sum wraps around, and that is noticed
      have hover : 2 ^ 32 ≤ p.number + δ := by omega
      have hk : u32 (p.number + δ) = p.number + δ - 2 ^ 32 := by
        rw [u32, mod_eq_sub_mod hover, mod_eq_of_lt (by omega)]
      rw [rightRTLoop, hk, if_neg (by omega), if_pos (by omega)] at hloop
      refine ⟨fun hfits => ?_, fun _ => ⟨_, hloop⟩⟩
      obtain ⟨d, i, hd, hdm, rfl⟩ := isDist_of_mem hδ
      have := hfits d i hd hdm hlevel
      omega

/-- The values that `calcRoutingSequence` converts to `uint32_t`. -/
def convertedDistances (m level : ℕ) : List ℕ := distances m (u32 ((m - 1) * level))

/-- The distances are in the range of their type and ascend as long as the one of the last
round is in range.  There are `m - 1` rounds for each level, so this is a matter of the fanout
more than of the level. -/
theorem distances_inRange_iff {m L : ℕ} (hm : isFanoutValid m = true) (hL : m ^ L ≤ 2 ^ 32) :
    ((∀ x ∈ convertedDistances m L, x < 2 ^ 32) ∧
        ∃ seq, calcRoutingSequence m L = .ok seq ∧ seq.Pairwise (· < ·)) ↔
      L = 0 ∨ (m - 1) * m ^ ((m - 1) * L - 1) < 2 ^ 32 := by
  have hm2 := isFanoutValid_iff.mp hm
  have hlevel : L ≤ 32 :=
    (Nat.pow_le_pow_iff_right (by omega)).mp ((Nat.pow_le_pow_left hm2.1 L).trans hL)
  have hrounds : u32 ((m - 1) * L) = (m - 1) * L := by
    have := Nat.mul_le_mul (by omega : m - 1 ≤ 254) hlevel
    exact mod_eq_of_lt (by omega)
  rw [calcRoutingSequence, hm, routingSequence_eq, convertedDistances, hrounds]
  constructor
  · rintro ⟨hrange, -⟩
    by_cases h0 : L = 0
    · exact Or.inl h0
    · have hpos : 0 < (m - 1) * L := Nat.mul_pos (by omega) (by omega)
      exact Or.inr (hrange _ (mem_distances.mpr
        ⟨m - 1, (m - 1) * L - 1, by omega, by omega, by omega, rfl⟩))
  · intro hlast
    have hrange : ∀ x ∈ distances m ((m - 1) * L), x < 2 ^ 32 := by
      intro x hx
      obtain ⟨d, i, hi, hd, hdm, rfl⟩ := mem_distances.mp hx
      rcases hlast with rfl | hlast
      · omega
      · calc d * m ^ i ≤ (m - 1) * m ^ ((m - 1) * L - 1) :=
              Nat.mul_le_mul (by omega) (Nat.pow_le_pow_right (by omega) (by omega))
          _ < 2 ^ 32 := hlast
    have hsame : ∀ x ∈ distances m ((m - 1) * L), u32 x = x :=
      fun x hx => mod_eq_of_lt (hrange x hx)
    refine ⟨hrange, (distances m ((m - 1) * L)).map u32, rfl, ?_⟩
    rw [map_congr_left hsame, map_id']
    exact distances_pairwise hm2.1 _

theorem distances_inRange_binary :
    (∀ x ∈ convertedDistances 2 32, x < 2 ^ 32) ∧
      ∃ seq, calcRoutingSequence 2 32 = .ok seq ∧ seq.Pairwise (· < ·) :=
  (distances_inRange_iff (by decide) (by decide)).mpr (Or.inr (by decide))

/-- With seven children the second level is enough for a distance that is too large. -/
theorem distances_outOfRange :
    isFanoutValid 7 = true ∧ 7 ^ 2 ≤ 2 ^ 32 ∧ 6 * 7 ^ 11 ∈ convertedDistances 7 2 ∧
      2 ^ 32 ≤ 6 * 7 ^ 11 ∧ ¬ (routingSequence 7 2).Pairwise (· < ·) := by
  decide +kernel

end Sola.Minhton
