import Mathlib.Data.Prod.Lex
import Mathlib.Order.Interval.Finset.Nat
import Sola.Minhton.RoutingInformation
import Sola.Minhton.RoutingTables

/-!
The routing tables that natter calculates on its own
(`natter/src/utils/tree_helper.cpp`).

For every digit `d` a loop goes through the distances `d * fanout ^ j` until
they leave the level.  The sets are those of MINHTON, which goes through the
powers first and through the digits of each of them.
-/

namespace Sola.Natter

open Sola.Lib.MaryTree Sola.Lib.Distances Sola.Minhton List

/-- Level, number and fanout. -/
abbrev LevelNumber := ℕ ×ₗ ℕ ×ₗ ℕ

def levelNumber (level number fanout : ℕ) : LevelNumber := toLex (level, toLex (number, fanout))

/-- How often the while loops are passed at most.  A digit is at least 1 and a
fanout with digits at least 2, so no 32 bit number is as large as the distance
in round 32. -/
def rounds : ℕ := 33

/-- The rounds of a while loop whose condition is `continues`. -/
def whileRounds (continues : ℕ → Bool) : List ℕ := (List.range rounds).takeWhile continues

def calculateRRT (level number fanout : ℕ) : Finset LevelNumber :=
  let maxNumberOnLevel := u32 (fanout ^ level)
  (Finset.Ico 1 fanout).biUnion fun d =>
    ((whileRounds fun j => number + d * fanout ^ j < maxNumberOnLevel).map fun j =>
      levelNumber level (u32 (number + d * fanout ^ j)) fanout).toFinset

def calculateLRT (level number fanout : ℕ) : Finset LevelNumber :=
  (Finset.Ico 1 fanout).biUnion fun d =>
    ((whileRounds fun j => d * fanout ^ j ≤ number).map fun j =>
      levelNumber level (u32 (number - d * fanout ^ j)) fanout).toFinset

/-- A loop over growing distances that goes on below `2 ^ 32` only ends in time,
so it is passed as long as its condition holds. -/
theorem mem_whileRounds {d fanout : ℕ} (hd : 1 ≤ d) (hdm : d < fanout) {continues : ℕ → Bool}
    (hmono : ∀ a b, d * fanout ^ a ≤ d * fanout ^ b → continues b = true → continues a = true)
    (hbound : ∀ j, continues j = true → d * fanout ^ j < 2 ^ 32) {j : ℕ} :
    j ∈ whileRounds continues ↔ continues j = true := by
  unfold whileRounds
  rw [mem_takeWhile_of_pairwise pairwise_lt_range (fun a b hab => hmono a b ?_),
    mem_range]
  · refine and_iff_right_of_imp fun h => ?_
    by_contra hj
    have hlarge : 2 ^ 32 ≤ d * fanout ^ j :=
      calc 2 ^ 32 ≤ 2 ^ j := Nat.pow_le_pow_right (by omega) (by unfold rounds at hj; omega)
        _ ≤ fanout ^ j := Nat.pow_le_pow_left (by omega) j
        _ ≤ d * fanout ^ j := Nat.le_mul_of_pos_left _ hd
    have hsmall := hbound j h
    omega
  · exact Nat.mul_le_mul_left d (Nat.pow_le_pow_right (by omega) hab.le)

/-- What a number of the right routing table looks like. -/
theorem mem_calculateRRT {level number fanout : ℕ} (hsize : fanout ^ level ≤ 2 ^ 31)
    {x : LevelNumber} :
    x ∈ calculateRRT level number fanout ↔ ∃ d j, (1 ≤ d ∧ d < fanout) ∧
      number + d * fanout ^ j < fanout ^ level ∧
        x = levelNumber level (number + d * fanout ^ j) fanout := by
  have hmax : u32 (fanout ^ level) = fanout ^ level := Nat.mod_eq_of_lt (by omega)
  have hround : ∀ d j, 1 ≤ d ∧ d < fanout →
      (j ∈ whileRounds (fun j => number + d * fanout ^ j < fanout ^ level) ↔
        number + d * fanout ^ j < fanout ^ level) := by
    intro d j hd
    rw [mem_whileRounds hd.1 hd.2]
    · simp
    · intro a b hab hb
      simp only [decide_eq_true_eq] at hb ⊢
      omega
    · intro j hj
      simp only [decide_eq_true_eq] at hj
      omega
  simp only [calculateRRT, hmax, Finset.mem_biUnion, Finset.mem_Ico, mem_toFinset,
    mem_map]
  constructor
  · rintro ⟨d, hd, j, hj, rfl⟩
    have hlt := (hround d j hd).mp hj
    have h32 : u32 (number + d * fanout ^ j) = number + d * fanout ^ j :=
      Nat.mod_eq_of_lt (by omega)
    exact ⟨d, j, hd, hlt, by rw [h32]⟩
  · rintro ⟨d, j, hd, hlt, rfl⟩
    have h32 : u32 (number + d * fanout ^ j) = number + d * fanout ^ j :=
      Nat.mod_eq_of_lt (by omega)
    exact ⟨d, hd, j, (hround d j hd).mpr hlt, by rw [h32]⟩

theorem mem_calculateLRT {level number fanout : ℕ} (hnumber : number < 2 ^ 32) {x : LevelNumber} :
    x ∈ calculateLRT level number fanout ↔ ∃ d j, (1 ≤ d ∧ d < fanout) ∧
      d * fanout ^ j ≤ number ∧ x = levelNumber level (number - d * fanout ^ j) fanout := by
  have hround : ∀ d j, 1 ≤ d ∧ d < fanout →
      (j ∈ whileRounds (fun j => d * fanout ^ j ≤ number) ↔ d * fanout ^ j ≤ number) := by
    intro d j hd
    rw [mem_whileRounds hd.1 hd.2]
    · simp
    · intro a b hab hb
      simp only [decide_eq_true_eq] at hb ⊢
      omega
    · intro j hj
      simp only [decide_eq_true_eq] at hj
      omega
  have h32 : ∀ δ, u32 (number - δ) = number - δ := fun δ => Nat.mod_eq_of_lt (by omega)
  simp only [calculateLRT, Finset.mem_biUnion, Finset.mem_Ico, mem_toFinset, mem_map,
    h32]
  constructor
  · rintro ⟨d, hd, j, hj, rfl⟩
    exact ⟨d, j, hd, (hround d j hd).mp hj, rfl⟩
  · rintro ⟨d, j, hd, hle, rfl⟩
    exact ⟨d, hd, j, (hround d j hd).mpr hle, rfl⟩

/-- The position of a tree with the given fanout, as natter writes it. -/
def ofPos (m : ℕ) (p : Pos) : LevelNumber := levelNumber p.level p.number m

section Agreement

variable {m : ℕ} {p : Pos} {table : List Pos}

theorem calculateLRT_eq (hnumber : p.number < 2 ^ 32) (h : IsLeftTable m p table) :
    calculateLRT p.level p.number m = (table.map (ofPos m)).toFinset := by
  ext x
  rw [mem_calculateLRT hnumber, mem_toFinset, mem_map]
  constructor
  · rintro ⟨d, j, ⟨hd, hdm⟩, hle, rfl⟩
    refine ⟨⟨p.level, p.number - d * m ^ j⟩, (h.mem_iff _).mpr ⟨rfl, d, j, hd, hdm, ?_⟩, rfl⟩
    exact Nat.sub_add_cancel hle
  · rintro ⟨q, hq, rfl⟩
    obtain ⟨hlevel, d, j, hd, hdm, hnum⟩ := (h.mem_iff q).mp hq
    refine ⟨d, j, ⟨hd, hdm⟩, by omega, ?_⟩
    rw [ofPos, hlevel, ← hnum, Nat.add_sub_cancel]

theorem calculateRRT_eq (hsize : m ^ p.level ≤ 2 ^ 31) (h : IsRightTable m p table) :
    calculateRRT p.level p.number m = (table.map (ofPos m)).toFinset := by
  ext x
  rw [mem_calculateRRT hsize, mem_toFinset, mem_map]
  constructor
  · rintro ⟨d, j, ⟨hd, hdm⟩, hlt, rfl⟩
    exact ⟨⟨p.level, p.number + d * m ^ j⟩, (h.mem_iff _).mpr ⟨rfl, hlt, d, j, hd, hdm, rfl⟩, rfl⟩
  · rintro ⟨q, hq, rfl⟩
    obtain ⟨hlevel, hlt, d, j, hd, hdm, hnum⟩ := (h.mem_iff q).mp hq
    exact ⟨d, j, ⟨hd, hdm⟩, by omega, by rw [ofPos, hlevel, hnum]⟩

end Agreement

/-- On a level with at most `2 ^ 31` positions the routing tables of MINHTON are
the positions at the distances `d * m ^ i`, and natter calculates the same. -/
theorem routingTables_agree {m : ℕ} (hm : isFanoutValid m = true) {p : Pos} (hp : p.Valid m)
    (hsize : m ^ p.level ≤ 2 ^ 31) :
    ∃ left right, calcLeftRT m p = .ok left ∧ calcRightRT m p = .ok right ∧
      IsLeftTable m p left ∧ IsRightTable m p right ∧
      calculateLRT p.level p.number m = (left.map (ofPos m)).toFinset ∧
      calculateRRT p.level p.number m = (right.map (ofPos m)).toFinset := by
  have hp' : p.number < m ^ p.level := hp
  obtain ⟨left, hleft, hleftTable⟩ := exists_leftTable hm hp hsize
  obtain ⟨right, hright, hrightTable⟩ := exists_rightTable hm hp hsize
  exact ⟨left, right, hleft, hright, hleftTable, hrightTable,
    calculateLRT_eq (by omega) hleftTable, calculateRRT_eq hsize hrightTable⟩

theorem routingTables_agree_level_nineteen :
    ∃ left right, calcLeftRT 3 ⟨19, 5⟩ = .ok left ∧ calcRightRT 3 ⟨19, 5⟩ = .ok right ∧
      IsLeftTable 3 ⟨19, 5⟩ left ∧ IsRightTable 3 ⟨19, 5⟩ right ∧
      calculateLRT 19 5 3 = (left.map (ofPos 3)).toFinset ∧
      calculateRRT 19 5 3 = (right.map (ofPos 3)).toFinset :=
  routingTables_agree (p := ⟨19, 5⟩) (by decide) (by decide) (by decide)

end Sola.Natter
