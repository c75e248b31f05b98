import Sola.Lib.InOrder
import Sola.Minhton.RoutingCalculations

/-!
The tree mapper and the order of positions
(`minhton/src/core/routing_calculations.cpp`, `logical_node_info.cpp`).

The value of a position is a point of the interval that its subtree owns, and
an in-order traversal meets the positions in the order of their values.  The
recursion keeps the level and the number of the parent in 16 bits, so a
position far to the right has the value of one further to the left.
-/

namespace Sola.Minhton

open Sola.Lib.MaryTree Nat

/-! ### The operators of `LogicalNodeInfo` -/

namespace LogicalNodeInfo

variable (m : ℕ)

/-- The operator `<`. -/
def less (p q : Pos) : Bool := horizontalValue m p < horizontalValue m q

/-- The operator `<=`. -/
def lessEqual (p q : Pos) : Bool := horizontalValue m p ≤ horizontalValue m q

/-- The operator `>`. -/
def greater (p q : Pos) : Bool := !lessEqual m p q

/-- The operator `>=`. -/
def greaterEqual (p q : Pos) : Bool := !less m p q

end LogicalNodeInfo

/-- The operators compare positions as a strict total order does. -/
structure StrictTotalOn (m : ℕ) (positions : Set Pos) : Prop where
  irrefl : ∀ p ∈ positions, LogicalNodeInfo.less m p p = false
  trans : ∀ p ∈ positions, ∀ q ∈ positions, ∀ r ∈ positions, LogicalNodeInfo.less m p q = true →
    LogicalNodeInfo.less m q r = true → LogicalNodeInfo.less m p r = true
  total : ∀ p ∈ positions, ∀ q ∈ positions, LogicalNodeInfo.less m p q = true ∨ p = q ∨
    LogicalNodeInfo.less m q p = true
  lessEqual_iff : ∀ p ∈ positions, ∀ q ∈ positions,
    LogicalNodeInfo.lessEqual m p q = true ↔ LogicalNodeInfo.less m p q = true ∨ p = q
  greater_iff : ∀ p ∈ positions, ∀ q ∈ positions,
    LogicalNodeInfo.greater m p q = LogicalNodeInfo.less m q p
  greaterEqual_iff : ∀ p ∈ positions, ∀ q ∈ positions,
    LogicalNodeInfo.greaterEqual m p q = LogicalNodeInfo.lessEqual m q p

/-- The tree mapper puts the positions into the order of the traversal. -/
structure InOrderOn (m K : ℕ) (positions : Set Pos) : Prop where
  lt_iff : ∀ p ∈ positions, ∀ q ∈ positions,
    treeMapper m p.level p.number K < treeMapper m q.level q.number K ↔ ComesBefore m p q
  injective : Set.InjOn (fun p : Pos => treeMapper m p.level p.number K) positions
  operators : StrictTotalOn m positions

/-- The valid positions whose value is not reached by the 16 bit variables. -/
def exactPositions (m : ℕ) : Set Pos := {p | p.Valid m ∧ Exact m p}

/-! ### Without truncation -/

section Exact

variable {m : ℕ} (hm : 2 ≤ m) {p q : Pos} (hp : p ∈ exactPositions m) (hq : q ∈ exactPositions m)
include hm

include hp in
theorem treeMapper_eq (K : ℕ) :
    treeMapper m p.level p.number K = K / half m * m * key m p := by
  have hm0 : (m : ℚ) ≠ 0 := by exact_mod_cast (by omega : m ≠ 0)
  unfold treeMapper treeMapperInternal
  rw [treeMapperRec_eq hm _ _ _ hp.1 hp.2.1 hp.2.2]
  simp only [boundsOf, key]
  rw [pow_succ]
  field_simp
  ring

include hp hq in
theorem treeMapper_lt_iff {K : ℕ} (hK : 0 < K) :
    treeMapper m p.level p.number K < treeMapper m q.level q.number K ↔ ComesBefore m p q := by
  have hhalf : (0 : ℚ) < half m := by exact_mod_cast half_pos hm
  have hm0 : (0 : ℚ) < m := by exact_mod_cast (by omega : 0 < m)
  have hK0 : (0 : ℚ) < K := by exact_mod_cast hK
  have hfactor : (0 : ℚ) < K / half m * m := by positivity
  rw [treeMapper_eq hm hp, treeMapper_eq hm hq, mul_lt_mul_iff_right₀ hfactor,
    comesBefore_iff hm hp.1 hq.1]
  exact Iff.rfl

include hp hq in
theorem eq_of_treeMapper_eq {K : ℕ} (hK : 0 < K)
    (h : treeMapper m p.level p.number K = treeMapper m q.level q.number K) : p = q := by
  by_contra hne
  rcases before_or_before hm hne with hb | hb
  · have hlt := (treeMapper_lt_iff hm hp hq hK).mpr ((comesBefore_iff hm hp.1 hq.1).mpr hb)
    exact absurd h hlt.ne
  · have hlt := (treeMapper_lt_iff hm hq hp hK).mpr ((comesBefore_iff hm hq.1 hp.1).mpr hb)
    exact absurd h.symm hlt.ne

theorem strictTotalOn_exactPositions : StrictTotalOn m (exactPositions m) where
  irrefl p _ := by simp [LogicalNodeInfo.less]
  trans p _ q _ r _ hpq hqr := by
    simp only [LogicalNodeInfo.less, decide_eq_true_eq] at hpq hqr ⊢
    exact hpq.trans hqr
  total p hp q hq := by
    simp only [LogicalNodeInfo.less, decide_eq_true_eq]
    rcases lt_trichotomy (horizontalValue m p) (horizontalValue m q) with h | h | h
    · exact Or.inl h
    · exact Or.inr (Or.inl (horizontalValue_injective hm hp.1 hp.2 hq.1 hq.2 h))
    · exact Or.inr (Or.inr h)
  lessEqual_iff p hp q hq := by
    simp only [LogicalNodeInfo.less, LogicalNodeInfo.lessEqual, decide_eq_true_eq]
    constructor
    · intro h
      rcases h.lt_or_eq with h | h
      · exact Or.inl h
      · exact Or.inr (horizontalValue_injective hm hp.1 hp.2 hq.1 hq.2 h)
    · rintro (h | rfl)
      · exact h.le
      · exact le_rfl
  greater_iff p _ q _ := by
    rw [LogicalNodeInfo.greater, LogicalNodeInfo.lessEqual, LogicalNodeInfo.less, ← decide_not]
    simp only [not_le]
  greaterEqual_iff p _ q _ := by
    rw [LogicalNodeInfo.greaterEqual, LogicalNodeInfo.lessEqual, LogicalNodeInfo.less,
      ← decide_not]
    simp only [not_lt]

theorem inOrderOn_exactPositions {K : ℕ} (hK : 0 < K) : InOrderOn m K (exactPositions m) where
  lt_iff _ hp _ hq := treeMapper_lt_iff hm hp hq hK
  injective _ hp _ hq h := eq_of_treeMapper_eq hm hp hq hK h
  operators := strictTotalOn_exactPositions hm

end Exact

/-! ### With truncation -/

section Truncated

variable {m : ℕ} (hm : 2 ≤ m) (K : ℕ)
include hm

theorem sub_mod_div (number : ℕ) : (number - number % m) / m = number / m := by
  have h := div_add_mod number m
  rw [Nat.sub_eq_of_eq_add h.symm, Nat.mul_div_cancel_left _ (by omega)]

/-- Of a number that is too large for its level the recursion reads the last
digits only, and more rounds than levels change nothing. -/
theorem treeMapperRec_mod {level : ℕ} (hlevel : level ≤ 65536) :
    ∀ fuel number : ℕ, level ≤ fuel → number < 65536 →
      treeMapperRec m K fuel level number = treeMapperRec m K level level (number % m ^ level) := by
  induction level with
  | zero =>
    intro fuel number _ _
    cases fuel <;> rfl
  | succ level ih =>
    intro fuel number hfuel hnumber
    obtain ⟨fuel, rfl⟩ := Nat.exists_eq_add_of_le' (one_le_of_lt hfuel)
    have hparent : number / m < 65536 := lt_of_le_of_lt (Nat.div_le_self _ _) hnumber
    have hlast : number % m ^ (level + 1) % m = number % m := by
      rw [pow_succ']
      exact mod_mul_right_mod _ _ _
    have hquot : number % m ^ (level + 1) / m = number / m % m ^ level := by
      rw [pow_succ', mod_mul_right_div_self]
    have hquotLt : number / m % m ^ level < 65536 := lt_of_le_of_lt (mod_le _ _) hparent
    have hlevel' : u16 (level + 1 - 1) = level := u16_of_lt (by omega)
    rw [treeMapperRec, treeMapperRec, if_neg (by omega), if_neg (by omega), sub_mod_div hm,
      sub_mod_div hm, hquot, hlast, hlevel', u16_of_lt hparent, u16_of_lt hquotLt,
      ih (by omega) fuel (number / m) (by omega) hparent]

/-- A position that does not fit has the value of another one that does. -/
theorem exists_same_treeMapper {p : Pos} (hp : p.Valid m) (hexact : ¬ Exact m p) :
    ∃ q ∈ exactPositions m, q ≠ p ∧
      treeMapper m q.level q.number K = treeMapper m p.level p.number K := by
  have hm0 : 0 < m := by omega
  obtain ⟨level, number⟩ := p
  obtain ⟨k, rfl⟩ : ∃ k, level = k + 1 := by
    refine exists_eq_succ_of_ne_zero fun h0 => hexact ?_
    subst h0
    have hnumber : number = 0 := by simpa [Pos.Valid] using hp
    simp [Exact, hnumber]
  -- the parent that the recursion goes on with, and its child
  have hk : u16 k < 65536 := mod_lt _ (by omega)
  have hn : u16 (number / m) < 65536 := mod_lt _ (by omega)
  have hlast : number % m < m := mod_lt _ hm0
  obtain ⟨parent, hparent⟩ : ∃ x, x = u16 (number / m) % m ^ u16 k := ⟨_, rfl⟩
  have hparentLt : parent < 65536 := hparent ▸ lt_of_le_of_lt (mod_le _ _) hn
  have hquot : (parent * m + number % m) / m = parent := by
    rw [Nat.mul_comm, mul_add_div hm0, div_eq_of_lt hlast, Nat.add_zero]
  have hmod : (parent * m + number % m) % m = number % m := by
    rw [Nat.mul_comm, mul_add_mod, mod_eq_of_lt hlast]
  have hvalid : (⟨u16 k, parent⟩ : Pos).Valid m := hparent ▸ mod_lt _ (Nat.pow_pos hm0)
  have hchild : Exact m ⟨u16 k + 1, parent * m + number % m⟩ := ⟨hk, hquot.symm ▸ hparentLt⟩
  refine ⟨⟨u16 k + 1, parent * m + number % m⟩, ⟨hvalid.child hlast, hchild⟩, ?_, ?_⟩
  · intro heq
    obtain ⟨hlevel, hnumber⟩ := Pos.mk.inj heq
    have hnum : number / m = parent := by rw [← hnumber, hquot]
    exact hexact ⟨by show k + 1 ≤ 65536; omega, by show number / m < 65536; omega⟩
  · have hrec := treeMapperRec_mod hm K hk.le k (u16 (number / m)) (mod_le _ _) hn
    have hlevel : u16 (u16 k + 1 - 1) = u16 k := u16_of_lt hk
    simp only [treeMapper, treeMapperInternal]
    rw [treeMapperRec, treeMapperRec, if_neg (by omega), if_neg (by omega), sub_mod_div hm,
      sub_mod_div hm, hquot, hmod, hlevel, u16_of_lt hparentLt, Nat.add_sub_cancel, hrec, hparent]

end Truncated

/-- The tree mapper puts all positions with a level up to 65536 and a parent's
number below 65536 into the order of the traversal, and no other position can
be added to them.  The root value is a `uint8_t`. -/
theorem treeMapper_inOrder {m : ℕ} (hm : 2 ≤ m) {K : Fin (2 ^ 8)} (hK : 0 < K.val) :
    InOrderOn m K (exactPositions m) ∧
      ∀ p : Pos, p.Valid m → ¬ Exact m p → ¬ InOrderOn m K (insert p (exactPositions m)) := by
  refine ⟨inOrderOn_exactPositions hm hK, fun p hp hexact h => ?_⟩
  obtain ⟨q, hq, hne, heq⟩ := exists_same_treeMapper hm K hp hexact
  exact hne (h.injective (Set.mem_insert_of_mem p hq) (Set.mem_insert p _) heq)

theorem treeMapper_inOrder_three :
    InOrderOn 3 kTreeMapperRootValue (exactPositions 3) ∧
      ∀ p : Pos, p.Valid 3 → ¬ Exact 3 p →
        ¬ InOrderOn 3 kTreeMapperRootValue (insert p (exactPositions 3)) :=
  treeMapper_inOrder (K := ⟨kTreeMapperRootValue, by decide⟩) (by decide) (by decide)

/-- The parent of 131072 has the number 65536, of which 16 bits leave 0. -/
theorem treeMapper_truncated :
    (⟨18, 0⟩ : Pos).Valid 2 ∧ (⟨18, 131072⟩ : Pos).Valid 2 ∧ 131072 < 2 ^ 32 ∧
      ComesBefore 2 ⟨18, 0⟩ ⟨18, 131072⟩ ∧
      treeMapper 2 18 131072 kTreeMapperRootValue = treeMapper 2 18 0 kTreeMapperRootValue := by
  have hfirst : (⟨18, 0⟩ : Pos).Valid 2 := by decide
  have hlast : (⟨18, 131072⟩ : Pos).Valid 2 := by decide
  refine ⟨hfirst, hlast, by decide, ?_, by decide +kernel⟩
  exact (comesBefore_iff le_rfl hfirst hlast).mpr (before_of_number_lt le_rfl (by decide))

end Sola.Minhton
