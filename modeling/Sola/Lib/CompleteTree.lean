import Mathlib.Order.Preorder.Finite
import Sola.Lib.MaryTree

/-!
Complete trees: the first `N` positions in breadth-first order.

Levels are filled from top to bottom and from left to right.  A complete
tree is described by its first level that is not full and by the number of
nodes on that level.
-/

namespace Sola.Lib.MaryTree

/-- The number of positions above level `l`. -/
def levelStart (m : ℕ) : ℕ → ℕ
  | 0 => 0
  | l + 1 => levelStart m l + m ^ l

/-- The index of a position in breadth-first order. -/
def Pos.index (m : ℕ) (p : Pos) : ℕ := levelStart m p.level + p.number

/-- The position is one of the first `N` in breadth-first order. -/
def Complete (m N : ℕ) (p : Pos) : Prop := p.Valid m ∧ p.index m < N

instance (m N : ℕ) (p : Pos) : Decidable (Complete m N p) :=
  inferInstanceAs (Decidable (_ ∧ _))

variable {m N : ℕ} {p : Pos} {E : Pos → Prop}

theorem Complete.valid (h : Complete m N p) : p.Valid m := h.1

theorem Complete.mono {N' : ℕ} (hN : N ≤ N') (h : Complete m N p) :
    Complete m N' p := ⟨h.1, lt_of_lt_of_le h.2 hN⟩

/-- A tree that has a node has a root. -/
theorem Complete.root (h : Complete m N p) : Complete m N ⟨0, 0⟩ :=
  ⟨by simp [Pos.Valid], lt_of_le_of_lt (Nat.zero_le _) h.2⟩

/-- Nodes stand on a level from the left without a gap. -/
theorem Complete.of_number_le {k : ℕ} (h : Complete m N p) (hk : k ≤ p.number) :
    Complete m N ⟨p.level, k⟩ :=
  ⟨lt_of_le_of_lt hk h.1, lt_of_le_of_lt (Nat.add_le_add_left hk _) h.2⟩

theorem levelStart_mono {l l' : ℕ} (h : l ≤ l') : levelStart m l ≤ levelStart m l' := by
  induction h with
  | refl => exact le_refl _
  | step _ ih => exact le_trans ih (Nat.le_add_right _ _)

theorem levelStart_add_pow_le {l l' : ℕ} (h : l < l') : levelStart m l + m ^ l ≤ levelStart m l' :=
  levelStart_mono (m := m) h

theorem Complete.level_le {L : ℕ} (h : Complete m N p) (hN : N ≤ levelStart m (L + 1)) :
    p.level ≤ L := by
  by_contra hlt
  have hstart := levelStart_mono (m := m) (show L + 1 ≤ p.level by omega)
  have hindex : levelStart m p.level + p.number < N := h.2
  omega

theorem index_lt_iff {q : Pos} (hp : p.Valid m) (hq : q.Valid m) :
    p.index m < q.index m ↔ p.level < q.level ∨ p.level = q.level ∧ p.number < q.number := by
  unfold Pos.index Pos.Valid at *
  rcases lt_trichotomy p.level q.level with hl | hl | hl
  · have := levelStart_add_pow_le (m := m) hl
    omega
  · simp [hl]
  · have := levelStart_add_pow_le (m := m) hl
    omega

/-- The levels above a node are full. -/
theorem Complete.of_level_lt {q : Pos} (h : Complete m N p) (hq : q.Valid m)
    (hl : q.level < p.level) : Complete m N q := by
  exact ⟨hq, ((index_lt_iff hq h.1).mpr (Or.inl hl)).trans h.2⟩

/-- The parent comes before its children. -/
theorem Complete.parent (h : Complete m N p) (hl : p.level ≠ 0) : Complete m N (p.parent m) := by
  refine h.of_level_lt (h.1.parent hl) ?_
  show p.level - 1 < p.level
  omega

/-- A complete tree seen from its first level that is not full: all levels
above `F` are full and level `F` holds the first `c` positions. -/
theorem complete_iff {F c : ℕ} (hc : c ≤ m ^ F) :
    Complete m (levelStart m F + c) p ↔
      p.Valid m ∧ (p.level < F ∨ p.level = F ∧ p.number < c) := by
  unfold Complete Pos.index
  refine and_congr_right fun hp => ?_
  unfold Pos.Valid at hp
  rcases lt_trichotomy p.level F with h | h | h
  · have := levelStart_add_pow_le (m := m) h
    simp [h]; omega
  · simp [h]
  · have := levelStart_add_pow_le (m := m) h
    constructor
    · intro h'; omega
    · rintro (h' | h') <;> omega

/-- Every count is reached by full levels and an incomplete one. -/
theorem exists_shape (hm : 0 < m) (N : ℕ) : ∃ F c, c < m ^ F ∧ N = levelStart m F + c := by
  induction N with
  | zero => exact ⟨0, 0, by simp, by simp [levelStart]⟩
  | succ N ih =>
    obtain ⟨F, c, hc, rfl⟩ := ih
    by_cases h : c + 1 < m ^ F
    · exact ⟨F, c + 1, h, rfl⟩
    · refine ⟨F + 1, 0, Nat.pow_pos hm, ?_⟩
      have : c + 1 = m ^ F := by omega
      simp only [levelStart]; omega

/-- The shape of a complete tree of two nodes or more, seen from the level of
its last node. -/
theorem exists_shape_last (hm : 0 < m) (hN : 2 ≤ N) :
    ∃ P count, 0 < count ∧ count ≤ m ^ (P + 1) ∧ N = levelStart m (P + 1) + count := by
  obtain ⟨F, c, hc, hshape⟩ := exists_shape hm N
  by_cases hzero : c = 0
  · obtain ⟨P, rfl⟩ : ∃ P, F = P + 1 + 1 := by
      rcases F with _ | _ | P
      · simp [levelStart] at hshape; omega
      · simp [levelStart] at hshape; omega
      · exact ⟨P, rfl⟩
    refine ⟨P, m ^ (P + 1), Nat.pow_pos hm, le_rfl, ?_⟩
    rw [hshape, hzero]
    rfl
  · obtain ⟨P, rfl⟩ : ∃ P, F = P + 1 := by
      cases F with
      | zero => simp at hc; omega
      | succ P => exact ⟨P, rfl⟩
    exact ⟨P, c, by omega, hc.le, hshape⟩

theorem index_injective {q : Pos} (hp : p.Valid m) (hq : q.Valid m) (h : p.index m = q.index m) :
    p = q := by
  have hlt := index_lt_iff hp hq
  have hgt := index_lt_iff hq hp
  exact Pos.ext_iff'.mpr (by omega)

/-! ### In-order neighbors in finite sets -/

theorem finite_complete (m N : ℕ) : {p : Pos | Complete m N p}.Finite := by
  refine Set.Finite.of_injOn (t := {i | i < N}) (f := Pos.index m) (fun p hp => hp.2) ?_
    (Set.finite_lt_nat N)
  intro p hp q hq h
  exact index_injective hp.1 hq.1 h

/-- Among finitely many positions every position has an in-order predecessor
or none is before it. -/
theorem exists_isPred (hE : {p | E p}.Finite) (p : Pos) : ∃ o, IsPred m E p o := by
  by_cases h : ∃ q, E q ∧ Before m q p
  · have hfin : {q | E q ∧ Before m q p}.Finite := hE.subset fun q hq => hq.1
    obtain ⟨q, hq, hmax⟩ := hfin.exists_maximalFor (key m) _ h
    refine ⟨some q, hq.1, hq.2, fun r hr hrp hqr => ?_⟩
    exact absurd (hmax ⟨hr, hrp⟩ (le_of_lt hqr)) (not_le.mpr hqr)
  · exact ⟨none, fun q hq hb => h ⟨q, hq, hb⟩⟩

theorem exists_isSucc (hE : {p | E p}.Finite) (p : Pos) : ∃ o, IsSucc m E p o := by
  by_cases h : ∃ q, E q ∧ Before m p q
  · have hfin : {q | E q ∧ Before m p q}.Finite := hE.subset fun q hq => hq.1
    obtain ⟨q, hq, hmin⟩ := hfin.exists_minimalFor (key m) _ h
    refine ⟨some q, hq.1, hq.2, fun r hr hpr hrq => ?_⟩
    exact absurd (hmin ⟨hr, hpr⟩ (le_of_lt hrq)) (not_le.mpr hrq)
  · exact ⟨none, fun q hq hb => h ⟨q, hq, hb⟩⟩

end Sola.Lib.MaryTree
