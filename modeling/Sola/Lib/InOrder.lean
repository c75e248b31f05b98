import Mathlib.Data.List.Range
import Sola.Lib.MaryTree

/-!
The in-order traversal of the `m`-ary tree.

The tree is infinite, so a traversal stops at some depth.  Deeper traversals
put further positions in between and leave the order of the others as it is.
-/

namespace Sola.Lib.MaryTree

open List

/-- The subtree of `p` down to `depth` levels below it, where a node is visited
after its first `⌈m/2⌉` children. -/
def inOrder (m : ℕ) : ℕ → Pos → List Pos
  | 0, p => [p]
  | depth + 1, p =>
    ((List.range (half m)).flatMap fun c => inOrder m depth (p.child m c)) ++
      p :: (List.range (m - half m)).flatMap fun c => inOrder m depth (p.child m (half m + c))

/-- `p` comes before `q` in a traversal of the tree. -/
def ComesBefore (m : ℕ) (p q : Pos) : Prop := ∃ depth, [p, q].Sublist (inOrder m depth ⟨0, 0⟩)

section

variable {m : ℕ} (hm : 2 ≤ m)
include hm

variable {p q : Pos} {depth : ℕ}

/-- A position below `p` is below one of the children of `p`. -/
theorem up_eq_iff_exists_child (hl : p.level < q.level) :
    q.up m p.level = p.number ↔ ∃ c < m, q.up m (p.level + 1) = p.number * m + c := by
  have hdiv := Pos.up_succ_div (m := m) q hl
  constructor
  · intro h
    refine ⟨q.up m (p.level + 1) % m, Nat.mod_lt _ (by omega), ?_⟩
    rw [← h]
    exact Pos.up_mod_add q hl
  · rintro ⟨c, hc, h⟩
    rw [← hdiv, h, Nat.mul_comm, Nat.mul_add_div (by omega), Nat.div_eq_of_lt hc, Nat.add_zero]

/-- A traversal visits the positions of the subtree down to its depth. -/
theorem mem_inOrder :
    q ∈ inOrder m depth p ↔
      p.level ≤ q.level ∧ q.level ≤ p.level + depth ∧ q.up m p.level = p.number := by
  have hhalf := half_lt hm
  induction depth generalizing p with
  | zero =>
    rw [inOrder, mem_singleton]
    constructor
    · rintro rfl
      exact ⟨le_rfl, le_rfl, Pos.up_self m q⟩
    · rintro ⟨hge, hle, hup⟩
      have hlevel : q.level = p.level := by omega
      rw [← hlevel, Pos.up_self] at hup
      exact Pos.ext_iff'.mpr ⟨hlevel, hup⟩
  | succ depth ih =>
    have hchild : ∀ c, q ∈ inOrder m depth (p.child m c) ↔
        p.level < q.level ∧ q.level ≤ p.level + (depth + 1) ∧
          q.up m (p.level + 1) = p.number * m + c := by
      intro c
      refine ih.trans ?_
      rw [Pos.child_level, Pos.child_number]
      constructor
      · rintro ⟨h1, h2, h3⟩
        exact ⟨h1, by omega, h3⟩
      · rintro ⟨h1, h2, h3⟩
        exact ⟨h1, by omega, h3⟩
    rw [inOrder, mem_append, mem_cons, mem_flatMap, mem_flatMap]
    simp only [mem_range, hchild]
    constructor
    · rintro (⟨c, hc, h1, h2, h3⟩ | rfl | ⟨c, hc, h1, h2, h3⟩)
      · exact ⟨h1.le, h2, (up_eq_iff_exists_child hm h1).mpr ⟨c, by omega, h3⟩⟩
      · exact ⟨le_rfl, by omega, Pos.up_self m q⟩
      · exact ⟨h1.le, h2, (up_eq_iff_exists_child hm h1).mpr ⟨half m + c, by omega, h3⟩⟩
    · rintro ⟨hge, hle, hup⟩
      rcases hge.eq_or_lt with hlevel | hlt
      · rw [hlevel, Pos.up_self] at hup
        exact Or.inr (Or.inl (Pos.ext_iff'.mpr ⟨hlevel.symm, hup⟩))
      · obtain ⟨c, hc, hcup⟩ := (up_eq_iff_exists_child hm hlt).mp hup
        -- the child is one of those before the node or one of those after it
        rcases Nat.lt_or_ge c (half m) with hfirst | hlast
        · exact Or.inl ⟨c, hfirst, hlt, hle, hcup⟩
        · refine Or.inr (Or.inr ⟨c - half m, by omega, hlt, hle, ?_⟩)
          rw [hcup, Nat.add_sub_cancel' hlast]

/-- What is below a child lies on the side of the child. -/
theorem before_of_mem_inOrder_child {c : ℕ} (hc : c < half m)
    (hq : q ∈ inOrder m depth (p.child m c)) : Before m q p := by
  obtain ⟨hl, -, hup⟩ := (mem_inOrder hm).mp hq
  rw [Pos.child_level] at hl
  rw [Pos.child_level, Pos.child_number] at hup
  rw [before_iff_of_level_gt hm (by omega), hup]
  omega

theorem before_mem_inOrder_child {c : ℕ} (hc : half m ≤ c)
    (hq : q ∈ inOrder m depth (p.child m c)) : Before m p q := by
  obtain ⟨hl, -, hup⟩ := (mem_inOrder hm).mp hq
  rw [Pos.child_level] at hl
  rw [Pos.child_level, Pos.child_number] at hup
  rw [before_iff_of_level_lt hm (by omega), hup]
  omega

/-- Positions below different positions of one level are ordered as these are. -/
theorem before_of_up_lt {L : ℕ} (hp : L ≤ p.level) (hq : L ≤ q.level) (h : p.up m L < q.up m L) :
    Before m p q := by
  obtain ⟨d, hd⟩ := Nat.exists_eq_add_of_le hp
  obtain ⟨e, he⟩ := Nat.exists_eq_add_of_le hq
  have hm0 : 0 < m := by omega
  have hhalf := half_lt hm
  have hpd : p.level - L = d := by omega
  have hqe : q.level - L = e := by omega
  rw [Pos.up, Pos.up, hpd, hqe] at h
  have hlow : p.number < (p.number / m ^ d + 1) * m ^ d := by
    rw [Nat.mul_comm]
    exact Nat.lt_mul_div_succ _ (Nat.pow_pos hm0)
  have hhigh : (p.number / m ^ d + 1) * m ^ e ≤ q.number :=
    (Nat.mul_le_mul_right _ h).trans (Nat.div_mul_le_self _ _)
  unfold Before
  rw [key_lt_iff hm, hd, he]
  calc (p.number * m + half m) * m ^ (L + e) < (p.number + 1) * m * m ^ (L + e) := by
        refine Nat.mul_lt_mul_of_pos_right ?_ (Nat.pow_pos hm0)
        rw [Nat.add_mul, Nat.one_mul]
        omega
    _ ≤ (p.number / m ^ d + 1) * m ^ d * m * m ^ (L + e) := by
        refine Nat.mul_le_mul_right _ (Nat.mul_le_mul_right _ hlow)
    _ = (p.number / m ^ d + 1) * m ^ e * m * m ^ (L + d) := by
        rw [pow_add, pow_add]
        ring
    _ ≤ q.number * m * m ^ (L + d) :=
        Nat.mul_le_mul_right _ (Nat.mul_le_mul_right _ hhigh)
    _ ≤ (q.number * m + half m) * m ^ (L + d) := Nat.mul_le_mul_right _ (Nat.le_add_right _ _)

/-- A traversal visits positions in the order of their keys. -/
theorem inOrder_pairwise (depth : ℕ) (p : Pos) : (inOrder m depth p).Pairwise (Before m) := by
  have hhalf := half_lt hm
  induction depth generalizing p with
  | zero => exact pairwise_singleton _ _
  | succ depth ih =>
    -- the subtrees of two children
    have hchildren : ∀ c c', c < c' → ∀ q ∈ inOrder m depth (p.child m c),
        ∀ r ∈ inOrder m depth (p.child m c'), Before m q r := by
      intro c c' hlt q hq r hr
      obtain ⟨hql, -, hqup⟩ := (mem_inOrder hm).mp hq
      obtain ⟨hrl, -, hrup⟩ := (mem_inOrder hm).mp hr
      apply before_of_up_lt hm hql hrl
      rw [hqup, Pos.child_level, ← Pos.child_level m p c', hrup]
      simp only [Pos.child_number]
      omega
    rw [inOrder, pairwise_append, pairwise_cons, pairwise_flatMap,
      pairwise_flatMap]
    refine ⟨⟨fun c _ => ih _, ?_⟩, ⟨?_, fun c _ => ih _, ?_⟩, ?_⟩
    · exact pairwise_lt_range.imp fun hlt => hchildren _ _ hlt
    · intro r hr
      obtain ⟨c, -, hr⟩ := mem_flatMap.mp hr
      exact before_mem_inOrder_child hm (Nat.le_add_right _ _) hr
    · exact pairwise_lt_range.imp fun hlt => hchildren _ _ (by omega)
    · intro q hq r hr
      obtain ⟨c, hc, hq⟩ := mem_flatMap.mp hq
      have hqp := before_of_mem_inOrder_child hm (mem_range.mp hc) hq
      rcases mem_cons.mp hr with rfl | hr
      · exact hqp
      · obtain ⟨c', -, hr⟩ := mem_flatMap.mp hr
        exact hqp.trans (before_mem_inOrder_child hm (Nat.le_add_right _ _) hr)

omit hm in
/-- Two different elements of a list occur in one of the two orders. -/
theorem pair_sublist_or {α : Type} {l : List α} {a b : α} (ha : a ∈ l) (hb : b ∈ l)
    (hne : a ≠ b) : [a, b].Sublist l ∨ [b, a].Sublist l := by
  obtain ⟨s, t, rfl⟩ := append_of_mem ha
  rcases mem_append.mp hb with hb | hb
  · right
    exact (singleton_sublist.mpr hb).append (singleton_sublist.mpr mem_cons_self)
  · left
    have hbt : b ∈ t := (mem_cons.mp hb).resolve_left hne.symm
    exact ((singleton_sublist.mpr hbt).cons_cons a).trans (sublist_append_right _ _)

/-- The key tells which of two positions is visited first. -/
theorem comesBefore_iff (hp : p.Valid m) (hq : q.Valid m) : ComesBefore m p q ↔ Before m p q := by
  constructor
  · rintro ⟨depth, hsub⟩
    have hpair := (inOrder_pairwise hm depth ⟨0, 0⟩).sublist hsub
    simpa using hpair
  · intro h
    have hmem : ∀ r : Pos, r.Valid m → r.level ≤ max p.level q.level →
        r ∈ inOrder m (max p.level q.level) ⟨0, 0⟩ := by
      intro r hr hl
      refine (mem_inOrder hm).mpr ⟨Nat.zero_le _, by simpa using hl, ?_⟩
      have hlt := Pos.up_lt_pow hr (Nat.zero_le _)
      simpa using hlt
    have hne : p ≠ q := by
      rintro rfl
      exact Before.irrefl _ h
    refine ⟨max p.level q.level, ?_⟩
    rcases pair_sublist_or (hmem p hp (le_max_left _ _)) (hmem q hq (le_max_right _ _)) hne with
      hsub | hsub
    · exact hsub
    · have hpair := (inOrder_pairwise hm _ ⟨0, 0⟩).sublist hsub
      have hqp : Before m q p := by simpa using hpair
      exact absurd hqp h.asymm

end

end Sola.Lib.MaryTree
