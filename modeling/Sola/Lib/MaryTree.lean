import Mathlib.Tactic.FieldSimp
import Mathlib.Tactic.Linarith
import Mathlib.Tactic.Positivity
import Mathlib.Tactic.Ring

/-!
Positions of the infinite `m`-ary tree and their in-order.

A position is a level and a number on that level.  The in-order visits a
node after its first `⌈m/2⌉` subtrees and before the remaining ones.  It is
given here by a rational key, the point at which a node sits inside the
interval of the unit segment that its subtree owns; `before_iff_of_level_lt`
and `before_iff_of_level_gt` say what that means in terms of the child of a
node through which another one is reached.
-/

namespace Sola.Lib.MaryTree

/-- A position of the tree: a level and a number on that level. -/
structure Pos where
  level : ℕ
  number : ℕ
deriving DecidableEq, Repr

/-- The number of subtrees which the in-order visits before their root. -/
def half (m : ℕ) : ℕ := (m + 1) / 2

variable {m : ℕ}

theorem half_pos (hm : 2 ≤ m) : 0 < half m := by
  unfold half; omega

theorem half_lt (hm : 2 ≤ m) : half m < m := by
  unfold half; omega

namespace Pos

/-- The position lies on its level: there are `m ^ level` numbers. -/
def Valid (m : ℕ) (p : Pos) : Prop := p.number < m ^ p.level

instance (m : ℕ) (p : Pos) : Decidable (p.Valid m) :=
  inferInstanceAs (Decidable (_ < _))

/-- The `c`-th child of a position. -/
def child (m : ℕ) (p : Pos) (c : ℕ) : Pos := ⟨p.level + 1, p.number * m + c⟩

/-- The parent of a position (the root is its own parent). -/
def parent (m : ℕ) (p : Pos) : Pos := ⟨p.level - 1, p.number / m⟩

/-- The number of the ancestor of `p` on level `L`. -/
def up (m : ℕ) (p : Pos) (L : ℕ) : ℕ := p.number / m ^ (p.level - L)

@[simp] theorem child_level (m : ℕ) (p : Pos) (c : ℕ) :
    (p.child m c).level = p.level + 1 := rfl

@[simp] theorem child_number (m : ℕ) (p : Pos) (c : ℕ) :
    (p.child m c).number = p.number * m + c := rfl

@[simp] theorem parent_level (m : ℕ) (p : Pos) :
    (p.parent m).level = p.level - 1 := rfl

@[simp] theorem parent_number (m : ℕ) (p : Pos) :
    (p.parent m).number = p.number / m := rfl

variable {p : Pos} {m L c : ℕ}

theorem ext_iff' {q : Pos} : p = q ↔ p.level = q.level ∧ p.number = q.number := by
  cases p; cases q; simp

@[simp] theorem up_self (m : ℕ) (p : Pos) : p.up m p.level = p.number := by
  simp [up]

theorem up_up (p : Pos) {K : ℕ} (hL : L ≤ K) (hK : K ≤ p.level) :
    p.up m K / m ^ (K - L) = p.up m L := by
  unfold up
  rw [Nat.div_div_eq_div_mul, ← pow_add]
  congr 2; omega

theorem up_succ_div (p : Pos) (hL : L < p.level) : p.up m (L + 1) / m = p.up m L := by
  have h := up_up (m := m) p (Nat.le_succ L) hL
  simpa using h

theorem up_mod_add (p : Pos) (hL : L < p.level) :
    p.up m (L + 1) = p.up m L * m + p.up m (L + 1) % m := by
  have h := Nat.div_add_mod (p.up m (L + 1)) m
  rw [up_succ_div p hL] at h
  rw [Nat.mul_comm]; exact h.symm

theorem up_child (hm : 0 < m) (p : Pos) (hc : c < m) (hL : L ≤ p.level) :
    (p.child m c).up m L = p.up m L := by
  have h1 : p.level + 1 - L = (p.level - L) + 1 := by omega
  unfold up
  simp only [child_level, child_number, h1, pow_succ']
  rw [← Nat.div_div_eq_div_mul, Nat.mul_comm p.number m, Nat.mul_add_div hm,
    Nat.div_eq_of_lt hc, Nat.add_zero]

theorem up_lt_pow (hp : p.Valid m) (hL : L ≤ p.level) : p.up m L < m ^ L := by
  unfold up
  refine Nat.div_lt_of_lt_mul ?_
  rw [← pow_add, Nat.sub_add_cancel hL]
  exact hp

theorem Valid.child (hp : p.Valid m) (hc : c < m) : (p.child m c).Valid m := by
  unfold Valid at *
  simp only [child_level, child_number, pow_succ]
  calc p.number * m + c < p.number * m + m := by omega
    _ = (p.number + 1) * m := by ring
    _ ≤ m ^ p.level * m := Nat.mul_le_mul_right _ hp

theorem Valid.parent (hp : p.Valid m) (hl : p.level ≠ 0) : (p.parent m).Valid m := by
  have h := up_lt_pow hp (Nat.sub_le p.level 1)
  have h1 : p.level - (p.level - 1) = 1 := by omega
  simpa [up, h1, Valid] using h

theorem parent_child (hm : 0 < m) (p : Pos) (hc : c < m) : (p.child m c).parent m = p := by
  rw [ext_iff']
  refine ⟨by simp, ?_⟩
  simp only [parent_number, child_number]
  rw [Nat.mul_comm, Nat.mul_add_div hm, Nat.div_eq_of_lt hc, Nat.add_zero]

end Pos

/-! ### The in-order -/

/-- The point of the unit segment at which the in-order meets a node. -/
def key (m : ℕ) (p : Pos) : ℚ :=
  (p.number * m + half m) / (m : ℚ) ^ (p.level + 1)

/-- `p` comes before `q` in the in-order. -/
def Before (m : ℕ) (p q : Pos) : Prop := key m p < key m q

instance (m : ℕ) (p q : Pos) : Decidable (Before m p q) :=
  inferInstanceAs (Decidable (_ < _))

theorem Before.trans {p q r : Pos} (h₁ : Before m p q) (h₂ : Before m q r) :
    Before m p r := lt_trans h₁ h₂

theorem Before.asymm {p q : Pos} (h : Before m p q) : ¬ Before m q p :=
  lt_asymm h

@[simp] theorem Before.irrefl (p : Pos) : ¬ Before m p p := lt_irrefl _

/-- Cross-multiplied form of the in-order comparison. -/
theorem key_lt_iff (hm : 2 ≤ m) (p q : Pos) :
    key m p < key m q ↔
      (p.number * m + half m) * m ^ q.level <
        (q.number * m + half m) * m ^ p.level := by
  have hm0 : (0 : ℚ) < m := by exact_mod_cast (by omega : 0 < m)
  unfold key
  rw [div_lt_div_iff₀ (by positivity) (by positivity), pow_succ, pow_succ,
    ← mul_assoc, ← mul_assoc, mul_lt_mul_iff_left₀ hm0]
  exact_mod_cast Iff.rfl

section Order

variable {m : ℕ} (hm : 2 ≤ m)
include hm

variable {p q : Pos}

theorem before_iff_of_level_eq (h : p.level = q.level) : Before m p q ↔ p.number < q.number := by
  have hpow : 0 < m ^ q.level := Nat.pow_pos (by omega)
  unfold Before
  rw [key_lt_iff hm, h, Nat.mul_lt_mul_right hpow]
  constructor
  · intro h'
    have := lt_of_add_lt_add_right h'
    exact lt_of_mul_lt_mul_right this (Nat.zero_le m)
  · intro h'
    exact Nat.add_lt_add_right (Nat.mul_lt_mul_of_pos_right h' (by omega)) _

theorem before_of_number_lt {l a b : ℕ} (h : a < b) : Before m ⟨l, a⟩ ⟨l, b⟩ :=
  (before_iff_of_level_eq hm (p := ⟨l, a⟩) (q := ⟨l, b⟩) rfl).mpr h

/-- A node `q` strictly below the level of `p` comes before `p` exactly if its
ancestor on the level below `p` is to the left of the middle child of `p`. -/
theorem before_iff_of_level_gt (h : p.level < q.level) :
    Before m q p ↔ q.up m (p.level + 1) < p.number * m + half m := by
  have hm0 : 0 < m := by omega
  have hpow : 0 < m ^ p.level := Nat.pow_pos hm0
  have hk := half_pos hm
  have hk' := half_lt hm
  -- both sides compare `q.number` with a multiple of `m ^ d`
  obtain ⟨d, hd⟩ : ∃ d, q.level = p.level + 1 + d := ⟨_, (Nat.add_sub_of_le h).symm⟩
  unfold Before Pos.up
  have hsub : q.level - (p.level + 1) = d := by omega
  rw [key_lt_iff hm, hsub, Nat.div_lt_iff_lt_mul (Nat.pow_pos hm0), hd,
    show p.level + 1 + d = d + 1 + p.level by omega, pow_add m (d + 1) p.level,
    ← mul_assoc, Nat.mul_lt_mul_right hpow, pow_succ, ← mul_assoc]
  generalize (p.number * m + half m) * m ^ d = x
  constructor
  · intro h'
    refine lt_of_mul_lt_mul_right (a := m) ?_ (Nat.zero_le m)
    omega
  · intro h'
    have : (q.number + 1) * m ≤ x * m := Nat.mul_le_mul_right m h'
    rw [Nat.add_mul, Nat.one_mul] at this
    omega

/-- A node `q` strictly below the level of `p` comes after `p` exactly if its
ancestor on the level below `p` is at or to the right of the middle child. -/
theorem before_iff_of_level_lt (h : p.level < q.level) :
    Before m p q ↔ p.number * m + half m ≤ q.up m (p.level + 1) := by
  have hm0 : 0 < m := by omega
  have hpow : 0 < m ^ p.level := Nat.pow_pos hm0
  have hk := half_pos hm
  have hk' := half_lt hm
  obtain ⟨d, hd⟩ : ∃ d, q.level = p.level + 1 + d := ⟨_, (Nat.add_sub_of_le h).symm⟩
  unfold Before Pos.up
  have hsub : q.level - (p.level + 1) = d := by omega
  rw [key_lt_iff hm, hsub, Nat.le_div_iff_mul_le (Nat.pow_pos hm0), hd,
    show p.level + 1 + d = d + 1 + p.level by omega, pow_add m (d + 1) p.level,
    ← mul_assoc, Nat.mul_lt_mul_right hpow, pow_succ, ← mul_assoc]
  generalize (p.number * m + half m) * m ^ d = x
  constructor
  · intro h'
    have h2 : x * m < (q.number + 1) * m := by
      rw [Nat.add_mul, Nat.one_mul]; omega
    exact Nat.lt_succ_iff.mp (lt_of_mul_lt_mul_right h2 (Nat.zero_le m))
  · intro h'
    have := Nat.mul_le_mul_right m h'
    omega

/-- Two different positions are comparable in the in-order. -/
theorem before_or_before (h : p ≠ q) : Before m p q ∨ Before m q p := by
  rcases lt_trichotomy p.level q.level with hl | hl | hl
  · rw [before_iff_of_level_lt hm hl, before_iff_of_level_gt hm hl]
    exact le_or_gt _ _
  · rw [before_iff_of_level_eq hm hl, before_iff_of_level_eq hm hl.symm]
    have : p.number ≠ q.number := fun hn => h (Pos.ext_iff'.mpr ⟨hl, hn⟩)
    omega
  · rw [before_iff_of_level_lt hm hl, before_iff_of_level_gt hm hl]
    exact lt_or_ge _ _

/-! ### Children -/

/-- The child `c` of `p` comes before `p` exactly if it is one of the first
`half m` children. -/
theorem child_before_iff (p : Pos) (c : ℕ) :
    Before m (p.child m c) p ↔ c < half m := by
  rw [before_iff_of_level_gt hm (by simp)]
  have h : (p.child m c).up m (p.level + 1) = p.number * m + c := by
    simpa using Pos.up_self m (p.child m c)
  rw [h]; omega

theorem before_child_iff (p : Pos) (c : ℕ) :
    Before m p (p.child m c) ↔ half m ≤ c := by
  rw [before_iff_of_level_lt hm (by simp)]
  have h : (p.child m c).up m (p.level + 1) = p.number * m + c := by
    simpa using Pos.up_self m (p.child m c)
  rw [h]; omega

/-- A child lies on the same side of a node on a higher level as its parent. -/
theorem child_before_iff_of_level_lt {a : Pos} (h : a.level < p.level) {c : ℕ} (hc : c < m) :
    Before m (p.child m c) a ↔ Before m p a := by
  have hlt : a.level < (p.child m c).level := by simp; omega
  rw [before_iff_of_level_gt hm hlt, before_iff_of_level_gt hm h,
    Pos.up_child (by omega) p hc h]

theorem before_child_iff_of_level_lt {a : Pos} (h : a.level < p.level) {c : ℕ} (hc : c < m) :
    Before m a (p.child m c) ↔ Before m a p := by
  have hlt : a.level < (p.child m c).level := by simp; omega
  rw [before_iff_of_level_lt hm hlt, before_iff_of_level_lt hm h,
    Pos.up_child (by omega) p hc h]

end Order

/-! ### In-order neighbors -/

/-- `o` is the in-order predecessor of `p` among the positions in `E`. -/
def IsPred (m : ℕ) (E : Pos → Prop) (p : Pos) : Option Pos → Prop
  | none => ∀ q, E q → ¬ Before m q p
  | some q => E q ∧ Before m q p ∧ ∀ r, E r → Before m r p → ¬ Before m q r

/-- `o` is the in-order successor of `p` among the positions in `E`. -/
def IsSucc (m : ℕ) (E : Pos → Prop) (p : Pos) : Option Pos → Prop
  | none => ∀ q, E q → ¬ Before m p q
  | some q => E q ∧ Before m p q ∧ ∀ r, E r → Before m p r → ¬ Before m r q

section Neighbors

variable {m : ℕ} (hm : 2 ≤ m) {E : Pos → Prop} {p q : Pos}
include hm

/-- The successor of a node with a child in its right half lies below it and
has no first child. -/
theorem IsSucc.below (h : IsSucc m E p (some q)) (hchild : E (p.child m (half m))) :
    p.level < q.level ∧ ¬ E (q.child m 0) := by
  obtain ⟨-, hpq, hmin⟩ := h
  have hlevel : p.level < q.level := by
    by_contra hle
    -- otherwise the child is between the two
    refine hmin _ hchild ((before_child_iff hm p _).mpr le_rfl) ?_
    rcases Nat.lt_or_ge q.level p.level with hlt | hge
    · exact (child_before_iff_of_level_lt hm hlt (half_lt hm)).mpr hpq
    · have heq : p.level = q.level := by omega
      have hnum := (before_iff_of_level_eq hm heq).mp hpq
      rw [before_iff_of_level_gt hm (by simp; omega)]
      have hup : (p.child m (half m)).up m (q.level + 1) = p.number * m + half m := by
        rw [← heq]; simpa using Pos.up_self m (p.child m (half m))
      rw [hup]
      exact Nat.add_lt_add_right (Nat.mul_lt_mul_of_pos_right hnum (by omega)) _
  refine ⟨hlevel, fun hc => ?_⟩
  exact hmin _ hc ((before_child_iff_of_level_lt hm hlevel (by omega)).mpr hpq)
    ((child_before_iff hm q 0).mpr (half_pos hm))

/-- The predecessor of a node with a first child lies below it and has no
child in its right half. -/
theorem IsPred.below (h : IsPred m E p (some q)) (hchild : E (p.child m 0)) :
    p.level < q.level ∧ ¬ E (q.child m (half m)) := by
  obtain ⟨-, hqp, hmax⟩ := h
  have hlevel : p.level < q.level := by
    by_contra hle
    refine hmax _ hchild ((child_before_iff hm p 0).mpr (half_pos hm)) ?_
    rcases Nat.lt_or_ge q.level p.level with hlt | hge
    · exact (before_child_iff_of_level_lt hm hlt (by omega)).mpr hqp
    · have heq : q.level = p.level := by omega
      have hnum := (before_iff_of_level_eq hm heq).mp hqp
      rw [before_iff_of_level_lt hm (by simp; omega)]
      have hup : (p.child m 0).up m (q.level + 1) = p.number * m + 0 := by
        rw [heq]; simpa using Pos.up_self m (p.child m 0)
      have hmul : (q.number + 1) * m ≤ p.number * m := Nat.mul_le_mul_right m hnum
      rw [Nat.add_mul, Nat.one_mul] at hmul
      have := half_lt hm
      rw [hup]
      omega
  refine ⟨hlevel, fun hc => ?_⟩
  exact hmax _ hc ((child_before_iff_of_level_lt hm hlevel (half_lt hm)).mpr hqp)
    ((before_child_iff hm q _).mpr le_rfl)

end Neighbors

end Sola.Lib.MaryTree
