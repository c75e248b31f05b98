import Mathlib.Algebra.Order.Group.Basic
import Mathlib.Algebra.Order.Monoid.Unbundled.MinMax
import Mathlib.Algebra.Order.Monoid.WithTop
import Mathlib.Data.Finset.Lattice.Fold
import Mathlib.Data.Finset.Order
import Mathlib.Data.List.ProdSigma

/-!
The Floyd–Warshall algorithm in place.

A distance is a value of an ordered monoid, for instance a rational number or
infinity.  Round `k` goes through all pairs and takes the way through `k` if it
is shorter; it reads entries that it has already changed.  If no entry of the
diagonal ends up negative, the entries in row and column `k` do not change in
round `k`, and the result satisfies the triangle inequality.

Entries can be read as bounds on differences.  The algorithm does not change which
assignments satisfy them, and its result tells whether there is one, and how
early and how late it can be.

The algorithm runs on the rows of a matrix.  The lemmas are about functions, and
the rows represent such a function throughout.
-/

namespace Sola.Lib.FloydWarshall

open List Function

variable {α : Type} [LinearOrder α] [AddCommMonoid α]

/-- Take the way through `k` for the pair if it is shorter. -/
def relax (k : ℕ) (d : ℕ → ℕ → α) (p : ℕ × ℕ) : ℕ → ℕ → α :=
  let alternative := d p.1 k + d k p.2
  if alternative < d p.1 p.2 then
    Function.update d p.1 (Function.update (d p.1) p.2 alternative)
  else d

/-- One round of the outer loop. -/
def round (n : ℕ) (d : ℕ → ℕ → α) (k : ℕ) : ℕ → ℕ → α :=
  (List.product (List.range n) (List.range n)).foldl (relax k) d

def floydWarshall (n : ℕ) (d : ℕ → ℕ → α) : ℕ → ℕ → α := (List.range n).foldl (round n) d

theorem relax_self (k : ℕ) (d : ℕ → ℕ → α) (i j : ℕ) :
    relax k d (i, j) i j = min (d i j) (d i k + d k j) := by
  simp only [relax]
  by_cases hlt : d i k + d k j < d i j
  · rw [if_pos hlt, update_self, update_self, min_eq_right hlt.le]
  · rw [if_neg hlt, min_eq_left (not_lt.mp hlt)]

variable {i j k : ℕ}

theorem relax_of_ne (k : ℕ) (d : ℕ → ℕ → α) {p : ℕ × ℕ} (hp : (i, j) ≠ p) :
    relax k d p i j = d i j := by
  obtain ⟨a, b⟩ := p
  simp only [relax]
  split_ifs with hlt
  · by_cases hi : i = a
    · subst hi
      have hj : j ≠ b := fun hj => hp (by rw [hj])
      rw [update_self, update_of_ne hj]
    · rw [update_of_ne hi]
  · rfl

theorem relax_apply (k : ℕ) (d : ℕ → ℕ → α) (p : ℕ × ℕ) (i j : ℕ) :
    relax k d p i j = if (i, j) = p then min (d i j) (d i k + d k j) else d i j := by
  split_ifs with hp
  · rw [← hp, relax_self]
  · exact relax_of_ne k d hp

theorem relax_le (k : ℕ) (d : ℕ → ℕ → α) (p : ℕ × ℕ) (i j : ℕ) :
    relax k d p i j ≤ d i j := by
  rw [relax_apply]
  split_ifs
  · exact min_le_left _ _
  · exact le_rfl

theorem foldl_relax_le (k : ℕ) (d : ℕ → ℕ → α) (l : List (ℕ × ℕ)) (i j : ℕ) :
    l.foldl (relax k) d i j ≤ d i j := by
  induction l generalizing d with
  | nil => exact le_rfl
  | cons p l ih => exact (ih (relax k d p)).trans (relax_le k d p i j)

theorem foldl_round_le (n : ℕ) (d : ℕ → ℕ → α) (ks : List ℕ) (i j : ℕ) :
    ks.foldl (round n) d i j ≤ d i j := by
  induction ks generalizing d with
  | nil => exact le_rfl
  | cons k ks ih => exact (ih (round n d k)).trans (foldl_relax_le k d _ i j)

/-- Distances only get shorter. -/
theorem floydWarshall_le (n : ℕ) (d : ℕ → ℕ → α) (i j : ℕ) : floydWarshall n d i j ≤ d i j :=
  foldl_round_le n d _ i j

variable [IsOrderedAddMonoid α] {n : ℕ} {d : ℕ → ℕ → α}

/-- Row and column `k` are the same throughout a round without a negative way from `k` to
`k`, so every pair takes the shorter one of the two old ways. -/
theorem foldl_relax_apply (hk : 0 ≤ d k k) (l : List (ℕ × ℕ)) (i j : ℕ) :
    l.foldl (relax k) d i j = if (i, j) ∈ l then min (d i j) (d i k + d k j) else d i j := by
  induction l using reverseRecOn generalizing i j with
  | nil => simp
  | append_singleton l p ih =>
    have hcolumn : l.foldl (relax k) d i k = d i k := by
      rw [ih, ite_eq_right_iff]
      exact fun _ => min_eq_left (le_add_of_nonneg_right hk)
    have hrow : l.foldl (relax k) d k j = d k j := by
      rw [ih, ite_eq_right_iff]
      exact fun _ => min_eq_left (le_add_of_nonneg_left hk)
    rw [foldl_append, foldl_cons, foldl_nil, relax_apply, hcolumn, hrow, ih]
    by_cases hp : (i, j) = p
    · subst hp
      by_cases hmem : (i, j) ∈ l
      · simp [hmem]
      · simp [hmem]
    · simp [hp]

theorem round_apply (hk : 0 ≤ d k k) (hi : i < n) (hj : j < n) :
    round n d k i j = min (d i j) (d i k + d k j) := by
  rw [round, foldl_relax_apply hk, if_pos]
  exact mem_product.mpr ⟨mem_range.mpr hi, mem_range.mpr hj⟩

/-- No way through `k` is shorter. -/
def Via (n : ℕ) (d : ℕ → ℕ → α) (k : ℕ) : Prop := ∀ i < n, ∀ j < n, d i j ≤ d i k + d k j

theorem via_round_self (hkn : k < n) (hk : 0 ≤ d k k) : Via n (round n d k) k := by
  intro i hi j hj
  rw [round_apply hk hi hj, round_apply hk hi hkn, round_apply hk hkn hj,
    min_eq_left (le_add_of_nonneg_right hk), min_eq_left (le_add_of_nonneg_left hk)]
  exact min_le_right _ _

/-- A round keeps what the rounds before it achieved. -/
theorem Via.round {k' : ℕ} (h : Via n d k) (hkn : k < n) (hkn' : k' < n) (hk' : 0 ≤ d k' k') :
    Via n (round n d k') k := by
  intro i hi j hj
  rw [round_apply hk' hi hj, round_apply hk' hi hkn, round_apply hk' hkn hj]
  rcases min_choice (d i k) (d i k' + d k' k) with hl | hl <;>
    rcases min_choice (d k j) (d k k' + d k' j) with hr | hr <;> rw [hl, hr]
  · exact (min_le_left _ _).trans (h i hi j hj)
  · calc
      min (d i j) (d i k' + d k' j) ≤ d i k' + d k' j := min_le_right _ _
      _ ≤ d i k + d k k' + d k' j := add_le_add_left (h i hi k' hkn') _
      _ = d i k + (d k k' + d k' j) := add_assoc _ _ _
  · calc
      min (d i j) (d i k' + d k' j) ≤ d i k' + d k' j := min_le_right _ _
      _ ≤ d i k' + (d k' k + d k j) := add_le_add_right (h k' hkn' j hj) _
      _ = d i k' + d k' k + d k j := (add_assoc _ _ _).symm
  · -- the detour from `k'` over `k` back to `k'` is not negative
    have hdetour : 0 ≤ d k' k + d k k' := hk'.trans (h k' hkn' k' hkn')
    calc
      min (d i j) (d i k' + d k' j) ≤ d i k' + d k' j := min_le_right _ _
      _ ≤ d i k' + (d k' k + d k k') + d k' j :=
        add_le_add_left (le_add_of_nonneg_right hdetour) _
      _ = d i k' + d k' k + (d k k' + d k' j) := by simp only [add_assoc]

/-- If the diagonal is not negative at the end, no way through the given vertices is shorter. -/
theorem via_foldl_round {ks : List ℕ} (hks : ∀ k ∈ ks, k < n)
    (hdiag : ∀ i < n, 0 ≤ ks.foldl (round n) d i i) :
    ∀ k ∈ ks, Via n (ks.foldl (round n) d) k := by
  induction ks using reverseRecOn with
  | nil => simp
  | append_singleton ks k' ih =>
    rw [foldl_append, foldl_cons, foldl_nil] at hdiag ⊢
    have hdiag' : ∀ i < n, 0 ≤ ks.foldl (FloydWarshall.round n) d i i :=
      fun i hi => (hdiag i hi).trans (foldl_relax_le k' _ _ i i)
    have hkn' : k' < n := hks k' (by simp)
    intro k hk
    rcases mem_append.mp hk with hk | hk
    · exact (ih (fun k hk => hks k (by simp [hk])) hdiag' k hk).round (hks k (by simp [hk])) hkn'
        (hdiag' k' hkn')
    · obtain rfl := mem_singleton.mp hk
      exact via_round_self hkn' (hdiag' k hkn')

/-- The triangle inequality of the result. -/
theorem floydWarshall_triangle (hdiag : ∀ i < n, 0 ≤ floydWarshall n d i i) (hi : i < n)
    (hj : j < n) (hk : k < n) :
    floydWarshall n d i j ≤ floydWarshall n d i k + floydWarshall n d k j :=
  via_foldl_round (fun _ => mem_range.mp) hdiag k (mem_range.mpr hk) i hi j hj

/-! ### The algorithm on rows -/

omit [IsOrderedAddMonoid α]

/-- The entry of a matrix. -/
def entry (rows : List (List α)) (i j : ℕ) : α := (rows.getD i []).getD j 0

def relaxRows (k : ℕ) (rows : List (List α)) (p : ℕ × ℕ) : List (List α) :=
  let alternative := entry rows p.1 k + entry rows k p.2
  if alternative < entry rows p.1 p.2 then
    rows.set p.1 ((rows.getD p.1 []).set p.2 alternative)
  else rows

def roundRows (n : ℕ) (rows : List (List α)) (k : ℕ) : List (List α) :=
  (List.product (List.range n) (List.range n)).foldl (relaxRows k) rows

def floydWarshallRows (n : ℕ) (rows : List (List α)) : List (List α) :=
  (List.range n).foldl (roundRows n) rows

/-- The rows of an `n × n` matrix with the entries of `d`. -/
structure Represents (n : ℕ) (rows : List (List α)) (d : ℕ → ℕ → α) : Prop where
  length : rows.length = n
  columns : ∀ i < n, (rows.getD i []).length = n
  entry_eq : ∀ i < n, ∀ j < n, entry rows i j = d i j

variable {rows : List (List α)}

omit [LinearOrder α] in
theorem represents_map (n : ℕ) (d : ℕ → ℕ → α) :
    Represents n ((range n).map fun i => (range n).map (d i)) d where
  length := by simp
  columns i hi := by simp [hi]
  entry_eq i hi j hj := by simp [entry, hi, hj]

theorem getD_set {β : Type} {l : List β} (hi : i < l.length) (x y : β) (j : ℕ) :
    (l.set i x).getD j y = if j = i then x else l.getD j y := by
  split_ifs with h
  · subst h
    rw [getD_eq_getElem?_getD, getElem?_set_self hi, Option.getD_some]
  · rw [getD_eq_getElem?_getD, getElem?_set_ne (fun hij => h hij.symm),
      getD_eq_getElem?_getD]

omit [LinearOrder α] in
theorem entry_set {a b : ℕ} (ha : a < rows.length) (hb : b < (rows.getD a []).length) (x : α)
    (i j : ℕ) : entry (rows.set a ((rows.getD a []).set b x)) i j =
      if i = a ∧ j = b then x else entry rows i j := by
  rw [entry, getD_set ha]
  by_cases hi : i = a
  · rw [if_pos hi, getD_set hb, hi]
    by_cases hj : j = b
    · rw [if_pos hj, if_pos ⟨rfl, hj⟩]
    · rw [if_neg hj, if_neg fun hij => hj hij.2, entry]
  · rw [if_neg hi, if_neg fun hij => hi hij.1, entry]

theorem Represents.relax (h : Represents n rows d) (hk : k < n) {p : ℕ × ℕ}
    (hp : p.1 < n ∧ p.2 < n) : Represents n (relaxRows k rows p) (FloydWarshall.relax k d p) := by
  have hentries : entry rows p.1 k + entry rows k p.2 = d p.1 k + d k p.2 := by
    rw [h.entry_eq _ hp.1 _ hk, h.entry_eq _ hk _ hp.2]
  simp only [relaxRows, FloydWarshall.relax, hentries, h.entry_eq _ hp.1 _ hp.2]
  split_ifs with hlt
  · refine ⟨by rw [length_set, h.length], fun i hi => ?_, fun i hi j hj => ?_⟩
    · rw [getD_set (by rw [h.length]; exact hp.1)]
      split_ifs
      · rw [length_set]
        exact h.columns _ hp.1
      · exact h.columns i hi
    · rw [entry_set (by rw [h.length]; exact hp.1) (by rw [h.columns _ hp.1]; exact hp.2)]
      by_cases hip : i = p.1
      · subst hip
        by_cases hjp : j = p.2
        · subst hjp
          rw [if_pos ⟨rfl, rfl⟩, update_self, update_self]
        · rw [if_neg fun hij => hjp hij.2, update_self, update_of_ne hjp]
          exact h.entry_eq _ hi _ hj
      · rw [if_neg fun hij => hip hij.1, update_of_ne hip]
        exact h.entry_eq _ hi _ hj
  · exact h

theorem Represents.round (h : Represents n rows d) (hk : k < n) :
    Represents n (roundRows n rows k) (FloydWarshall.round n d k) := by
  have hpairs : ∀ p ∈ product (range n) (range n), p.1 < n ∧ p.2 < n := by
    intro p hp
    obtain ⟨h1, h2⟩ := mem_product.mp hp
    exact ⟨mem_range.mp h1, mem_range.mp h2⟩
  unfold roundRows FloydWarshall.round
  generalize product (range n) (range n) = ps at hpairs
  induction ps generalizing rows d with
  | nil => exact h
  | cons p ps ih =>
    exact ih (h.relax hk (hpairs p (by simp))) fun p' hp' => hpairs p' (by simp [hp'])

/-- The rows end up with what the functions say. -/
theorem Represents.floydWarshall (h : Represents n rows d) :
    Represents n (floydWarshallRows n rows) (FloydWarshall.floydWarshall n d) := by
  have hrange : ∀ k ∈ range n, k < n := fun k => mem_range.mp
  unfold floydWarshallRows FloydWarshall.floydWarshall
  generalize range n = ks at hrange
  induction ks generalizing rows d with
  | nil => exact h
  | cons k ks ih =>
    exact ih (h.round (hrange k (by simp))) fun k' hk' => hrange k' (by simp [hk'])

/-! ### Bounds on differences

An entry `d i j` bounds how much later `j` is than `i`.  The algorithm keeps the assignments
that satisfy all bounds, and a matrix with the triangle inequality has such assignments. -/

section Bounds

variable {K : Type} [AddCommGroup K] [LinearOrder K] {n i j k o : ℕ}
  {d D : ℕ → ℕ → WithTop K} {x : ℕ → K}

/-- The assignment satisfies all bounds. -/
def Satisfies (n : ℕ) (d : ℕ → ℕ → WithTop K) (x : ℕ → K) : Prop :=
  ∀ i < n, ∀ j < n, ((x j - x i : K) : WithTop K) ≤ d i j

theorem Satisfies.of_floydWarshall (h : Satisfies n (FloydWarshall.floydWarshall n d) x) :
    Satisfies n d x :=
  fun i hi j hj => (h i hi j hj).trans (floydWarshall_le n d i j)

/-- A matrix with the triangle inequality and zeros in its diagonal. -/
structure Closed (n : ℕ) (D : ℕ → ℕ → WithTop K) : Prop where
  diagonal : ∀ i < n, D i i = 0
  triangle : ∀ i < n, ∀ j < n, ∀ k < n, D i j ≤ D i k + D k j

theorem Closed.transpose (h : Closed n D) : Closed n fun i j => D j i :=
  ⟨h.diagonal, fun i hi j hj k hk => (h.triangle j hj i hi k hk).trans (add_comm _ _).le⟩

/-- The least entry of a row. -/
def rowMin (n : ℕ) (D : ℕ → ℕ → WithTop K) (i : ℕ) : WithTop K :=
  (Finset.range n).inf (D i)

theorem Closed.rowMin_le (h : Closed n D) (hi : i < n) (hj : j < n) :
    rowMin n D i ≤ D i j + rowMin n D j := by
  obtain ⟨k, hk, heq⟩ := Finset.exists_mem_eq_inf (Finset.range n)
    ⟨j, Finset.mem_range.mpr hj⟩ (D j)
  have hk' := Finset.mem_range.mp hk
  calc rowMin n D i ≤ D i k := Finset.inf_le hk
    _ ≤ D i j + D j k := h.triangle i hi k hk' j hj
    _ = D i j + rowMin n D j := by rw [rowMin, heq]

variable [IsOrderedAddMonoid K]

theorem Satisfies.relax (h : Satisfies n d x) (hk : k < n) (p : ℕ × ℕ) :
    Satisfies n (relax k d p) x := by
  intro i hi j hj
  rw [relax_apply]
  split_ifs
  · refine le_min (h i hi j hj) ?_
    calc ((x j - x i : K) : WithTop K) = ((x k - x i : K) : WithTop K) + (x j - x k : K) := by
          rw [← WithTop.coe_add, add_comm, sub_add_sub_cancel]
      _ ≤ d i k + d k j := add_le_add (h i hi k hk) (h k hk j hj)
  · exact h i hi j hj

theorem Satisfies.round (h : Satisfies n d x) (hk : k < n) : Satisfies n (round n d k) x := by
  unfold FloydWarshall.round
  generalize product (range n) (range n) = ps
  induction ps generalizing d with
  | nil => exact h
  | cons p ps ih => exact ih (h.relax hk p)

theorem Satisfies.floydWarshall (h : Satisfies n d x) : Satisfies n (floydWarshall n d) x := by
  have hrange : ∀ k ∈ range n, k < n := fun k => mem_range.mp
  unfold FloydWarshall.floydWarshall
  generalize range n = ks at hrange
  induction ks generalizing d with
  | nil => exact h
  | cons k ks ih =>
    exact ih (h.round (hrange k (by simp))) fun k' hk' => hrange k' (by simp [hk'])

/-- There is an assignment in which everything is as early as the distances to `o` allow. -/
theorem Closed.exists_earliest (h : Closed n D) (ho : o < n) :
    ∃ x, Satisfies n D x ∧ ∀ i < n, ∀ q : K, D i o = q → x i = -q := by
  have hfinite : ∀ i, ∃ q : K, i < n → rowMin n D i = q := by
    intro i
    by_cases hi : i < n
    · have hle : rowMin n D i ≤ ((0 : K) : WithTop K) :=
        (Finset.inf_le (Finset.mem_range.mpr hi)).trans (h.diagonal i hi).le
      obtain ⟨q, hq, -⟩ := WithTop.le_coe_iff.mp hle
      exact ⟨q, fun _ => hq⟩
    · exact ⟨0, fun hi' => absurd hi' hi⟩
  choose r hr using hfinite
  -- a bound on how early things are that have no distance to `o`
  obtain ⟨C, hC⟩ : ∃ C : K, ∀ i < n, ∀ q : K, D i o = q → q ≤ C + r i := by
    have hbound : ∀ i, ∃ b : K, ∀ q : K, D i o = q → q - r i ≤ b := by
      intro i
      cases hi : D i o with
      | top => exact ⟨0, fun q hq => by cases hq⟩
      | coe q₀ => exact ⟨q₀ - r i, fun q hq => by rw [WithTop.coe_injective hq]⟩
    choose b hb using hbound
    obtain ⟨C, hC⟩ := ((Finset.range n).image b).exists_le
    refine ⟨C, fun i hi q hq => sub_le_iff_le_add.mp ((hb i q hq).trans (hC _ ?_))⟩
    exact Finset.mem_image_of_mem b (Finset.mem_range.mpr hi)
  have hmin : ∀ i, ∃ q : K, i < n → min (D i o) ((C : WithTop K) + rowMin n D i) = q := by
    intro i
    by_cases hi : i < n
    · have hle : min (D i o) ((C : WithTop K) + rowMin n D i) ≤ ((C + r i : K) : WithTop K) := by
        rw [hr i hi]
        exact min_le_right _ _
      obtain ⟨q, hq, -⟩ := WithTop.le_coe_iff.mp hle
      exact ⟨q, fun _ => hq⟩
    · exact ⟨0, fun hi' => absurd hi' hi⟩
  choose x hx using hmin
  refine ⟨fun i => -x i, fun i hi j hj => ?_, fun i hi q hq => ?_⟩
  · have hle : ((x i : K) : WithTop K) ≤ D i j + x j := by
      rw [← hx i hi, ← hx j hj, ← min_add_add_left]
      refine min_le_min (h.triangle i hi o ho j hj) ?_
      rw [add_left_comm]
      exact add_le_add_right (h.rowMin_le hi hj) _
    cases hij : D i j with
    | top => exact le_top
    | coe w =>
      rw [hij, ← WithTop.coe_add, WithTop.coe_le_coe] at hle
      rw [WithTop.coe_le_coe, neg_sub_neg]
      exact sub_le_iff_le_add.mpr hle
  · have hxi := hx i hi
    rw [hq, hr i hi, ← WithTop.coe_add, min_eq_left (WithTop.coe_le_coe.mpr (hC i hi q hq))] at hxi
    rw [WithTop.coe_injective hxi]

/-- There is an assignment in which everything is as late as the distances from `o` allow. -/
theorem Closed.exists_latest (h : Closed n D) (ho : o < n) :
    ∃ x, Satisfies n D x ∧ ∀ i < n, ∀ q : K, D o i = q → x i = q := by
  obtain ⟨x, hx, heq⟩ := h.transpose.exists_earliest ho
  refine ⟨fun i => -x i, fun i hi j hj => ?_, fun i hi q hq => ?_⟩
  · have hle := hx j hj i hi
    rwa [← neg_sub_neg] at hle
  · simp only [heq i hi q hq, neg_neg]

/-- Without a negative entry in its diagonal the result is a closed matrix. -/
theorem closed_floydWarshall (hzero : ∀ i < n, floydWarshall n d i i = 0) :
    Closed n (floydWarshall n d) :=
  ⟨hzero, fun _ hi _ hj _ hk => floydWarshall_triangle (fun i hi => (hzero i hi).ge) hi hj hk⟩

/-- If nothing is bounded relative to itself, the diagonal tells whether all bounds can be
satisfied. -/
theorem floydWarshall_diagonal_iff (hdiag : ∀ i < n, d i i = 0) :
    (∀ i < n, floydWarshall n d i i = 0) ↔ ∃ x, Satisfies n d x := by
  constructor
  · intro hzero
    rcases Nat.eq_zero_or_pos n with rfl | hn
    · exact ⟨0, fun i hi => absurd hi (Nat.not_lt_zero i)⟩
    · obtain ⟨x, hx, -⟩ := (closed_floydWarshall hzero).exists_earliest hn
      exact ⟨x, hx.of_floydWarshall⟩
  · rintro ⟨x, hx⟩ i hi
    refine le_antisymm ((floydWarshall_le n d i i).trans (hdiag i hi).le) ?_
    have hle := hx.floydWarshall i hi i hi
    rwa [sub_self] at hle

end Bounds

end Sola.Lib.FloydWarshall
