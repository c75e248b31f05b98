import Sola.Minhton.FindEnd
import Sola.Minhton.RoutingLayout

/-!
Where requests for the end of the tree go.

The tree has full levels up to `P`, and its level `P + 1` holds the first
`count` positions.  A join looks for the parent of the position after the
last one, a leave for the parent of the last one.  Each lemma says what one
decision function answers at a node whose slots show this tree.
-/

namespace Sola.Minhton

open Sola.Lib.MaryTree Sola.Lib.Distances RoutingInformation List Nat

/-- The routing information `ri` of the node at `p` holds the view `v` in its
slots, on a level where its tables are read in order.  The child table may be
out of order if it is empty. -/
structure ReadsView (m : ℕ) (v : Pos → Option Address) (p : Pos)
    (ri : RoutingInformation) : Prop where
  fanout : isFanoutValid m = true
  valid : p.Valid m
  small : Small m p.level
  readable : Small m (p.level + 1) ∨ ∀ q : Pos, q.level = p.level + 1 → v q = none
  view : ∃ address left right, ri = .ofView m p address v left right

/-- An adjacent slot shows an existing node or nothing. -/
def ShownAdjacent (v : Pos → Option Address) (n : NodeInfo) : Prop :=
  n = .none ∨ ∃ q, n = slot v q ∧ (v q).isSome = true

/-- The adjacents of the node are in the view, too. -/
structure Shows (m : ℕ) (v : Pos → Option Address) (p : Pos)
    (ri : RoutingInformation) : Prop extends ReadsView m v p ri where
  adjacentLeft : ShownAdjacent v ri.adjacentLeft
  adjacentRight : ShownAdjacent v ri.adjacentRight

namespace ReadsView

variable {m : ℕ} {v : Pos → Option Address} {p : Pos} {ri : RoutingInformation}
  (h : ReadsView m v p ri)
include h

theorem two_le : 2 ≤ m := (isFanoutValid_iff.mp h.fanout).1

theorem fits : Fits m p.level := Small.fits h.fanout h.small

theorem self_level : ri.selfNodeInfo.level = p.level := by
  obtain ⟨_, _, _, rfl⟩ := h.view
  rfl

theorem self_number : ri.selfNodeInfo.number = p.number := by
  obtain ⟨_, _, _, rfl⟩ := h.view
  rfl

theorem self_isValidPeer : ri.selfNodeInfo.isValidPeer = true := by
  obtain ⟨_, _, _, rfl⟩ := h.view
  rfl

theorem parent (hl : p.level ≠ 0) : ri.parent = slot v (p.parent m) := by
  obtain ⟨_, _, _, rfl⟩ := h.view
  simp [ofView, hl]

theorem children : ri.children = (childPositions m p).map (slot v) := by
  obtain ⟨_, _, _, rfl⟩ := h.view
  rfl

theorem leftNeighbors : ri.leftNeighbors = (leftNumbers m p).map fun k => slot v ⟨p.level, k⟩ := by
  obtain ⟨a, l, r, rfl⟩ := h.view
  exact leftNeighbors_ofView h.fanout h.valid a v l r h.small

theorem rightNeighbors :
    ri.rightNeighbors = (rightNumbers m p).map fun k => slot v ⟨p.level, k⟩ := by
  obtain ⟨a, l, r, rfl⟩ := h.view
  exact rightNeighbors_ofView h.fanout h.valid a v l r h.small

theorem leftNeighborChildren (hs : Small m (p.level + 1)) :
    ri.leftNeighborChildren m = childSlots m p v (leftNumbers m p) := by
  obtain ⟨a, l, r, rfl⟩ := h.view
  exact leftNeighborChildren_ofView h.fanout h.valid a v l r hs

theorem rightNeighborChildren (hs : Small m (p.level + 1)) :
    ri.rightNeighborChildren m = childSlots m p v (rightNumbers m p) := by
  obtain ⟨a, l, r, rfl⟩ := h.view
  exact rightNeighborChildren_ofView h.fanout h.valid a v l r hs

/-- Every neighbor child stands for a position on the level below. -/
theorem mem_neighborChildren {n : NodeInfo} (hn : n ∈ ri.routingTableNeighborChildren) :
    ∃ q : Pos, q.level = p.level + 1 ∧ n = slot v q := by
  obtain ⟨a, l, r, rfl⟩ := h.view
  obtain ⟨q, hq, rfl⟩ := mem_map.mp hn
  exact ⟨q, level_of_mem_tableChildLayout hq, rfl⟩

theorem areChildrenFull_iff :
    ri.areChildrenFull = true ↔ ∀ c < m, (v (p.child m c)).isSome = true := by
  simp only [areChildrenFull, h.children, childPositions, any_map,
    Bool.not_eq_true', any_eq_false, mem_range, Function.comp_apply, map_map]
  simp [Option.isSome_iff_ne_none]

theorem initializedChildren :
    ri.initializedChildren = ((childPositions m p).filter fun q => (v q).isSome).map (slot v) := by
  simp only [RoutingInformation.initializedChildren, h.children, filter_map]
  rfl

theorem leftNeighbors_isEmpty : ri.leftNeighbors.isEmpty = decide (p.number = 0) := by
  have hnil := leftNumbers_eq_nil_iff h.fanout h.fits h.valid
  rw [h.leftNeighbors]
  by_cases h0 : p.number = 0
  · simp [hnil.mpr h0, h0]
  · have hne : leftNumbers m p ≠ [] := fun h' => h0 (hnil.mp h')
    simp [h0, hne]

/-! ### The left neighbor has its last child -/

theorem lastLeftChild (hn : 0 < p.number) :
    (!(ri.leftNeighborChildren m).isEmpty &&
      ((ri.leftNeighborChildren m).getLastD .none).isInitialized) =
      (v ⟨p.level + 1, p.number * m - 1⟩).isSome := by
  have hm2 := h.two_le
  rcases h.readable with hsmall | hnone
  · -- the last of the left children is the last child of the left neighbor
    have hlast := childSlots_getLast? (m := m) (p := p) (v := v) (by omega)
      (leftNumbers_getLast? h.fanout h.fits h.valid hn)
    have hnum : (p.number - 1) * m + (m - 1) = p.number * m - 1 := by
      rw [Nat.sub_mul, Nat.one_mul]
      have : 1 * m ≤ p.number * m := Nat.mul_le_mul_right m hn
      omega
    rw [hnum] at hlast
    have hne : childSlots m p v (leftNumbers m p) ≠ [] := by
      intro hnil; simp [hnil] at hlast
    rw [h.leftNeighborChildren hsmall, getLastD_eq_getLast?, hlast]
    simp [hne]
  · rw [hnone _ rfl]
    rcases eq_nil_or_concat (ri.leftNeighborChildren m) with hnil | ⟨l, a, hla⟩
    · simp [hnil]
    · have ha : a ∈ ri.leftNeighborChildren m := by rw [hla]; simp
      obtain ⟨q, hq, rfl⟩ := h.mem_neighborChildren (mem_of_mem_take ha)
      rw [hla]
      simp [hnone q hq]

theorem isCorrectParent_eq (join : Bool) :
    ri.isCorrectParent m join =
      ((decide (p.number = 0) || (v ⟨p.level + 1, p.number * m - 1⟩).isSome) &&
        ri.ownCriteria m join) := by
  unfold isCorrectParent
  rw [h.leftNeighbors_isEmpty]
  by_cases h0 : p.number = 0
  · simp [h0]
  · simp only [h0, decide_false, Bool.false_eq_true, if_false, Bool.false_or]
    rw [h.lastLeftChild (Nat.pos_of_ne_zero h0)]
    cases (v ⟨p.level + 1, p.number * m - 1⟩).isSome <;> simp

/-! ### The outermost neighbors -/

theorem rightmostNeighbor_eq {y : ℕ} (hy : (rightNumbers m p).getLast? = some y) :
    ri.rightmostNeighbor = slot v ⟨p.level, y⟩ := by
  unfold rightmostNeighbor
  rw [h.rightNeighbors, getLastD_eq_getLast?, getLast?_map, hy]
  rfl

theorem rightmostNeighbor_eq_none (hn : m ^ p.level ≤ p.number + 1) :
    ri.rightmostNeighbor = .none := by
  unfold rightmostNeighbor
  rw [h.rightNeighbors, (rightNumbers_eq_nil_iff h.fanout h.fits).mpr hn]
  rfl

/-- A node that is not at the right edge has a rightmost neighbor. -/
theorem exists_rightmost (hn : p.number + 1 < m ^ p.level) :
    ∃ y, (rightNumbers m p).getLast? = some y ∧ p.number < y ∧ y < m ^ p.level := by
  have hne : rightNumbers m p ≠ [] := fun hnil => by
    have := (rightNumbers_eq_nil_iff h.fanout h.fits).mp hnil
    omega
  refine ⟨_, getLast?_eq_some_getLast hne, ?_⟩
  have hmem := (mem_rightNumbers h.fanout h.fits).mp (getLast_mem hne)
  exact ⟨hmem.1, hmem.2.1⟩

theorem exists_leftmost (hn : 0 < p.number) :
    ∃ x, (leftNumbers m p).head? = some x ∧ x < p.number ∧ x ∈ leftNumbers m p := by
  have hne : leftNumbers m p ≠ [] := fun hnil => by
    have := (leftNumbers_eq_nil_iff h.fanout h.fits h.valid).mp hnil
    omega
  refine ⟨_, head?_eq_some_head hne, ?_, head_mem hne⟩
  exact ((mem_leftNumbers h.fanout h.fits h.valid).mp (head_mem hne)).1

/-- The leftmost neighbor is at the distance of the leading digit. -/
theorem leftmost_shorter (hn : 0 < p.number) {x : ℕ} (hx : (leftNumbers m p).head? = some x) :
    Shorter m x p.number := by
  have hmem := fun k => mem_leftNumbers (k := k) h.fanout h.fits h.valid
  obtain ⟨hlt, -⟩ := (hmem x).mp (mem_of_mem_head? hx)
  have hshorter : Shorter m (p.number - (p.number - x)) p.number := by
    refine sub_shorter h.two_le hn fun δ hδ hle => ?_
    have hpos := hδ.pos (by have := h.two_le; omega)
    have hδmem : p.number - δ ∈ leftNumbers m p :=
      (hmem _).mpr ⟨by omega, by rwa [Nat.sub_sub_self hle]⟩
    have := head?_le (leftNumbers_pairwise h.fanout h.fits h.valid) hx hδmem
    omega
  rwa [Nat.sub_sub_self hlt.le] at hshorter

/-- From the rightmost neighbor there are fewer digits to the right edge. -/
theorem rightmost_shorter (hn : p.number + 1 < m ^ p.level) {y : ℕ}
    (hy : (rightNumbers m p).getLast? = some y) :
    Shorter m (m ^ p.level - 1 - y) (m ^ p.level - 1 - p.number) := by
  have hmem := fun k => mem_rightNumbers (k := k) h.fanout h.fits (p := p)
  obtain ⟨hlt, hedge, -⟩ := (hmem y).mp (mem_of_getLast? hy)
  have hshorter : Shorter m (m ^ p.level - 1 - p.number - (y - p.number))
      (m ^ p.level - 1 - p.number) := by
    refine sub_shorter h.two_le (by omega) fun δ hδ hle => ?_
    have hpos := hδ.pos (by have := h.two_le; omega)
    have hδmem : p.number + δ ∈ rightNumbers m p :=
      (hmem _).mpr ⟨by omega, by omega, by rwa [Nat.add_sub_cancel_left]⟩
    have := le_getLast? (rightNumbers_pairwise h.fanout h.fits) hy hδmem
    omega
  have heq : m ^ p.level - 1 - p.number - (y - p.number) = m ^ p.level - 1 - y := by omega
  rwa [heq] at hshorter

end ReadsView

/-! ### Known neighbors -/

namespace Shows

variable {m : ℕ} {v : Pos → Option Address} {p : Pos} {ri : RoutingInformation}
  (h : Shows m v p ri)
include h

/-- Every known neighbor exists. -/
theorem mem_known (hparent : p.level ≠ 0 → (v (p.parent m)).isSome = true) {n : NodeInfo}
    (hn : n ∈ ri.getAllUniqueKnownExistingNeighbors) : ∃ q, n = slot v q ∧ (v q).isSome = true := by
  have hl := h.adjacentLeft
  have hr := h.adjacentRight
  obtain ⟨a, l, r, rfl⟩ := h.view
  have hshown : ∀ {a : NodeInfo}, ShownAdjacent v a → a.isInitialized = true →
      ∃ q, a = slot v q ∧ (v q).isSome = true := by
    rintro a (rfl | hq) hinit
    · cases hinit
    · exact hq
  have hmap : ∀ {ps : List Pos}, n ∈ ps.map (slot v) → n.isInitialized = true →
      ∃ q, n = slot v q ∧ (v q).isSome = true := by
    intro ps hps hinit
    obtain ⟨q, -, rfl⟩ := mem_map.mp hps
    exact ⟨q, rfl, hinit⟩
  rcases known_cases hn with
    ⟨hlevel, rfl⟩ | ⟨hinit, rfl | rfl | hn | hn | hn⟩
  · have hlevel' : p.level ≠ 0 := hlevel
    exact ⟨p.parent m, if_neg hlevel', hparent hlevel'⟩
  · exact hshown hl hinit
  · exact hshown hr hinit
  · exact hmap hn hinit
  · exact hmap hn hinit
  · exact hmap hn hinit

/-- An existing routing table neighbor is known. -/
theorem table_known {k : ℕ} (hk : k ∈ leftNumbers m p ++ rightNumbers m p)
    (hv : (v ⟨p.level, k⟩).isSome = true) :
    slot v ⟨p.level, k⟩ ∈ ri.getAllUniqueKnownExistingNeighbors := by
  obtain ⟨a, l, r, rfl⟩ := h.view
  refine neighbor_known (mem_map.mpr ⟨⟨p.level, k⟩, ?_, rfl⟩)
    (by simpa using hv)
  rw [tableLayout_eq h.fanout h.valid h.small]
  exact mem_map.mpr ⟨k, hk, rfl⟩

/-- Looking up a position finds the existing node there or nothing. -/
theorem getNodeInfoByPosition_cases (hparent : p.level ≠ 0 → (v (p.parent m)).isSome = true)
    {q : Pos} (hq : q.Valid m) :
    ri.getNodeInfoByPosition m q = .ok .none ∧
        slot v q ∉ ri.getAllUniqueKnownExistingNeighbors ∨
      ri.getNodeInfoByPosition m q = .ok (slot v q) ∧ (v q).isSome = true := by
  rcases RoutingInformation.getNodeInfoByPosition_cases h.self_isValidPeer
    ((isPositionValid_iff h.fanout).mpr hq) with ⟨n, hn, hpos, hlookup⟩ | ⟨hnone, hlookup⟩
  · obtain ⟨q', rfl, hv⟩ := h.mem_known hparent hn
    obtain rfl : q' = q := hpos
    exact .inr ⟨hlookup, hv⟩
  · exact .inl ⟨hlookup, fun hmem => hnone _ hmem rfl⟩

/-! ### Searching without children -/

theorem filter_leftNeighbors (hall : ∀ k < p.number, (v ⟨p.level, k⟩).isSome = true) :
    ri.leftNeighbors.filter (·.isInitialized) = ri.leftNeighbors := by
  rw [filter_eq_self, h.leftNeighbors]
  intro n hn
  obtain ⟨k, hk, rfl⟩ := mem_map.mp hn
  exact hall k ((mem_leftNumbers h.fanout h.fits h.valid).mp hk).1

/-- To the left are neighbors, but none of their children exists: go to the
leftmost one. -/
theorem searchEnd_left_childless (join : Bool) (hn : 0 < p.number)
    (hall : ∀ k < p.number, (v ⟨p.level, k⟩).isSome = true)
    (hnone : (ri.leftNeighborChildren m).filter (·.isInitialized) = []) :
    ∃ x < p.number, x ∈ leftNumbers m p ∧ (leftNumbers m p).head? = some x ∧
      ri.searchEndOnLevel m join true =
        .ok (.forward (slot v ⟨p.level, x⟩) .kSearchLeft) := by
  obtain ⟨x, hx, hxlt, hxmem⟩ := h.exists_leftmost hn
  have hchosen : ri.initializedLeftNeighborsAndChildren m = ri.leftNeighbors := by
    unfold initializedLeftNeighborsAndChildren
    rw [filter_append, hnone, append_nil, h.filter_leftNeighbors hall]
  have hlast : ri.leftNeighbors.getLast? = some (slot v ⟨p.level, p.number - 1⟩) := by
    rw [h.leftNeighbors, getLast?_map,
      leftNumbers_getLast? h.fanout h.fits h.valid hn]
    rfl
  have hhead : ri.leftNeighbors.headD .none = slot v ⟨p.level, x⟩ := by
    rw [h.leftNeighbors, headD_eq_head?_getD, head?_map, hx]
    rfl
  refine ⟨x, hxlt, hxmem, hx, ?_⟩
  unfold searchEndOnLevel
  simp only [h.self_isValidPeer, Bool.not_true, Bool.false_eq_true, if_false, if_true,
    hchosen, hlast, hhead, slot_level, h.self_level, SearchProgress.ofBool, Bool.and_false]

end Shows

/-! ### The parent of the end -/

/-- The view `v` shows the tree with full levels up to `P` and the first
`count` positions of level `P + 1`. -/
structure ShowsTree (m P count : ℕ) (v : Pos → Option Address) : Prop where
  count_le : count ≤ m ^ (P + 1)
  isSome_iff : ∀ q : Pos, q.Valid m →
    ((v q).isSome = true ↔ q.level ≤ P ∨ q.level = P + 1 ∧ q.number < count)

/-- The first `count` positions of the last level exist. -/
theorem ShowsTree.isSome_last {m P count : ℕ} {v : Pos → Option Address}
    (ht : ShowsTree m P count v) {k : ℕ} (hk : k < count) :
    (v ⟨P + 1, k⟩).isSome = true :=
  (ht.isSome_iff ⟨P + 1, k⟩ (lt_of_lt_of_le hk ht.count_le)).mpr (Or.inr ⟨rfl, hk⟩)

/-- The number of the parent that a join or a leave looks for. -/
def endParent (m count : ℕ) (join : Bool) : ℕ :=
  if join then count / m else (count - 1) / m

section Tree

variable {m P count : ℕ} {v : Pos → Option Address} (ht : ShowsTree m P count v)
  {n : ℕ} {ri : RoutingInformation} (h : Shows m v ⟨P, n⟩ ri)
include ht h

theorem ShowsTree.child_isSome_iff {c : ℕ} (hc : c < m) :
    (v ⟨P + 1, n * m + c⟩).isSome = true ↔ n * m + c < count := by
  have hvalid : (⟨P + 1, n * m + c⟩ : Pos).Valid m := h.valid.child hc
  rw [ht.isSome_iff _ hvalid]
  simp

theorem ShowsTree.small_below (hcount : 0 < count) : Small m (P + 1) := by
  refine h.readable.resolve_right fun hnone => ?_
  have hm2 := h.two_le
  have hvalid : (⟨P + 1, 0⟩ : Pos).Valid m := Nat.pow_pos (by omega)
  have hsome := (ht.isSome_iff _ hvalid).mpr (Or.inr ⟨rfl, hcount⟩)
  simp [hnone ⟨P + 1, 0⟩ rfl] at hsome

theorem ShowsTree.areChildrenFull_iff :
    ri.areChildrenFull = true ↔ (n + 1) * m ≤ count := by
  have hm2 := h.two_le
  rw [h.areChildrenFull_iff, Nat.add_mul, Nat.one_mul]
  constructor
  · intro hall
    have := (ht.child_isSome_iff h (by omega : m - 1 < m)).mp (hall (m - 1) (by omega))
    omega
  · intro hle c hc
    exact (ht.child_isSome_iff h hc).mpr (by omega)

theorem ShowsTree.hasChildren_iff :
    ri.initializedChildren.isEmpty = false ↔ n * m < count := by
  have hm2 := h.two_le
  rw [h.initializedChildren, ← Bool.not_eq_true, List.isEmpty_iff, map_eq_nil_iff,
    filter_eq_nil_iff]
  simp only [childPositions, mem_map, mem_range, not_forall]
  constructor
  · rintro ⟨q, ⟨c, hc, rfl⟩, hsome⟩
    have := (ht.child_isSome_iff h hc).mp (not_not.mp hsome)
    omega
  · intro hlt
    refine ⟨_, ⟨0, by omega, rfl⟩, not_not.mpr ?_⟩
    exact (ht.child_isSome_iff h (by omega)).mpr hlt

/-- No child of a node to the right exists. -/
theorem ShowsTree.noRightNeighborChildren_iff (hcount : 0 < count) :
    ((ri.rightNeighborChildren m).isEmpty ||
        !((ri.rightNeighborChildren m).headD .none).isInitialized) = true ↔
      count ≤ (n + 1) * m := by
  have hm2 := h.two_le
  rw [h.rightNeighborChildren (ht.small_below h hcount)]
  by_cases hedge : n + 1 < m ^ P
  · have hhead := childSlots_head? (m := m) (p := ⟨P, n⟩) (v := v) (by omega)
      (rightNumbers_head? h.fanout h.fits hedge)
    have hne : childSlots m ⟨P, n⟩ v (rightNumbers m ⟨P, n⟩) ≠ [] := by
      intro hnil; simp [hnil] at hhead
    have hvalid : (⟨P + 1, (n + 1) * m⟩ : Pos).Valid m := by
      have : (n + 1) * m < m ^ P * m := Nat.mul_lt_mul_of_pos_right hedge (by omega)
      simpa [Pos.Valid, pow_succ] using this
    have hiff := ht.isSome_iff _ hvalid
    rw [headD_eq_head?_getD, hhead]
    simp only [Bool.or_eq_true, List.isEmpty_iff, hne, false_or, Option.getD_some,
      slot_isInitialized, Bool.not_eq_true', ← Bool.not_eq_true, hiff]
    simp
  · have hnil : rightNumbers m ⟨P, n⟩ = [] :=
      (rightNumbers_eq_nil_iff h.fanout h.fits).mpr (not_lt.mp hedge)
    have hle : count ≤ (n + 1) * m := by
      refine le_trans ht.count_le ?_
      rw [pow_succ]
      exact Nat.mul_le_mul_right m (not_lt.mp hedge)
    simp [hnil, childSlots, hle]

variable {join : Bool} {numbers : List ℕ}

theorem ShowsTree.ownCriteria_iff (hleave : join = false → 0 < count) :
    ri.ownCriteria m join = true ↔
      if join then count < (n + 1) * m else n * m < count ∧ count ≤ (n + 1) * m := by
  unfold ownCriteria
  cases join with
  | true =>
    have hfull := ht.areChildrenFull_iff h
    simp only [if_true, Bool.not_eq_true', ← Bool.not_eq_true, hfull]
    omega
  | false =>
    have hright := ht.noRightNeighborChildren_iff h (hleave rfl)
    have hchildren := ht.hasChildren_iff h
    simp only [Bool.false_eq_true, if_false, Bool.and_eq_true, hright, Bool.not_eq_true',
      hchildren]

/-- Only the parent of the end takes itself for it. -/
theorem ShowsTree.isCorrectParent_iff (hleave : join = false → 0 < count) :
    ri.isCorrectParent m join = true ↔ n = endParent m count join := by
  have hm2 := h.two_le
  have hown := ht.ownCriteria_iff h hleave
  have hlast : n ≠ 0 → ((v ⟨P + 1, n * m - 1⟩).isSome = true ↔ n * m ≤ count) := by
    intro hn
    have hpos : 1 * m ≤ n * m := Nat.mul_le_mul_right m (Nat.pos_of_ne_zero hn)
    have hvalid : (⟨P + 1, n * m - 1⟩ : Pos).Valid m := by
      have : n * m ≤ m ^ P * m := Nat.mul_le_mul_right m (le_of_lt h.valid)
      show n * m - 1 < m ^ (P + 1)
      rw [pow_succ]
      omega
    rw [ht.isSome_iff _ hvalid]
    show (P + 1 ≤ P ∨ P + 1 = P + 1 ∧ n * m - 1 < count) ↔ n * m ≤ count
    omega
  have hbound : (decide (n = 0) || (v ⟨P + 1, n * m - 1⟩).isSome) = true ↔ n * m ≤ count := by
    by_cases hn : n = 0
    · simp [hn]
    · simp [hn, hlast hn]
  rw [h.isCorrectParent_eq, Bool.and_eq_true, hown]
  simp only [hbound]
  unfold endParent
  cases join with
  | true =>
    simp only [if_true]
    rw [eq_comm, Nat.div_eq_iff (by omega : 0 < m), Nat.add_mul, Nat.one_mul]
    omega
  | false =>
    have hpos := hleave rfl
    simp only [Bool.false_eq_true, if_false]
    rw [eq_comm, Nat.div_eq_iff (by omega : 0 < m), Nat.add_mul, Nat.one_mul]
    omega

omit h in
theorem ShowsTree.parent_isSome {p : Pos} (hp : p.Valid m) (hl : p.level ≠ 0)
    (hle : p.level ≤ P + 1) : (v (p.parent m)).isSome = true := by
  rw [ht.isSome_iff _ (hp.parent hl)]
  left
  simp only [Pos.parent_level]
  omega

/-! ### Searching on the level of the parents -/

/-- Going from a number whose parent may be unknown to one whose parent is a
routing table neighbor. -/
theorem ShowsTree.closestToParentLoop_found {z childNumber : ℕ} (rounds : ℕ)
    (hvalid : childNumber < m ^ (P + 1)) (hz : z ∈ leftNumbers m ⟨P, n⟩ ++ rightNumbers m ⟨P, n⟩)
    (hzv : (v ⟨P, z⟩).isSome = true)
    (hnear : childNumber / m = z ∨ childNumber / m = z + 1) :
    ∃ w, ri.closestToParentLoop m (P + 1) (rounds + 2) childNumber = .ok (slot v ⟨P, w⟩) ∧
      (v ⟨P, w⟩).isSome = true ∧ z ≤ w ∧ w ≤ childNumber / m := by
  have hm2 := h.two_le
  have hparent := fun hl => ht.parent_isSome (p := ⟨P, n⟩) h.valid hl (le_succ P)
  have hknown := h.table_known hz hzv
  -- one round: the parent of `k` is found or unknown
  have hround : ∀ k r, k < m ^ (P + 1) →
      (ri.closestToParentLoop m (P + 1) (r + 1) k = .ok (slot v ⟨P, k / m⟩) ∧
        (v ⟨P, k / m⟩).isSome = true) ∨
      (k / m ≠ z ∧ ri.closestToParentLoop m (P + 1) (r + 1) k =
        ri.closestToParentLoop m (P + 1) r (u32 (k + 2 ^ 32 - m))) := by
    intro k r hk
    have hcalc : calcParent m ⟨P + 1, k⟩ = .ok ⟨P, k / m⟩ :=
      calcParent_eq h.fanout (p := ⟨P + 1, k⟩) hk (by simp)
    have hkv : (⟨P, k / m⟩ : Pos).Valid m :=
      Nat.div_lt_of_lt_mul (by rw [pow_succ'] at hk; exact hk)
    rw [closestToParentLoop, hcalc]
    rcases h.getNodeInfoByPosition_cases hparent hkv with ⟨hget, hnot⟩ | ⟨hget, hsome⟩
    · right
      refine ⟨fun hkz => hnot (hkz ▸ hknown), ?_⟩
      simp [bind, Except.bind, hget]
    · left
      simp [bind, Except.bind, pure, Except.pure, hget, hsome]
  rcases hround childNumber (rounds + 1) hvalid with ⟨hfound, hsome⟩ | ⟨hne, hstep⟩
  · exact ⟨_, hfound, hsome, by omega, le_rfl⟩
  · have hquot : childNumber / m = z + 1 := hnear.resolve_left hne
    have hge : m ≤ childNumber := by
      by_contra hlt
      rw [div_eq_of_lt (not_le.mp hlt)] at hquot
      omega
    have h32 : childNumber < 2 ^ 32 := lt_of_lt_of_le hvalid h.fits
    have hu : u32 (childNumber + 2 ^ 32 - m) = childNumber - m := by
      have : childNumber + 2 ^ 32 - m = (childNumber - m) + 2 ^ 32 := by omega
      unfold u32
      rw [this, add_mod_right, mod_eq_of_lt (by omega)]
    have hz' : (childNumber - m) / m = z := by
      have := div_eq_sub_div (by omega : 0 < m) hge
      omega
    rw [hstep, hu]
    rcases hround (childNumber - m) rounds (by omega) with ⟨hfound, hsome⟩ | ⟨hne', -⟩
    · rw [hz'] at hfound hsome
      exact ⟨z, hfound, hsome, le_rfl, by omega⟩
    · exact absurd hz' hne'

/-- From an existing child of a routing table neighbor the search continues
at a node between that neighbor and the parent of the end. -/
theorem ShowsTree.findReachable_spec (hjoin : join = true → count < m ^ (P + 1)) {y : ℕ}
    (hy : y < count) (hz : y / m ∈ leftNumbers m ⟨P, n⟩ ++ rightNumbers m ⟨P, n⟩)
    (hzv : (v ⟨P, y / m⟩).isSome = true) :
    ∃ w, ri.findReachableNodeClosestToParent m join (slot v ⟨P + 1, y⟩) =
        .ok (slot v ⟨P, w⟩) ∧ (v ⟨P, w⟩).isSome = true ∧ y / m ≤ w ∧
      w ≤ endParent m count join := by
  have hm2 := h.two_le
  have hcount := ht.count_le
  show ∃ w, ri.closestToParentLoop m (P + 1) (2 ^ 32)
      (y + if (join && decide ((y + 1) % m = 0)) = true then 1 else 0) = _ ∧ _
  by_cases hright : join = true ∧ (y + 1) % m = 0
  · -- the end is below the next parent
    obtain ⟨rfl, hmod⟩ := hright
    have hquot : (y + 1) / m = y / m + 1 := by
      rw [Nat.succ_div, if_pos (dvd_of_mod_eq_zero hmod)]
    have hlt := hjoin rfl
    simp only [hmod, decide_true, Bool.and_self, if_true]
    obtain ⟨w, hw, hsome, hlo, hhi⟩ := ht.closestToParentLoop_found h (2 ^ 32 - 2)
      (by omega) hz hzv (Or.inr hquot)
    refine ⟨w, hw, hsome, hlo, le_trans hhi ?_⟩
    exact Nat.div_le_div_right hy
  · have hcond : (join && decide ((y + 1) % m = 0)) = false := by
      rw [← Bool.not_eq_true, Bool.and_eq_true, decide_eq_true_eq]
      exact hright
    simp only [hcond, Bool.false_eq_true, if_false, Nat.add_zero]
    obtain ⟨w, hw, hsome, hlo, hhi⟩ := ht.closestToParentLoop_found h (2 ^ 32 - 2)
      (by omega) hz hzv (Or.inl rfl)
    refine ⟨w, hw, hsome, hlo, le_trans hhi ?_⟩
    unfold endParent
    cases join with
    | true => exact Nat.div_le_div_right hy.le
    | false => exact Nat.div_le_div_right (by omega)

omit h in
/-- All positions on the level of the parents exist. -/
theorem ShowsTree.isSome_of_lt {k : ℕ} (hk : k < m ^ P) : (v ⟨P, k⟩).isSome = true :=
  (ht.isSome_iff ⟨P, k⟩ hk).mpr (Or.inl le_rfl)

/-- The existing children of neighbors are numbered below `count`. -/
theorem ShowsTree.mem_childSlots (hlt : ∀ k ∈ numbers, k < m ^ P) {y : NodeInfo}
    (hy : y ∈ childSlots m ⟨P, n⟩ v numbers) (hyi : y.isInitialized = true) :
    ∃ k < count, k / m ∈ numbers ∧ y = slot v ⟨P + 1, k⟩ := by
  have hm2 := h.two_le
  obtain ⟨k, hk, c, hc, rfl⟩ := RoutingInformation.mem_childSlots.mp hy
  have hvalid : (⟨P + 1, k * m + c⟩ : Pos).Valid m :=
    Pos.Valid.child (p := ⟨P, k⟩) (hlt k hk) hc
  have hlt' : k * m + c < count := by
    have := (ht.isSome_iff _ hvalid).mp hyi
    simpa using this
  refine ⟨k * m + c, hlt', ?_, rfl⟩
  rw [Nat.mul_comm, mul_add_div (by omega), div_eq_of_lt hc]
  exact hk

/-- One side of the neighbor children: none of them exists, or there is a
last one that does. -/
theorem ShowsTree.sideChildren_cases {side : List NodeInfo} (hsorted : numbers.Pairwise (· < ·))
    (hlt : ∀ k ∈ numbers, k < m ^ P)
    (hside : Small m (P + 1) → side = childSlots m ⟨P, n⟩ v numbers)
    (hsub : ∀ y ∈ side, y ∈ ri.routingTableNeighborChildren) :
    (∀ x ∈ numbers, count ≤ x * m) ∧ side.filter (·.isInitialized) = [] ∨
      ∃ l, ∃ k < count, k / m ∈ numbers ∧ (∀ x ∈ numbers, x * m < count → x ≤ k / m) ∧
        side.filter (·.isInitialized) = l ++ [slot v ⟨P + 1, k⟩] := by
  have hm2 := h.two_le
  -- every neighbor with children is represented by its first child
  have hfirst : ∀ x ∈ numbers, x * m < count →
      slot v ⟨P + 1, x * m⟩ ∈ side.filter (·.isInitialized) := by
    intro x hx hlt'
    have hsmall := ht.small_below h (lt_of_le_of_lt (Nat.zero_le _) hlt')
    have hvalid : (⟨P + 1, x * m + 0⟩ : Pos).Valid m :=
      Pos.Valid.child (p := ⟨P, x⟩) (hlt x hx) (by omega)
    refine mem_filter.mpr ⟨?_, (ht.isSome_iff _ hvalid).mpr (Or.inr ⟨rfl, hlt'⟩)⟩
    rw [hside hsmall]
    exact RoutingInformation.mem_childSlots.mpr ⟨x, hx, 0, by omega, rfl⟩
  rcases eq_nil_or_concat (side.filter (·.isInitialized)) with hnil | ⟨l, y, hly⟩
  · refine Or.inl ⟨fun x hx => ?_, hnil⟩
    by_contra hlt'
    have hmem := hfirst x hx (not_le.mp hlt')
    rw [hnil] at hmem
    cases hmem
  · right
    have hy : y ∈ side.filter (·.isInitialized) := by
      rw [hly]; simp
    obtain ⟨hyc, hyi⟩ := mem_filter.mp hy
    rcases h.readable with hsmall | hnone
    · rw [hside hsmall] at hyc
      obtain ⟨k, hk, hkm, rfl⟩ := ht.mem_childSlots h hlt hyc hyi
      rw [concat_eq_append] at hly
      refine ⟨l, k, hk, hkm, fun x hx hlt' => ?_, hly⟩
      have hmem := hfirst x hx hlt'
      have hpair : (side.filter (·.isInitialized)).Pairwise fun n n' => n.number < n'.number := by
        rw [hside hsmall]
        exact (childSlots_pairwise hsorted).filter _
      rw [hly] at hmem hpair
      rw [Nat.le_div_iff_mul_le (by omega)]
      rcases mem_append.mp hmem with hmem | hmem
      · have hlast := (pairwise_append.mp hpair).2.2 _ hmem (slot v ⟨P + 1, k⟩) (by simp)
        exact hlast.le
      · have heq := congrArg NodeInfo.number (mem_singleton.mp hmem)
        exact heq.le
    · obtain ⟨q, hq, rfl⟩ := h.mem_neighborChildren (hsub y hyc)
      simp [hnone q hq] at hyi

/-- Searching to the left ends up to the left at a node without children, or
not to the right of the parent of the end. -/
theorem ShowsTree.searchEnd_left (hjoin : join = true → count < m ^ (P + 1)) (hn : 0 < n) :
    (∃ x < n, Shorter m x n ∧ count ≤ x * m ∧ ri.searchEndOnLevel m join true =
        .ok (.forward (slot v ⟨P, x⟩) .kSearchLeft)) ∨
    ∃ w ≤ endParent m count join, (v ⟨P, w⟩).isSome = true ∧
      ri.searchEndOnLevel m join true = .ok (.forward (slot v ⟨P, w⟩) .kSearchRight) := by
  have hn' : n < m ^ P := h.valid
  have hall : ∀ k < n, (v ⟨P, k⟩).isSome = true := fun k hk =>
    ht.isSome_of_lt (lt_trans hk hn')
  have hnum : ∀ k ∈ leftNumbers m ⟨P, n⟩, k < m ^ P := fun k hk =>
    lt_trans ((mem_leftNumbers h.fanout h.fits h.valid).mp hk).1 hn'
  rcases ht.sideChildren_cases h (leftNumbers_pairwise h.fanout h.fits h.valid) hnum
    h.leftNeighborChildren (fun y hy => mem_of_mem_take hy) with
    ⟨hempty, hnil⟩ | ⟨l, k, hk, hkm, -, hfilter⟩
  · left
    obtain ⟨x, hx, hmem, hhead, hres⟩ := h.searchEnd_left_childless join hn hall hnil
    exact ⟨x, hx, h.leftmost_shorter hn hhead, hempty x hmem, hres⟩
  · right
    have hkn := ((mem_leftNumbers h.fanout h.fits h.valid).mp hkm).1
    obtain ⟨w, hw, hsome, -, hle⟩ := ht.findReachable_spec h hjoin hk
      (mem_append_left _ hkm) (hall _ hkn)
    have hlast : (ri.initializedLeftNeighborsAndChildren m).getLast? =
        some (slot v ⟨P + 1, k⟩) := by
      unfold initializedLeftNeighborsAndChildren
      rw [filter_append, hfilter, ← append_assoc, getLast?_concat]
    refine ⟨w, hle, hsome, ?_⟩
    unfold searchEndOnLevel
    simp [h.self_isValidPeer, hlast, h.self_level, hw, bind, Except.bind, pure, Except.pure]

omit ht in
/-- The largest right neighbor with children takes the leading digit away from
the distance to the parent of the end, which itself may have no children yet. -/
theorem Shows.sub_le_pow (hleave : join = false → 0 < count) {z w k : ℕ}
    (hend : endParent m count join < m ^ P) (hz : z ∈ rightNumbers m ⟨P, n⟩)
    (hmax : ∀ x ∈ rightNumbers m ⟨P, n⟩, x * m < count → x ≤ z) (hzw : z ≤ w)
    (hk : endParent m count join - n ≤ m ^ (k + 1)) : endParent m count join - w ≤ m ^ k := by
  have hm2 := h.two_le
  have hmem := fun x => mem_rightNumbers (k := x) h.fanout h.fits (p := ⟨P, n⟩)
  obtain ⟨hnz, -, -⟩ := (hmem z).mp hz
  have hpos : 0 < m ^ k := Nat.pow_pos (by omega)
  by_cases hone : endParent m count join - n ≤ 1
  · have hnz : n < z := hnz
    omega
  · have hshorter : Shorter m (endParent m count join - n - 1 - (z - n))
        (endParent m count join - n - 1) := by
      refine sub_shorter hm2 (by omega) fun δ hδ hle => ?_
      have hδpos := hδ.pos (by omega)
      have hchildren : (n + δ) * m < count := by
        have hle' : (n + δ + 1) * m ≤ endParent m count join * m :=
          Nat.mul_le_mul_right m (by omega)
        rw [Nat.add_mul, Nat.one_mul] at hle'
        unfold endParent at hle'
        cases join with
        | true =>
          have := div_mul_le_self count m
          simp only [if_true] at hle'
          omega
        | false =>
          have := div_mul_le_self (count - 1) m
          have := hleave rfl
          simp only [Bool.false_eq_true, if_false] at hle'
          omega
      have hδmem : n + δ ∈ rightNumbers m ⟨P, n⟩ :=
        (hmem _).mpr ⟨by dsimp only; omega, by dsimp only; omega,
          by rwa [Nat.add_sub_cancel_left]⟩
      have := hmax _ hδmem hchildren
      omega
    have := hshorter k (by omega)
    have hnz : n < z := hnz
    omega

/-- Searching to the right from the left of the parent of the end gets
closer to it. -/
theorem ShowsTree.searchEnd_right (hjoin : join = true → count < m ^ (P + 1))
    (hleave : join = false → 0 < count) (hn : n < endParent m count join) :
    ∃ w ≤ endParent m count join, n < w ∧
      (∀ k, endParent m count join - n ≤ m ^ (k + 1) → endParent m count join - w ≤ m ^ k) ∧
      (v ⟨P, w⟩).isSome = true ∧
      ri.searchEndOnLevel m join false = .ok (.forward (slot v ⟨P, w⟩) .kSearchRight) := by
  have hm2 := h.two_le
  have hcount := ht.count_le
  have hend : endParent m count join < m ^ P := by
    unfold endParent
    rw [pow_succ'] at hcount hjoin
    cases join with
    | true => exact Nat.div_lt_of_lt_mul (hjoin rfl)
    | false =>
      have := hleave rfl
      exact Nat.div_lt_of_lt_mul (by omega)
  have hedge : n + 1 < m ^ P := by omega
  have hnum : ∀ k ∈ rightNumbers m ⟨P, n⟩, k < m ^ P := fun k hk =>
    ((mem_rightNumbers h.fanout h.fits).mp hk).2.1
  have hhead := rightNumbers_head? h.fanout h.fits hedge
  have hself : ri.rightNeighbors.filter (·.isInitialized) = ri.rightNeighbors := by
    rw [filter_eq_self, h.rightNeighbors]
    intro y hy
    obtain ⟨k, hk, rfl⟩ := mem_map.mp hy
    exact ht.isSome_of_lt (hnum k hk)
  rcases ht.sideChildren_cases h (rightNumbers_pairwise h.fanout h.fits) hnum
    h.rightNeighborChildren (fun y hy => mem_of_mem_drop hy) with
    ⟨hempty, hnil⟩ | ⟨l, k, hk, hkm, hmax, hfilter⟩
  · -- no child to the right: the next node is the parent of the end
    have hnext := hempty (n + 1) (mem_of_mem_head? hhead)
    have hjoin' : join = true := by
      by_contra hne
      rw [Bool.not_eq_true] at hne
      subst hne
      have h1 : n + 1 ≤ (count - 1) / m := hn
      have h2 := Nat.mul_le_mul_right m h1
      have h3 := div_mul_le_self (count - 1) m
      have := hleave rfl
      omega
    subst hjoin'
    have hchosen : ri.initializedRightNeighborsAndChildren m = ri.rightNeighbors := by
      unfold initializedRightNeighborsAndChildren
      rw [filter_append, hnil, append_nil, hself]
    obtain ⟨y, hy, -, -⟩ := h.exists_rightmost hedge
    have hlast : ri.rightNeighbors.getLast? = some (slot v ⟨P, y⟩) := by
      rw [h.rightNeighbors, getLast?_map, hy]
      rfl
    have hfirst : ri.rightNeighbors.headD .none = slot v ⟨P, n + 1⟩ := by
      rw [h.rightNeighbors, headD_eq_head?_getD, head?_map, hhead]
      rfl
    have hle : endParent m count true ≤ n + 1 := by
      have := Nat.div_le_div_right (c := m) hnext
      rwa [Nat.mul_div_cancel _ (by omega : 0 < m)] at this
    refine ⟨n + 1, hn, by omega, fun k _ => by omega, ht.isSome_of_lt hedge, ?_⟩
    unfold searchEndOnLevel
    simp only [h.self_isValidPeer, Bool.not_true, Bool.false_and, Bool.false_eq_true, if_false,
      if_true, hchosen, hlast, hfirst, slot_level, h.self_level, SearchProgress.ofBool]
  · have hkn := ((mem_rightNumbers h.fanout h.fits).mp hkm).1
    obtain ⟨w, hw, hsome, hge, hle⟩ := ht.findReachable_spec h hjoin hk
      (mem_append_right _ hkm) (ht.isSome_of_lt (hnum _ hkm))
    have hlast : (ri.initializedRightNeighborsAndChildren m).getLast? =
        some (slot v ⟨P + 1, k⟩) := by
      unfold initializedRightNeighborsAndChildren
      rw [filter_append, hfilter, ← append_assoc, getLast?_concat]
    refine ⟨w, hle, lt_of_lt_of_le hkn hge, fun d hd => ?_, hsome, ?_⟩
    · exact h.sub_le_pow hleave hend hkm hmax hge hd
    unfold searchEndOnLevel
    simp [h.self_isValidPeer, hlast, h.self_level, hw, bind, Except.bind, pure, Except.pure]

/-! ### Deciding on the level of the parents -/

/-- The rightmost neighbor of a node on the level of the parents exists. -/
theorem ShowsTree.rightmost_cases (hn : n + 1 < m ^ P) :
    ∃ y, n < y ∧ y < m ^ P ∧ Shorter m (m ^ P - 1 - y) (m ^ P - 1 - n) ∧
      ri.rightmostNeighbor = slot v ⟨P, y⟩ ∧
      (v ⟨P, y⟩).isSome = true ∧
      (isRightmostPossibleNode m ri.rightmostNeighbor = true ↔
        y + 1 = m ^ P) := by
  obtain ⟨y, hy, hny, hylt⟩ := h.exists_rightmost hn
  have hylt' : y < m ^ P := hylt
  have hright := h.rightmostNeighbor_eq hy
  have hsome := ht.isSome_of_lt hylt'
  refine ⟨y, hny, hylt', h.rightmost_shorter hn hy, hright, hsome, ?_⟩
  rw [hright]
  simp only [isRightmostPossibleNode, slot_isInitialized, hsome,
    Bool.and_true, decide_eq_true_eq]
  show y = m ^ P - 1 ↔ _
  omega

theorem ShowsTree.checkRight_parents (join : Bool) (hn : n + 1 < m ^ P) :
    (∃ y, n < y ∧ y + 1 < m ^ P ∧ Shorter m (m ^ P - 1 - y) (m ^ P - 1 - n) ∧
        (v ⟨P, y⟩).isSome = true ∧
        ri.checkRight m join = .ok (.forward (slot v ⟨P, y⟩) .kCheckRight)) ∨
      ri.checkRight m join = ri.searchEndOnLevel m join true := by
  obtain ⟨y, hny, hylt, hshorter, hright, hsome, hiff⟩ := ht.rightmost_cases h hn
  unfold checkRight
  by_cases hpos : isRightmostPossibleNode m ri.rightmostNeighbor = true
  · right
    rw [hright] at hpos
    simp [hright, hpos, hsome, NodeInfo.isValidPeer]
  · left
    have hne : y + 1 ≠ m ^ P := fun he => hpos (hiff.mpr he)
    refine ⟨y, hny, by omega, hshorter, hsome, ?_⟩
    rw [hright] at hpos
    simp [hright, hpos, hsome, NodeInfo.isValidPeer]

/-- What a node with room for children on the level of the parents decides. -/
theorem ShowsTree.decideNextStep_parents (hleave : join = false → 0 < count)
    (hroom : count < (n + 1) * m) :
    (n = endParent m count join ∧ ri.decideNextStep m join = .ok .accept) ∨
      (0 < n ∧ ri.decideNextStep m join = ri.searchEndOnLevel m join true) ∨
      ∃ y, n < y ∧ y + 1 < m ^ P ∧ (v ⟨P, y⟩).isSome = true ∧
        ri.decideNextStep m join = .ok (.forward (slot v ⟨P, y⟩) .kCheckRight) := by
  have hn : n < m ^ P := h.valid
  have hcorrect := ht.isCorrectParent_iff h hleave
  have hnotfull : ri.areChildrenFull = false := by
    rw [← Bool.not_eq_true, ht.areChildrenFull_iff h]; omega
  have hzero : n = 0 → n = endParent m count join := by
    rintro rfl
    unfold endParent
    cases join with
    | true => exact (div_eq_of_lt (by omega)).symm
    | false => exact (div_eq_of_lt (by omega)).symm
  -- the decision on the right: accept, search to the left, or look further right
  have hfromRight : (n = endParent m count join ∧ ri.decideFromRight m join = .ok .accept) ∨
      (0 < n ∧ ri.decideFromRight m join = ri.searchEndOnLevel m join true) ∨
      ∃ y, n < y ∧ y + 1 < m ^ P ∧ (v ⟨P, y⟩).isSome = true ∧
        ri.decideFromRight m join = .ok (.forward (slot v ⟨P, y⟩) .kCheckRight) := by
    unfold decideFromRight
    by_cases hedge : n + 1 < m ^ P
    · obtain ⟨y, hny, hylt, -, hright, hsome, hiff⟩ := ht.rightmost_cases h hedge
      rw [hright] at hiff ⊢
      by_cases hpos : isRightmostPossibleNode m (slot v ⟨P, y⟩) = true
      · by_cases hc : ri.isCorrectParent m join = true
        · left
          exact ⟨hcorrect.mp hc, by simp [hpos, hsome, hc, NodeInfo.isValidPeer]⟩
        · right; left
          refine ⟨Nat.pos_of_ne_zero fun h0 => hc (hcorrect.mpr (hzero h0)), ?_⟩
          simp [hpos, hsome, hc, hnotfull, NodeInfo.isValidPeer]
      · right; right
        have hne : y + 1 ≠ m ^ P := fun he => hpos (hiff.mpr he)
        exact ⟨y, hny, by omega, hsome, by simp [hpos, hsome, NodeInfo.isValidPeer]⟩
    · have hright : ri.rightmostNeighbor = .none :=
        h.rightmostNeighbor_eq_none (not_lt.mp hedge)
      by_cases hc : ri.isCorrectParent m join = true
      · left
        exact ⟨hcorrect.mp hc, by simp [hright, hc, NodeInfo.isValidPeer, NodeInfo.none]⟩
      · right; left
        refine ⟨Nat.pos_of_ne_zero fun h0 => hc (hcorrect.mpr (hzero h0)), ?_⟩
        simp [hright, hc, NodeInfo.isValidPeer, NodeInfo.none]
  unfold decideNextStep
  by_cases hleft : (ri.leftmostNeighborChild m).isValidPeer = true
  · by_cases hc : ri.isCorrectParent m join = true
    · left
      exact ⟨hcorrect.mp hc, by simp [hleft, hc]⟩
    · by_cases hinit : (ri.leftmostNeighborChild m).isInitialized = true
      · right; left
        exact ⟨Nat.pos_of_ne_zero fun h0 => hc (hcorrect.mpr (hzero h0)),
          by simp [hleft, hc, hinit]⟩
      · simpa [hleft, hc, hinit] using hfromRight
  · simpa [hleft] using hfromRight

end Tree

/-! ### Nodes on the last level -/

section LastLevel

variable {m P count : ℕ} {v : Pos → Option Address} (ht : ShowsTree m P count v)
  {n : ℕ} {ri : RoutingInformation} (h : Shows m v ⟨P + 1, n⟩ ri)
include ht h

omit h in
theorem ShowsTree.none_below {q : Pos} (hq : q.Valid m) (hl : q.level = P + 2) :
    v q = none := by
  have hiff := ht.isSome_iff q hq
  cases hv : v q with
  | none => rfl
  | some a =>
    rw [hv] at hiff
    have := hiff.mp rfl
    omega

theorem ShowsTree.areChildrenFull_last : ri.areChildrenFull = false := by
  have hm2 := h.two_le
  rw [← Bool.not_eq_true, h.areChildrenFull_iff]
  intro hall
  have h0 := hall 0 (by omega)
  rw [ht.none_below (h.valid.child (by omega)) rfl] at h0
  simp at h0

theorem ShowsTree.leftChildren_last :
    (ri.leftNeighborChildren m).filter (·.isInitialized) = [] := by
  rw [filter_eq_nil_iff]
  intro y hy
  rcases h.readable with hsmall | hnone
  · rw [h.leftNeighborChildren hsmall] at hy
    obtain ⟨k, hk, c, hc, rfl⟩ := RoutingInformation.mem_childSlots.mp hy
    have hk' := ((mem_leftNumbers h.fanout h.fits h.valid).mp hk).1
    have hvalid : (⟨P + 1 + 1, k * m + c⟩ : Pos).Valid m :=
      Pos.Valid.child (p := ⟨P + 1, k⟩) (lt_trans hk' h.valid) hc
    simp [ht.none_below hvalid rfl]
  · obtain ⟨q, hq, rfl⟩ := h.mem_neighborChildren (mem_of_mem_take hy)
    simp [hnone q hq]

theorem ShowsTree.leftmostNeighborChild_last :
    (ri.leftmostNeighborChild m).isInitialized = false := by
  have hnil := ht.leftChildren_last h
  unfold leftmostNeighborChild
  cases hl : ri.leftNeighborChildren m with
  | nil => rfl
  | cons y l =>
    rw [hl, filter_eq_nil_iff] at hnil
    simpa using hnil y (by simp)

variable {join : Bool}

/-- A node on the last level is not the parent of anybody; only at the left
edge a join would be accepted. -/
theorem ShowsTree.isCorrectParent_last (hj : join = false ∨ 0 < n) :
    ri.isCorrectParent m join = false := by
  have hm2 := h.two_le
  rw [h.isCorrectParent_eq]
  rcases hj with rfl | hn
  · have hempty : ri.initializedChildren = [] := by
      rw [h.initializedChildren, map_eq_nil_iff, filter_eq_nil_iff]
      intro q hq
      obtain ⟨c, hc, rfl⟩ := mem_map.mp hq
      simp [ht.none_below (h.valid.child (mem_range.mp hc)) rfl]
    simp [ownCriteria, hempty]
  · have hpos : 1 * m ≤ n * m := Nat.mul_le_mul_right m hn
    have hvalid : (⟨P + 1 + 1, n * m - 1⟩ : Pos).Valid m := by
      have h1 : n < m ^ (P + 1) := h.valid
      have : n * m ≤ m ^ (P + 1) * m := Nat.mul_le_mul_right m h1.le
      show n * m - 1 < m ^ (P + 1 + 1)
      rw [pow_succ]
      omega
    have hne : n ≠ 0 := by omega
    simp [hne, ht.none_below hvalid rfl]

omit ht in
theorem Shows.parent_last : ri.parent = slot v ⟨P, n / m⟩ := by
  rw [h.parent (by simp)]
  rfl

/-- Searching to the left on the last level, in a leave. -/
theorem ShowsTree.searchEnd_left_last (hn : n < count) :
    (∃ x < n, Shorter m x n ∧ ri.searchEndOnLevel m false true =
        .ok (.forward (slot v ⟨P + 1, x⟩) .kSearchLeft)) ∨
      ri.searchEndOnLevel m false true = .ok (.forward (slot v ⟨P, n / m⟩) .kSearchRight) := by
  have hnil := ht.leftChildren_last h
  rcases Nat.eq_zero_or_pos n with h0 | hpos
  · right
    have hempty : ri.leftNeighbors = [] := by
      have := h.leftNeighbors_isEmpty
      rw [← List.isEmpty_iff, this]
      simpa using h0
    have hchosen : ri.initializedLeftNeighborsAndChildren m = [] := by
      unfold initializedLeftNeighborsAndChildren
      rw [filter_append, hnil, hempty]
      rfl
    unfold searchEndOnLevel
    simp [h.self_isValidPeer, hchosen, h.parent_last]
  · left
    have hall : ∀ k < n, (v ⟨P + 1, k⟩).isSome = true := fun k hk =>
      ht.isSome_last (lt_trans hk hn)
    obtain ⟨x, hx, -, hhead, hres⟩ := h.searchEnd_left_childless false hpos hall hnil
    exact ⟨x, hx, h.leftmost_shorter hpos hhead, hres⟩

variable (hjoin : join = true → count < m ^ (P + 1))
include hjoin

/-- The rightmost neighbor on the last level does not exist, or it does and
others may be to its right, or it is the last one of a full level. -/
theorem ShowsTree.rightmost_last (hn : n + 1 < m ^ (P + 1)) :
    ∃ y, n < y ∧ Shorter m (m ^ (P + 1) - 1 - y) (m ^ (P + 1) - 1 - n) ∧
      ri.rightmostNeighbor = slot v ⟨P + 1, y⟩ ∧
      ((v ⟨P + 1, y⟩).isSome = false ∨ (v ⟨P + 1, y⟩).isSome = true ∧
        (y < count ∧ y + 1 < m ^ (P + 1) ∧
            isRightmostPossibleNode m (slot v ⟨P + 1, y⟩) = false ∨
          join = false ∧ isRightmostPossibleNode m (slot v ⟨P + 1, y⟩) = true)) := by
  obtain ⟨y, hy, hny, hylt⟩ := h.exists_rightmost hn
  have hylt' : y < m ^ (P + 1) := hylt
  have hcount := ht.count_le
  refine ⟨y, hny, h.rightmost_shorter hn hy, h.rightmostNeighbor_eq hy, ?_⟩
  cases hsome : (v ⟨P + 1, y⟩).isSome with
  | false => exact .inl rfl
  | true =>
    have hlt : y < count := by simpa using (ht.isSome_iff ⟨P + 1, y⟩ hylt').mp hsome
    refine .inr ⟨rfl, ?_⟩
    simp only [isRightmostPossibleNode, slot_isInitialized, hsome, Bool.and_true]
    by_cases hlast : y = m ^ (P + 1) - 1
    · refine .inr ⟨?_, decide_eq_true hlast⟩
      rw [← Bool.not_eq_true]
      intro hj
      have := hjoin hj
      omega
    · exact .inl ⟨hlt, by omega, decide_eq_false hlast⟩

/-- Looking to the right on the last level: up to the parents, further to the
right, or to the left if the level is full. -/
theorem ShowsTree.checkRight_last (hn : n + 1 < m ^ (P + 1)) :
    ri.checkRight m join = .ok (.forward (slot v ⟨P, n / m⟩) .kSearchRight) ∨
      (∃ y, n < y ∧ y < count ∧ y + 1 < m ^ (P + 1) ∧
        Shorter m (m ^ (P + 1) - 1 - y) (m ^ (P + 1) - 1 - n) ∧
        ri.checkRight m join = .ok (.forward (slot v ⟨P + 1, y⟩) .kCheckRight)) ∨
      (join = false ∧ ri.checkRight m join = ri.searchEndOnLevel m join true) := by
  obtain ⟨y, hny, hshorter, hright, hnone | ⟨hsome, ⟨hlt, hlast, hpos⟩ | ⟨hfalse, hpos⟩⟩⟩ :=
    ht.rightmost_last h hjoin hn
  · left
    simp [checkRight, hright, hnone, h.parent_last, NodeInfo.isValidPeer]
  · right; left
    refine ⟨y, hny, hlt, hlast, hshorter, ?_⟩
    simp [checkRight, hright, hsome, hpos, NodeInfo.isValidPeer]
  · right; right
    exact ⟨hfalse, by simp [checkRight, hright, hsome, hpos, NodeInfo.isValidPeer]⟩

/-- A request that starts on the last level. -/
theorem ShowsTree.decideNextStep_last (hn : n < count) :
    ri.decideNextStep m join = .ok (.forward (slot v ⟨P, n / m⟩) .kSearchRight) ∨
      (∃ y, n < y ∧ y < count ∧ y + 1 < m ^ (P + 1) ∧
        ri.decideNextStep m join = .ok (.forward (slot v ⟨P + 1, y⟩) .kCheckRight)) ∨
      (join = false ∧ ri.decideNextStep m join = ri.searchEndOnLevel m join true) := by
  have hcount := ht.count_le
  have hnotfull := ht.areChildrenFull_last h
  -- the left neighbors settle nothing
  have hstart : ri.decideNextStep m join = ri.decideFromRight m join := by
    unfold decideNextStep
    by_cases hleft : (ri.leftmostNeighborChild m).isValidPeer = true
    · have hpos : join = false ∨ 0 < n := by
        right
        by_contra h0
        have hempty : ri.leftNeighborChildren m = [] := by
          have hidx : ri.rightTableNeighborStartIndex = 0 := by
            obtain ⟨a, l, r, rfl⟩ := h.view
            have := (leftNumbers_eq_nil_iff h.fanout h.fits h.valid).mpr
              (show (⟨P + 1, n⟩ : Pos).number = 0 by simp; omega)
            simpa [ofView, leftNumbers] using this
          unfold leftNeighborChildren
          rw [hidx]
          simp
        simp [leftmostNeighborChild, hempty, NodeInfo.isValidPeer,
          NodeInfo.none] at hleft
      simp [hleft, ht.isCorrectParent_last h hpos, ht.leftmostNeighborChild_last h]
    · simp [hleft]
  rw [hstart]
  unfold decideFromRight
  by_cases hedge : n + 1 < m ^ (P + 1)
  · obtain ⟨y, hny, -, hright, hnone | ⟨hsome, ⟨hlt, hlast, hpos⟩ | ⟨hfalse, hpos⟩⟩⟩ :=
      ht.rightmost_last h hjoin hedge
    · left
      simp [hright, hnone, h.parent_last, NodeInfo.isValidPeer]
    · right; left
      exact ⟨y, hny, hlt, hlast, by simp [hright, hsome, hpos, NodeInfo.isValidPeer]⟩
    · right; right
      refine ⟨hfalse, ?_⟩
      simp [hright, hsome, hpos, NodeInfo.isValidPeer, hnotfull,
        ht.isCorrectParent_last h (Or.inl hfalse)]
  · -- the right edge of a full level
    right; right
    have hfalse : join = false := by
      rw [← Bool.not_eq_true]
      intro hj
      have := hjoin hj
      omega
    have hright : ri.rightmostNeighbor = .none := h.rightmostNeighbor_eq_none (not_lt.mp hedge)
    refine ⟨hfalse, ?_⟩
    simp [hright, NodeInfo.isValidPeer, NodeInfo.none, ht.isCorrectParent_last h (Or.inl hfalse)]

end LastLevel

end Sola.Minhton
