import Sola.Minhton.RoutingLayout

/-!
Changes of routing information as changes of its view.

Every position has at most one slot in the routing information of a node.
Setting or resetting a slot is therefore an update of the view at one
position, as long as no other position of the table has the same horizontal
value.
-/

namespace Sola.Minhton

open Sola.Lib.MaryTree Sola.Lib.Distances RoutingInformation List
open Function (comp update update_of_ne)

/-- The positions of the slots of a node at `p`. -/
inductive IsSlot (m : ℕ) (p : Pos) : Pos → Prop
  | parent : p.level ≠ 0 → IsSlot m p (p.parent m)
  | child {q : Pos} : q ∈ childPositions m p → IsSlot m p q
  | neighbor {q : Pos} : q ∈ tablePositions m p → IsSlot m p q
  | neighborChild {q r : Pos} : r ∈ tablePositions m p → q ∈ childPositions m r → IsSlot m p q

section Fits

variable {m : ℕ} (hm : isFanoutValid m = true) {p : Pos} (hL : Fits m p.level)
  (hp : p.Valid m)
include hm hL hp

theorem tablePositions_nodup : (tablePositions m p).Nodup := by
  refine (tablePositions_perm m p).nodup_iff.mp (Nodup.map_on ?_ ?_)
  · intro a _ b _ h
    exact congrArg Pos.number h
  · exact (tableNumbers_pairwise hm hL hp).imp fun h => Nat.ne_of_lt h

theorem tableLayout_nodup : (tableLayout m p).Nodup :=
  (perm_insertionSort _ _).nodup_iff.mpr (tablePositions_nodup hm hL hp)

theorem tableChildLayout_nodup : (tableChildLayout m p).Nodup := by
  refine (perm_insertionSort _ _).nodup_iff.mpr ?_
  rw [nodup_flatMap]
  refine ⟨fun q _ => childPositions_nodup m q, ?_⟩
  refine (tablePositions_nodup hm hL hp).imp_of_mem fun {q r} hq hr hne => ?_
  intro x hx hx'
  have hlevel := (level_of_mem_tablePositions hq).trans (level_of_mem_tablePositions hr).symm
  exact hne (eq_of_mem_childPositions hlevel hx hx')

theorem mem_tablePositions {q : Pos} :
    q ∈ tablePositions m p ↔ q.level = p.level ∧
      (q.number < p.number ∧ IsDist m (p.number - q.number) ∨
        p.number < q.number ∧ q.number < m ^ p.level ∧ IsDist m (q.number - p.number)) := by
  obtain ⟨l, n⟩ := q
  rw [← (tablePositions_perm m p).mem_iff, mem_map]
  simp only [mem_append, mem_leftNumbers hm hL hp, mem_rightNumbers hm hL]
  constructor
  · rintro ⟨k, hk, h⟩
    obtain ⟨rfl, rfl⟩ := Pos.mk.inj h
    exact ⟨rfl, hk⟩
  · rintro ⟨rfl, hk⟩
    exact ⟨n, hk, rfl⟩

/-- A position up to the fanout away is in the routing table. -/
theorem mem_tablePositions_of_near {x : ℕ} (hx : x < m ^ p.level) (hne : x ≠ p.number)
    (hlow : p.number ≤ x + m) (hhigh : x ≤ p.number + m) :
    (⟨p.level, x⟩ : Pos) ∈ tablePositions m p := by
  have hm2 := isFanoutValid_iff.mp hm
  rw [mem_tablePositions hm hL hp]
  rcases Nat.lt_or_gt_of_ne hne with h | h
  · have hle : p.number - x ≤ m := by omega
    exact ⟨rfl, Or.inl ⟨h, isDist_of_le hm2.1 (Nat.sub_pos_of_lt h) hle⟩⟩
  · have hle : x - p.number ≤ m := by omega
    exact ⟨rfl, Or.inr ⟨h, hx, isDist_of_le hm2.1 (Nat.sub_pos_of_lt h) hle⟩⟩

theorem self_not_mem_tablePositions : p ∉ tablePositions m p := by
  rw [mem_tablePositions hm hL hp]
  omega

end Fits

/-! ### One slot of a table -/

variable {v : Pos → Option Address} {positions : List Pos} {q : Pos}

theorem map_slot_update_of_not_mem (h : q ∉ positions) (address : Option Address) :
    positions.map (slot (update v q address)) = positions.map (slot v) := by
  refine map_congr_left fun r hr => ?_
  have hne : r ≠ q := by
    rintro rfl
    exact h hr
  simp [slot, update_of_ne hne]

theorem map_slot_update_of_level {l : ℕ} (h : ∀ {r}, r ∈ positions → r.level = l) (hq : q.level ≠ l)
    (address : Option Address) :
    positions.map (slot (update v q address)) = positions.map (slot v) :=
  map_slot_update_of_not_mem (fun hmem => hq (h hmem)) address

/-- The slot that `std::lower_bound` finds, if it has the position. -/
def lowerBoundSlot (m : ℕ) (n : NodeInfo) (slots : List NodeInfo) : Option NodeInfo :=
  (slots.dropWhile fun x => x.horizontalValue m < n.horizontalValue m).head?.filter
    fun x => x.logical = n.logical

/-- No other position of the list has the horizontal value of `q`. -/
def RoutingInformation.Untied (m : ℕ) (positions : List Pos) (q : Pos) : Prop :=
  ∀ r ∈ positions, horizontalValue m r = horizontalValue m q → r = q

/-- The slot that is read is the one that is changed.  In a sorted table it is
found, unless another position has the horizontal value. -/
theorem lowerBound_map_slot {m : ℕ} (y b : Option Address) (hnodup : positions.Nodup) :
    (lowerBoundSlot m ⟨some q, y⟩ (positions.map (slot v)) = none ∧
      setAtLowerBound m ⟨some q, y⟩ b (positions.map (slot v)) =
        positions.map (slot v) ∧
      (positions.Pairwise (fun p q => horizontalValue m p ≤ horizontalValue m q) →
        Untied m positions q → q ∉ positions)) ∨
    (q ∈ positions ∧ lowerBoundSlot m ⟨some q, y⟩ (positions.map (slot v)) = some (slot v q) ∧
      setAtLowerBound m ⟨some q, y⟩ b (positions.map (slot v)) =
        positions.map (slot (update v q b))) := by
  induction positions with
  | nil => exact Or.inl ⟨rfl, rfl, fun _ _ => not_mem_nil⟩
  | cons r rs ih =>
    obtain ⟨hnot, hnodup⟩ := nodup_cons.mp hnodup
    simp only [map_cons, setAtLowerBound, lowerBoundSlot,
      dropWhile_cons, decide_eq_true_eq]
    by_cases hlt : (slot v r).horizontalValue m < (⟨some q, y⟩ : NodeInfo).horizontalValue m
    · have hne : r ≠ q := by
        rintro rfl
        exact lt_irrefl _ hlt
      rw [if_pos hlt, if_pos hlt]
      rcases ih hnodup with ⟨hslot, hset, hfound⟩ | ⟨hmem, hslot, hset⟩
      · refine Or.inl ⟨hslot, by rw [hset], fun hsorted hties hmem => ?_⟩
        exact hfound (pairwise_cons.mp hsorted).2 (fun s hs => hties s (by simp [hs]))
          ((mem_cons.mp hmem).resolve_left hne.symm)
      · refine Or.inr ⟨by simp [hmem], hslot, ?_⟩
        rw [hset]
        simp [slot, update_of_ne hne]
    · rw [if_neg hlt, if_neg hlt]
      by_cases heq : r = q
      · subst heq
        refine Or.inr ⟨by simp, by simp [slot], ?_⟩
        rw [if_pos (slot_logical v r), map_slot_update_of_not_mem hnot]
        simp [slot]
      · refine Or.inl ⟨by simp [slot, heq], if_neg (by simpa using heq),
          fun hsorted hties hmem => ?_⟩
        have hq : q ∈ rs := (mem_cons.mp hmem).resolve_left (Ne.symm heq)
        have hle := (pairwise_cons.mp hsorted).1 q hq
        exact heq (hties r (by simp) (le_antisymm hle (not_lt.mp hlt)))

/-- The slot of the position is set, if it has one. -/
theorem setAtLowerBound_map_slot {m : ℕ} (y b : Option Address)
    (hsorted : positions.Pairwise fun p q => horizontalValue m p ≤ horizontalValue m q)
    (hnodup : positions.Nodup) (hties : q ∈ positions → Untied m positions q) :
    setAtLowerBound m ⟨some q, y⟩ b (positions.map (slot v)) =
      positions.map (slot (update v q b)) := by
  rcases lowerBound_map_slot y b hnodup with ⟨-, hset, hfound⟩ | ⟨-, -, hset⟩
  · rw [hset, map_slot_update_of_not_mem fun hq => hfound hsorted (hties hq) hq]
  · exact hset

/-! ### Updating the view -/

namespace RoutingInformation

section View

variable {m : ℕ} (hm : isFanoutValid m = true) {p : Pos} (hL : Fits m p.level)
  (hp : p.Valid m)
  (address : Address) (v : Pos → Option Address) (left right : NodeInfo)

/-- Only the slots of the view matter. -/
theorem ofView_congr {w : Pos → Option Address} (h : ∀ q, IsSlot m p q → v q = w q) :
    ofView m p address v left right = ofView m p address w left right := by
  have hslot : ∀ q, IsSlot m p q → slot v q = slot w q := by
    intro q hq
    rw [slot, slot, h q hq]
  have hneighbors : (tableLayout m p).map (slot v) = (tableLayout m p).map (slot w) :=
    map_congr_left fun q hq => hslot q (.neighbor (mem_tableLayout.mp hq))
  have hchildren : (childPositions m p).map (slot v) = (childPositions m p).map (slot w) :=
    map_congr_left fun q hq => hslot q (.child hq)
  have hneighborChildren : (tableChildLayout m p).map (slot v) =
      (tableChildLayout m p).map (slot w) := by
    refine map_congr_left fun q hq => ?_
    obtain ⟨r, hr, hq⟩ := mem_tableChildLayout.mp hq
    exact hslot q (.neighborChild hr hq)
  simp only [ofView, hneighbors, hchildren, hneighborChildren]
  congr 1
  split_ifs with h0
  · rfl
  · exact hslot _ (.parent h0)

variable {q : Pos}

/-- Updating a position that has no slot changes nothing. -/
theorem ofView_update_of_not_isSlot (hq : ¬ IsSlot m p q) (x : Option Address) :
    ofView m p address (update v q x) left right =
      ofView m p address v left right := by
  refine ofView_congr _ _ _ _ fun r hr => update_of_ne ?_ _ _
  rintro rfl
  exact hq hr

/-- Updating a position that is not above `p` leaves the parent as it is. -/
theorem parent_update (hq : p.level ≤ q.level) (x : Option Address) :
    (if p.level = 0 then NodeInfo.none else slot (update v q x) (p.parent m)) =
      if p.level = 0 then NodeInfo.none else slot v (p.parent m) := by
  split_ifs with h0
  · rfl
  · have hlevel : (p.parent m).level = p.level - 1 := rfl
    rw [slot, slot, update_of_ne]
    rintro rfl
    omega

theorem ofView_update_parent (h0 : p.level ≠ 0) (x : Option Address) :
    ofView m p address (update v (p.parent m) x) left right =
      { ofView m p address v left right with parent := ⟨some (p.parent m), x⟩ } := by
  have hlevel : (p.parent m).level = p.level - 1 := rfl
  have hsame : (p.parent m).level ≠ p.level := by omega
  have hbelow : (p.parent m).level ≠ p.level + 1 := by omega
  simp only [ofView, map_slot_update_of_level (fun h => (mem_childPositions.mp h).1) hbelow,
    map_slot_update_of_level level_of_mem_tableLayout hsame,
    map_slot_update_of_level level_of_mem_tableChildLayout hbelow, if_neg h0]
  simp [slot]

theorem ofView_update_neighbor (hq : q ∈ tableLayout m p) (x : Option Address) :
    ofView m p address (update v q x) left right =
      { ofView m p address v left right with
        routingTableNeighbors := (tableLayout m p).map (slot (update v q x)) } := by
  have hlevel := level_of_mem_tableLayout hq
  have hbelow : q.level ≠ p.level + 1 := by omega
  simp only [ofView, map_slot_update_of_level (fun h => (mem_childPositions.mp h).1) hbelow,
    map_slot_update_of_level level_of_mem_tableChildLayout hbelow, parent_update v hlevel.ge]

include hm hL hp

/-- The own children are not among those of the routing table neighbors. -/
theorem not_mem_tableChildLayout (hq : q ∈ childPositions m p) : q ∉ tableChildLayout m p := by
  intro h
  obtain ⟨r, hr, h⟩ := mem_tableChildLayout.mp h
  have hrp := eq_of_mem_childPositions (level_of_mem_tablePositions hr) h hq
  exact self_not_mem_tablePositions hm hL hp (hrp ▸ hr)

theorem ofView_update_child (hq : q ∈ childPositions m p) (x : Option Address) :
    ofView m p address (update v q x) left right =
      { ofView m p address v left right with
        children := (childPositions m p).map (slot (update v q x)) } := by
  have hlevel := (mem_childPositions.mp hq).1
  have hsame : q.level ≠ p.level := by omega
  simp only [ofView, map_slot_update_of_level level_of_mem_tableLayout hsame,
    map_slot_update_of_not_mem (not_mem_tableChildLayout hm hL hp hq),
    parent_update v (show p.level ≤ q.level by omega)]

theorem ofView_update_neighborChild (hq : q ∈ tableChildLayout m p) (x : Option Address) :
    ofView m p address (update v q x) left right =
      { ofView m p address v left right with
        routingTableNeighborChildren :=
          (tableChildLayout m p).map (slot (update v q x)) } := by
  have hlevel := level_of_mem_tableChildLayout hq
  have hchildren : q ∉ childPositions m p := fun h => not_mem_tableChildLayout hm hL hp h hq
  have hsame : q.level ≠ p.level := by omega
  simp only [ofView, map_slot_update_of_not_mem hchildren,
    map_slot_update_of_level level_of_mem_tableLayout hsame,
    parent_update v (show p.level ≤ q.level by omega)]

end View

/-! ### Setting and resetting slots -/

section Slots

variable {m : ℕ} (hm : isFanoutValid m = true) {p : Pos} (hL : Fits m p.level)
  (hp : p.Valid m)
  (address : Address) (v : Pos → Option Address) (left right : NodeInfo)
include hm hL hp

variable {q : Pos}

omit hm hL hp in
theorem mem_tableLayout_of_isSlot (hq : IsSlot m p q) (hlevel : q.level = p.level) :
    q ∈ tableLayout m p := by
  cases hq with
  | parent h0 =>
    have : (p.parent m).level = p.level - 1 := rfl
    omega
  | child h =>
    have := (mem_childPositions.mp h).1
    omega
  | neighbor h => exact mem_tableLayout.mpr h
  | neighborChild hr h =>
    have := level_of_mem_tableChildLayout (mem_tableChildLayout.mpr ⟨_, hr, h⟩)
    omega

omit hm hL hp in
theorem mem_tableChildLayout_of_isSlot (hq : IsSlot m p q) (hlevel : q.level = p.level + 1)
    (hchild : q ∉ childPositions m p) : q ∈ tableChildLayout m p := by
  cases hq with
  | parent h0 =>
    have : (p.parent m).level = p.level - 1 := rfl
    omega
  | child h => exact absurd h hchild
  | neighbor h =>
    have := level_of_mem_tablePositions h
    omega
  | neighborChild hr h => exact mem_tableChildLayout.mpr ⟨_, hr, h⟩

omit hm hL hp in
/-- Setting a slot of a sorted table, where `put` puts the table back. -/
theorem setTable_ofView (put : List NodeInfo → RoutingInformation) {layout : List Pos}
    {x : Option Address} (y : Option Address)
    (hput : put (layout.map (slot v)) = ofView m p address v left right)
    (hupdate : q ∈ layout → ofView m p address (update v q x) left right =
      put (layout.map (slot (update v q x)))) (hslot : IsSlot m p q → q ∈ layout)
    (hsorted : layout.Pairwise fun p q => horizontalValue m p ≤ horizontalValue m q)
    (hnodup : layout.Nodup) (hties : q ∈ layout → Untied m layout q) :
    put (setAtLowerBound m ⟨some q, y⟩ x (layout.map (slot v))) =
      ofView m p address (update v q x) left right := by
  rw [setAtLowerBound_map_slot y x hsorted hnodup hties]
  by_cases hq : q ∈ layout
  · rw [hupdate hq]
  · rw [map_slot_update_of_not_mem hq, hput,
      ofView_update_of_not_isSlot _ _ _ _ (mt hslot hq)]

/-- Setting the slot of a routing table neighbor. -/
theorem setNeighbor_ofView (hlevel : q.level = p.level)
    (hties : q ∈ tableLayout m p → Untied m (tableLayout m p) q) (x y : Option Address) :
    { ofView m p address v left right with
      routingTableNeighbors := setAtLowerBound m ⟨some q, y⟩ x
        (ofView m p address v left right).routingTableNeighbors } =
      ofView m p address (update v q x) left right :=
  setTable_ofView _ _ _ _
    (fun l => { ofView m p address v left right with routingTableNeighbors := l }) y rfl
    (fun hq => ofView_update_neighbor _ _ _ _ hq x)
    (mem_tableLayout_of_isSlot · hlevel) (sortPositions_pairwise m _)
    (tableLayout_nodup hm hL hp) hties

/-- Setting the slot of a child of a routing table neighbor. -/
theorem setNeighborChild_ofView (hlevel : q.level = p.level + 1) (hchild : q ∉ childPositions m p)
    (hties : q ∈ tableChildLayout m p → Untied m (tableChildLayout m p) q) (x y : Option Address) :
    { ofView m p address v left right with
      routingTableNeighborChildren := setAtLowerBound m ⟨some q, y⟩ x
        (ofView m p address v left right).routingTableNeighborChildren } =
      ofView m p address (update v q x) left right :=
  setTable_ofView _ _ _ _
    (fun l => { ofView m p address v left right with routingTableNeighborChildren := l })
    y rfl (fun hq => ofView_update_neighborChild hm hL hp _ _ _ _ hq x)
    (mem_tableChildLayout_of_isSlot · hlevel hchild) (sortPositions_pairwise m _)
    (tableChildLayout_nodup hm hL hp) hties

omit hm hL hp in
/-- The slot of the child at an index. -/
theorem children_getD_of_lt {i : ℕ} (hi : i < m) :
    (ofView m p address v left right).children.getD i .none = slot v (p.child m i) := by
  simp [ofView, childPositions, hi]

omit hm hL hp in
/-- A child is the one at the index of its number. -/
theorem exists_child_of_mem (hq : q ∈ childPositions m p) :
    q.number % m < m ∧ q = p.child m (q.number % m) := by
  obtain ⟨c, hc, rfl⟩ := mem_map.mp hq
  have hc := mem_range.mp hc
  have hmod : (p.child m c).number % m = c := by
    show (p.number * m + c) % m = c
    rw [Nat.mul_comm, Nat.mul_add_mod, Nat.mod_eq_of_lt hc]
  rw [hmod]
  exact ⟨hc, rfl⟩

/-- Setting the slot of a child. -/
theorem setChildSlot_ofView {i : ℕ} (hi : i < m) (x : Option Address) :
    { ofView m p address v left right with
      children := (ofView m p address v left right).children.set i
        ⟨some (p.child m i), x⟩ } =
      ofView m p address (update v (p.child m i) x) left right := by
  have hset : ((childPositions m p).map (slot v)).set i ⟨some (p.child m i), x⟩ =
      (childPositions m p).map (slot (update v (p.child m i) x)) := by
    apply ext_getElem
    · simp
    · intro j hj hj'
      rw [getElem_set]
      simp only [childPositions, map_map, getElem_map, getElem_range, comp]
      split_ifs with h
      · simp [slot, h]
      · have hne : p.child m j ≠ p.child m i := by
          intro heq
          have hnum := congrArg Pos.number heq
          simp only [Pos.child] at hnum
          omega
        simp [slot, update_of_ne hne]
  have hq : p.child m i ∈ childPositions m p :=
    mem_map.mpr ⟨i, mem_range.mpr hi, rfl⟩
  rw [ofView_update_child hm hL hp _ _ _ _ hq, ← hset]
  rfl

theorem setChild_ofView (hq : q ∈ childPositions m p) (b : Address) :
    (ofView m p address v left right).setChild m ⟨some q, some b⟩ (q.number % m) =
      .ok (ofView m p address (update v q (some b)) left right) := by
  obtain ⟨hlt, hchild⟩ := exists_child_of_mem hq
  generalize q.number % m = i at hlt hchild
  rw [hchild, ← setChildSlot_ofView hm hL hp _ _ _ _ hlt, setChild, if_neg (by simp [ofView]),
    if_neg (by omega), if_neg, if_neg (by simp)]
  rw [children_getD_of_lt _ _ _ _ hlt]
  simp

theorem resetChild_ofView (hq : q ∈ childPositions m p) :
    (ofView m p address v left right).resetChild m (q.number % m) =
      .ok (ofView m p address (update v q none) left right) := by
  obtain ⟨hlt, hchild⟩ := exists_child_of_mem hq
  generalize q.number % m = i at hlt hchild
  rw [hchild, ← setChildSlot_ofView hm hL hp _ _ _ _ hlt, resetChild,
    if_neg (by simp [ofView]), if_neg (by omega), children_getD_of_lt _ _ _ _ hlt]
  rfl

omit hm hL hp in
theorem setParent_ofView (h0 : p.level ≠ 0) (b : Address) :
    (ofView m p address v left right).setParent ⟨some (p.parent m), some b⟩ =
      .ok (ofView m p address (update v (p.parent m) (some b)) left right) := by
  rw [ofView_update_parent _ _ _ _ h0, setParent, if_neg (by simp [ofView]),
    if_neg (by simpa [ofView] using h0), if_neg, if_neg]
  · simp
  · simp [ofView, h0]

end Slots

section Adjacents

variable (m : ℕ) (p : Pos) (address : Address) (v : Pos → Option Address)
  (left right : NodeInfo) {n : NodeInfo} {ri : RoutingInformation}

theorem setAdjacentLeft_ofView (hn : n.isInitialized = true)
    (hlt : n.horizontalValue m < horizontalValue m p) :
    (ofView m p address v left right).setAdjacentLeft m n =
      .ok (ofView m p address v n right) := by
  rw [setAdjacentLeft, if_neg (by simp [ofView]), if_neg (by simp [hn]), if_neg]
  · rfl
  · exact not_le.mpr hlt

theorem setAdjacentRight_ofView (hn : n.isInitialized = true)
    (hlt : horizontalValue m p < n.horizontalValue m) :
    (ofView m p address v left right).setAdjacentRight m n =
      .ok (ofView m p address v left n) := by
  rw [setAdjacentRight, if_neg (by simp [ofView]), if_neg (by simp [hn]), if_neg]
  · rfl
  · exact not_le.mpr hlt

theorem eq_of_setAdjacentLeft (h : (ofView m p address v left right).setAdjacentLeft m n = .ok ri) :
    ri = ofView m p address v n right := by
  unfold setAdjacentLeft at h
  split_ifs at h
  cases h
  rfl

theorem eq_of_setAdjacentRight
    (h : (ofView m p address v left right).setAdjacentRight m n = .ok ri) :
    ri = ofView m p address v left n := by
  unfold setAdjacentRight at h
  split_ifs at h
  cases h
  rfl

theorem resetAdjacentLeft_ofView :
    (ofView m p address v left right).resetAdjacentLeft =
      .ok (ofView m p address v (if left.isInitialized then .none else left) right) := by
  cases h : left.isInitialized <;> simp [resetAdjacentLeft, ofView, h]

theorem resetAdjacentRight_ofView :
    (ofView m p address v left right).resetAdjacentRight =
      .ok (ofView m p address v left (if right.isInitialized then .none else right)) := by
  cases h : right.isInitialized <;> simp [resetAdjacentRight, ofView, h]

end Adjacents

end RoutingInformation

end Sola.Minhton
