import Sola.Lib.CompleteTree
import Sola.Minhton.RoutingInformation

/-!
The layout of routing information.

Which positions the slots of a node stand for depends on the node's own
position only; what the slots hold is a view, a function from positions to
optional addresses.  Below level bounds under which horizontal values are
exact, the sorted tables list the positions by number.
-/

namespace Sola.Minhton

open Sola.Lib Sola.Lib.MaryTree Sola.Lib.Distances RoutingInformation List

/-- The slot for a position, filled from a view. -/
def slot (v : Pos → Option Address) (p : Pos) : NodeInfo := ⟨some p, v p⟩

section

variable (v : Pos → Option Address) (p : Pos)

@[simp] theorem slot_logical : (slot v p).logical = some p := rfl

@[simp] theorem slot_physical : (slot v p).physical = v p := rfl

@[simp] theorem slot_isInitialized : (slot v p).isInitialized = (v p).isSome := rfl

@[simp] theorem slot_isValidPeer : (slot v p).isValidPeer = true := rfl

@[simp] theorem slot_level : (slot v p).level = p.level := rfl

@[simp] theorem slot_number : (slot v p).number = p.number := rfl

@[simp] theorem slot_pos : (slot v p).pos = p := rfl

end

@[simp] theorem slot_horizontalValue (m : ℕ) (v : Pos → Option Address) (p : Pos) :
    (slot v p).horizontalValue m = horizontalValue m p := rfl

/-- Positions in the order of their horizontal values. -/
def sortPositions (m : ℕ) (positions : List Pos) : List Pos :=
  positions.insertionSort fun p q => horizontalValue m p ≤ horizontalValue m q

theorem sortNodes_map_slot (m : ℕ) (v : Pos → Option Address) (positions : List Pos) :
    sortNodes m (positions.map (slot v)) = (sortPositions m positions).map (slot v) :=
  (map_insertionSort _ _ (slot v) positions fun _ _ _ _ => Iff.rfl).symm

/-- The routing table positions in the order in which they are pushed. -/
def tablePositions (m : ℕ) (p : Pos) : List Pos :=
  (leftDistances m p).map (fun i => ⟨p.level, p.number - i⟩) ++
    (rightDistances m p).map fun i => ⟨p.level, p.number + i⟩

def tableLayout (m : ℕ) (p : Pos) : List Pos := sortPositions m (tablePositions m p)

def tableChildLayout (m : ℕ) (p : Pos) : List Pos :=
  sortPositions m ((tablePositions m p).flatMap (childPositions m))

variable {m x : ℕ} {p q : Pos} {l : List ℕ}

theorem level_of_mem_tablePositions (hq : q ∈ tablePositions m p) : q.level = p.level := by
  rcases mem_append.mp hq with hq | hq
  · obtain ⟨i, -, rfl⟩ := mem_map.mp hq
    rfl
  · obtain ⟨i, -, rfl⟩ := mem_map.mp hq
    rfl

theorem mem_tableLayout : q ∈ tableLayout m p ↔ q ∈ tablePositions m p :=
  (perm_insertionSort _ _).mem_iff

theorem mem_tableChildLayout :
    q ∈ tableChildLayout m p ↔ ∃ r ∈ tablePositions m p, q ∈ childPositions m r := by
  rw [tableChildLayout, sortPositions, (perm_insertionSort _ _).mem_iff,
    mem_flatMap]

theorem level_of_mem_tableLayout (hq : q ∈ tableLayout m p) :
    q.level = p.level := level_of_mem_tablePositions (mem_tableLayout.mp hq)

theorem level_of_mem_tableChildLayout (hq : q ∈ tableChildLayout m p) : q.level = p.level + 1 := by
  obtain ⟨r, hr, hq⟩ := mem_tableChildLayout.mp hq
  rw [(mem_childPositions.mp hq).1, level_of_mem_tablePositions hr]

namespace RoutingInformation

/-- The routing information of the node `address` at `p` whose slots are
filled from the view `v`. -/
def ofView (m : ℕ) (p : Pos) (address : Address) (v : Pos → Option Address)
    (left right : NodeInfo) : RoutingInformation where
  selfNodeInfo := ⟨some p, some address⟩
  parent := if p.level = 0 then .none else slot v (p.parent m)
  children := (childPositions m p).map (slot v)
  adjacentLeft := left
  adjacentRight := right
  routingTableNeighbors := (tableLayout m p).map (slot v)
  routingTableNeighborChildren := (tableChildLayout m p).map (slot v)
  rightTableNeighborStartIndex := (leftDistances m p).length

/-- Fill the slots of routing information from a view and set the adjacents. -/
def fill (v : Pos → Option Address) (left right : NodeInfo) (ri : RoutingInformation) :
    RoutingInformation :=
  { ri with
    parent := ⟨ri.parent.logical, ri.parent.logical.bind v⟩
    children := ri.children.map fun n => ⟨n.logical, n.logical.bind v⟩
    adjacentLeft := left
    adjacentRight := right
    routingTableNeighbors :=
      ri.routingTableNeighbors.map fun n => ⟨n.logical, n.logical.bind v⟩
    routingTableNeighborChildren :=
      ri.routingTableNeighborChildren.map fun n => ⟨n.logical, n.logical.bind v⟩ }

theorem fill_ofView (m : ℕ) (p : Pos) (address : Address) (v w : Pos → Option Address)
    (l r left right : NodeInfo) :
    (ofView m p address w l r).fill v left right = ofView m p address v left right := by
  unfold fill ofView
  simp only [map_map]
  congr 1
  split_ifs <;> rfl

section Truncated

variable (m : ℕ) (p : Pos) (address : Address) (v : Pos → Option Address)
  (left right : NodeInfo)

/-! The four parts of the tables, in whatever order the horizontal values put
them. -/

theorem leftNeighbors_eq_map : (ofView m p address v left right).leftNeighbors =
    ((tableLayout m p).take (leftDistances m p).length).map (slot v) :=
  map_take.symm

theorem rightNeighbors_eq_map : (ofView m p address v left right).rightNeighbors =
    ((tableLayout m p).drop (leftDistances m p).length).map (slot v) :=
  map_drop.symm

theorem leftNeighborChildren_eq_map :
    (ofView m p address v left right).leftNeighborChildren m =
      ((tableChildLayout m p).take ((leftDistances m p).length * m)).map (slot v) :=
  map_take.symm

theorem rightNeighborChildren_eq_map :
    (ofView m p address v left right).rightNeighborChildren m =
      ((tableChildLayout m p).drop ((leftDistances m p).length * m)).map (slot v) :=
  map_drop.symm

end Truncated

end RoutingInformation

section Fits

variable {m : ℕ} (hm : isFanoutValid m = true) {p : Pos} (hL : Fits m p.level)
  (hp : p.Valid m)
include hm hL hp

theorem tablePositions_valid {q : Pos} (hq : q ∈ tablePositions m p) :
    q.Valid m ∧ q.level = p.level := by
  have hp' : p.number < m ^ p.level := hp
  unfold tablePositions at hq
  rcases mem_append.mp hq with hq | hq
  · obtain ⟨i, -, rfl⟩ := mem_map.mp hq
    exact ⟨lt_of_le_of_lt (Nat.sub_le _ _) hp', rfl⟩
  · obtain ⟨i, hi, rfl⟩ := mem_map.mp hq
    exact ⟨((mem_rightDistances hm hL).mp hi).2, rfl⟩

/-- On a level without overflow the source builds the layout without throwing. -/
theorem init_eq_ofView (address : Address) :
    init m p (some address) =
      .ok (.ofView m p address (fun _ => none) .none .none) := by
  have hparent : initParent m p =
      .ok (if p.level = 0 then .none else slot (fun _ => none) (p.parent m)) := by
    unfold initParent
    by_cases h : p.level = 0
    · simp [h, pure, Except.pure]
    · rw [if_pos (by omega), calcParent_eq hm hp h, if_neg h]
      rfl
  have hchildren : initChildren m p =
      .ok ((childPositions m p).map (slot fun _ => none)) := by
    unfold initChildren
    rw [Fits.calcChildren_eq hm hL hp]
    rfl
  have hneighborChildren : (tablePositions m p).mapM (calcChildren m) =
      .ok ((tablePositions m p).map (childPositions m)) := by
    refine mapM_ok fun q hq => ?_
    obtain ⟨hqv, hql⟩ := tablePositions_valid hm hL hp hq
    exact Fits.calcChildren_eq hm (hql ▸ hL) hqv
  have hofPos : NodeInfo.ofPos = slot fun _ => none := rfl
  unfold init
  rw [hparent, hchildren, calcLeftRT_eq hm hp, calcRightRT_eq hm hL hp]
  simp only [bind, Except.bind]
  rw [show map _ _ ++ map _ _ = tablePositions m p from rfl, hneighborChildren]
  simp only [pure, Except.pure, hofPos, sortNodes_map_slot, length_map,
    ← flatMap_def]
  rfl

end Fits

/-! ### The tables on levels without truncation -/

/-- The numbers of the left routing table neighbors, from left to right. -/
def leftNumbers (m : ℕ) (p : Pos) : List ℕ :=
  ((leftDistances m p).map fun i => p.number - i).reverse

/-- The numbers of the right routing table neighbors, from left to right. -/
def rightNumbers (m : ℕ) (p : Pos) : List ℕ :=
  (rightDistances m p).map fun i => p.number + i

section Fits

variable {m : ℕ} (hm : isFanoutValid m = true) {p : Pos} (hL : Fits m p.level)
  (hp : p.Valid m)
include hm hL

omit hp in
theorem mem_rightNumbers {k : ℕ} :
    k ∈ rightNumbers m p ↔ p.number < k ∧ k < m ^ p.level ∧ IsDist m (k - p.number) := by
  have hm0 : 0 < m := by have := isFanoutValid_iff.mp hm; omega
  simp only [rightNumbers, mem_map, mem_rightDistances hm hL]
  constructor
  · rintro ⟨i, ⟨hi, hlt⟩, rfl⟩
    have := hi.pos hm0
    exact ⟨by omega, hlt, by rwa [Nat.add_sub_cancel_left]⟩
  · rintro ⟨hlt, hk, hd⟩
    exact ⟨k - p.number, ⟨hd, by omega⟩, by omega⟩

omit hp in
theorem rightNumbers_pairwise : (rightNumbers m p).Pairwise (· < ·) := by
  unfold rightNumbers
  rw [pairwise_map]
  exact (rightDistances_pairwise hm (Fits.size_le hm hL)).imp fun h => by omega

include hp

theorem mem_leftNumbers {k : ℕ} :
    k ∈ leftNumbers m p ↔ k < p.number ∧ IsDist m (p.number - k) := by
  have hm0 : 0 < m := by have := isFanoutValid_iff.mp hm; omega
  simp only [leftNumbers, mem_reverse, mem_map, mem_leftDistances hm hL hp]
  constructor
  · rintro ⟨i, ⟨hi, hle⟩, rfl⟩
    have := hi.pos hm0
    exact ⟨by omega, by rwa [Nat.sub_sub_self hle]⟩
  · rintro ⟨hlt, hd⟩
    exact ⟨p.number - k, ⟨hd, by omega⟩, by omega⟩

theorem leftNumbers_pairwise : (leftNumbers m p).Pairwise (· < ·) := by
  unfold leftNumbers
  rw [pairwise_reverse, pairwise_map]
  have hsorted := leftDistances_pairwise hm (Fits.size_le hm hL) hp
  refine hsorted.imp_of_mem fun {a b} _ hb hab => ?_
  have := ((mem_leftDistances hm hL hp).mp hb).2
  omega

/-- The numbers of the routing table from left to right. -/
theorem tableNumbers_pairwise :
    (leftNumbers m p ++ rightNumbers m p).Pairwise (· < ·) := by
  rw [pairwise_append]
  refine ⟨leftNumbers_pairwise hm hL hp, rightNumbers_pairwise hm hL, ?_⟩
  intro a ha b hb
  have h1 := ((mem_leftNumbers hm hL hp).mp ha).1
  have h2 := ((mem_rightNumbers hm hL).mp hb).1
  omega

end Fits

theorem sortPositions_pairwise (m : ℕ) (l : List Pos) :
    (sortPositions m l).Pairwise fun p q => horizontalValue m p ≤ horizontalValue m q := by
  have htotal : Std.Total fun p q => horizontalValue m p ≤ horizontalValue m q :=
    ⟨fun p q => le_total _ _⟩
  have htrans : IsTrans Pos fun p q => horizontalValue m p ≤ horizontalValue m q :=
    ⟨fun _ _ _ => le_trans⟩
  exact pairwise_insertionSort _ l

/-- A list of positions in in-order is what sorting any permutation of it
yields, as long as horizontal values are exact. -/
theorem sortPositions_eq (hm : 2 ≤ m) {l l' : List Pos} (hperm : l' ~ l)
    (hexact : ∀ p ∈ l, p.Valid m ∧ Exact m p) (hsorted : l'.Pairwise (Before m)) :
    sortPositions m l = l' := by
  have hmem : ∀ p ∈ l', p.Valid m ∧ Exact m p := fun p hp => hexact p (hperm.mem_iff.mp hp)
  have hperm' : sortPositions m l ~ l' := (perm_insertionSort _ l).trans hperm.symm
  have hsort : (sortPositions m l).Pairwise fun p q =>
      horizontalValue m p ≤ horizontalValue m q := sortPositions_pairwise m l
  have hsort' : l'.Pairwise fun p q => horizontalValue m p ≤ horizontalValue m q := by
    refine hsorted.imp_of_mem fun {p q} hp hq hpq => ?_
    obtain ⟨hpv, hpe⟩ := hmem p hp
    obtain ⟨hqv, hqe⟩ := hmem q hq
    exact ((horizontalValue_lt_iff hm hpv hpe hqv hqe).mpr hpq).le
  refine hperm'.eq_of_pairwise (fun p q hp hq hpq hqp => ?_) hsort hsort'
  obtain ⟨hpv, hpe⟩ := hmem p (hperm'.mem_iff.mp hp)
  obtain ⟨hqv, hqe⟩ := hmem q hq
  exact horizontalValue_injective hm hpv hpe hqv hqe (le_antisymm hpq hqp)

theorem tablePositions_perm (m : ℕ) (p : Pos) :
    (leftNumbers m p ++ rightNumbers m p).map (Pos.mk p.level) ~ tablePositions m p := by
  unfold tablePositions leftNumbers rightNumbers
  rw [map_append, map_reverse, map_map, map_map]
  exact (reverse_perm _).append_right _

theorem childPositions_sorted (m : ℕ) (p : Pos) :
    (childPositions m p).Pairwise fun q r => q.number < r.number := by
  unfold childPositions
  rw [pairwise_map]
  exact pairwise_lt_range.imp fun h => Nat.add_lt_add_left h _

/-- The children of nodes that are sorted by number. -/
theorem flatMap_childPositions_sorted {positions : List Pos}
    (h : positions.Pairwise fun q r => q.number < r.number) :
    (positions.flatMap (childPositions m)).Pairwise fun q r => q.number < r.number := by
  rw [pairwise_flatMap]
  refine ⟨fun q _ => childPositions_sorted m q, h.imp fun {a b} hab q hq r hr => ?_⟩
  obtain ⟨-, -, hq⟩ := mem_childPositions.mp hq
  obtain ⟨-, hr, -⟩ := mem_childPositions.mp hr
  have hle : (a.number + 1) * m ≤ b.number * m := Nat.mul_le_mul_right m hab
  rw [Nat.succ_mul] at hle
  omega

section Exact

variable {m : ℕ} (hm : isFanoutValid m = true) {p : Pos} (hp : p.Valid m)
  (hfits : Fits m p.level)
include hm hp hfits

/-- The table from left to right, if horizontal values put it in order. -/
theorem tableLayout_eq_of_exact (hexact : ∀ q ∈ tablePositions m p, Exact m q) :
    tableLayout m p = (leftNumbers m p ++ rightNumbers m p).map (Pos.mk p.level) := by
  have hm2 := (isFanoutValid_iff.mp hm).1
  refine sortPositions_eq hm2 (tablePositions_perm m p) (fun q hq => ?_) ?_
  · exact ⟨(tablePositions_valid hm hfits hp hq).1, hexact q hq⟩
  · rw [pairwise_map]
    exact (tableNumbers_pairwise hm hfits hp).imp fun h => before_of_number_lt hm2 h

theorem tableChildLayout_eq_of_exact
    (hexact : ∀ r ∈ tablePositions m p, ∀ q ∈ childPositions m r, Exact m q) :
    tableChildLayout m p = (leftNumbers m p ++ rightNumbers m p).flatMap fun k =>
      childPositions m ⟨p.level, k⟩ := by
  have hm2 := (isFanoutValid_iff.mp hm).1
  have hperm : ((leftNumbers m p ++ rightNumbers m p).flatMap fun k =>
      childPositions m ⟨p.level, k⟩) ~ (tablePositions m p).flatMap (childPositions m) := by
    have h := (tablePositions_perm m p).flatMap_right (childPositions m)
    rwa [flatMap_map] at h
  refine sortPositions_eq hm2 hperm (fun q hq => ?_) ?_
  · obtain ⟨r, hr, hq⟩ := mem_flatMap.mp hq
    have hrv := (tablePositions_valid hm hfits hp hr).1
    refine ⟨?_, hexact r hr q hq⟩
    obtain ⟨c, hc, rfl⟩ := mem_map.mp hq
    exact hrv.child (mem_range.mp hc)
  · have hnumbers : ((leftNumbers m p ++ rightNumbers m p).map (Pos.mk p.level)).Pairwise
        fun q r => q.number < r.number :=
      pairwise_map.mpr (tableNumbers_pairwise hm hfits hp)
    have hsorted := flatMap_childPositions_sorted (m := m) hnumbers
    rw [flatMap_map] at hsorted
    have hlevel : ∀ {q : Pos}, q ∈ (leftNumbers m p ++ rightNumbers m p).flatMap
        (fun k => childPositions m ⟨p.level, k⟩) → q.level = p.level + 1 := by
      intro q hq
      obtain ⟨k, -, hq⟩ := mem_flatMap.mp hq
      exact (mem_childPositions.mp hq).1
    refine hsorted.imp_of_mem fun hq hr h => ?_
    exact (before_iff_of_level_eq hm2 ((hlevel hq).trans (hlevel hr).symm)).mpr h

end Exact

/-! ### The accessors of ordered tables -/

namespace RoutingInformation

/-- The child positions of a list of numbers on the level of `p`. -/
def childSlots (m : ℕ) (p : Pos) (v : Pos → Option Address) (numbers : List ℕ) :
    List NodeInfo :=
  numbers.flatMap fun k => (childPositions m ⟨p.level, k⟩).map (slot v)

section Ordered

variable {m : ℕ} {p : Pos} (address : Address) (v : Pos → Option Address)
  (left right : NodeInfo)

theorem childSlots_length (numbers : List ℕ) :
    (childSlots m p v numbers).length = numbers.length * m := by
  induction numbers with
  | nil => simp [childSlots]
  | cons k numbers ih =>
    simp only [childSlots, flatMap_cons, length_append] at ih ⊢
    rw [ih]
    simp [childPositions]
    ring

theorem childSlots_append (l l' : List ℕ) :
    childSlots m p v (l ++ l') = childSlots m p v l ++ childSlots m p v l' := by
  simp [childSlots]

theorem leftNumbers_length : (leftNumbers m p).length = (leftDistances m p).length := by
  simp [leftNumbers]

section Neighbors

variable (htable : tableLayout m p = (leftNumbers m p ++ rightNumbers m p).map (Pos.mk p.level))
include htable

theorem leftNeighbors_of_tableLayout :
    (ofView m p address v left right).leftNeighbors =
      (leftNumbers m p).map fun k => slot v ⟨p.level, k⟩ := by
  simp only [leftNeighbors, ofView, htable, map_map]
  rw [← map_take, ← leftNumbers_length, take_left]
  rfl

theorem rightNeighbors_of_tableLayout :
    (ofView m p address v left right).rightNeighbors =
      (rightNumbers m p).map fun k => slot v ⟨p.level, k⟩ := by
  simp only [rightNeighbors, ofView, htable, map_map]
  rw [← map_drop, ← leftNumbers_length, drop_left]
  rfl

end Neighbors

section NeighborChildren

variable (htable : tableChildLayout m p = (leftNumbers m p ++ rightNumbers m p).flatMap fun k =>
  childPositions m ⟨p.level, k⟩)
include htable

theorem routingTableNeighborChildren_of_tableChildLayout :
    (ofView m p address v left right).routingTableNeighborChildren =
      childSlots m p v (leftNumbers m p) ++ childSlots m p v (rightNumbers m p) := by
  rw [← childSlots_append]
  simp only [ofView, htable, childSlots, map_flatMap]

omit htable in
theorem startIndex_mul_eq :
    (ofView m p address v left right).rightTableNeighborStartIndex * m =
      (childSlots m p v (leftNumbers m p)).length := by
  rw [childSlots_length, leftNumbers_length]
  rfl

theorem leftNeighborChildren_of_tableChildLayout :
    (ofView m p address v left right).leftNeighborChildren m =
      childSlots m p v (leftNumbers m p) := by
  rw [leftNeighborChildren, startIndex_mul_eq,
    routingTableNeighborChildren_of_tableChildLayout _ _ _ _ htable, take_left]

theorem rightNeighborChildren_of_tableChildLayout :
    (ofView m p address v left right).rightNeighborChildren m =
      childSlots m p v (rightNumbers m p) := by
  rw [rightNeighborChildren, startIndex_mul_eq,
    routingTableNeighborChildren_of_tableChildLayout _ _ _ _ htable, drop_left]

end NeighborChildren

end Ordered

end RoutingInformation

section Small

variable {m : ℕ} (hm : isFanoutValid m = true) {p : Pos} (hp : p.Valid m)
include hm hp

theorem tableLayout_eq (hs : Small m p.level) :
    tableLayout m p = (leftNumbers m p ++ rightNumbers m p).map (Pos.mk p.level) := by
  have hfits := Small.fits hm hs
  refine tableLayout_eq_of_exact hm hp hfits fun q hq => ?_
  obtain ⟨hqv, hql⟩ := tablePositions_valid hm hfits hp hq
  exact Small.exact hm (hql ▸ hs) hqv

theorem tableChildLayout_eq (hs : Small m (p.level + 1)) :
    tableChildLayout m p = (leftNumbers m p ++ rightNumbers m p).flatMap fun k =>
      childPositions m ⟨p.level, k⟩ := by
  have hfits := Fits.mono hm (Small.fits hm hs) (Nat.le_succ p.level)
  refine tableChildLayout_eq_of_exact hm hp hfits fun r hr q hq => ?_
  obtain ⟨hrv, hrl⟩ := tablePositions_valid hm hfits hp hr
  obtain ⟨c, hc, rfl⟩ := mem_map.mp hq
  exact Small.exact hm (by simpa [hrl] using hs) (hrv.child (mem_range.mp hc))

variable (address : Address) (v : Pos → Option Address) (left right : NodeInfo)

namespace RoutingInformation

theorem leftNeighbors_ofView (hs : Small m p.level) :
    (ofView m p address v left right).leftNeighbors =
      (leftNumbers m p).map fun k => slot v ⟨p.level, k⟩ :=
  leftNeighbors_of_tableLayout _ _ _ _ (tableLayout_eq hm hp hs)

theorem rightNeighbors_ofView (hs : Small m p.level) :
    (ofView m p address v left right).rightNeighbors =
      (rightNumbers m p).map fun k => slot v ⟨p.level, k⟩ :=
  rightNeighbors_of_tableLayout _ _ _ _ (tableLayout_eq hm hp hs)

theorem leftNeighborChildren_ofView (hs : Small m (p.level + 1)) :
    (ofView m p address v left right).leftNeighborChildren m =
      childSlots m p v (leftNumbers m p) :=
  leftNeighborChildren_of_tableChildLayout _ _ _ _ (tableChildLayout_eq hm hp hs)

theorem rightNeighborChildren_ofView (hs : Small m (p.level + 1)) :
    (ofView m p address v left right).rightNeighborChildren m =
      childSlots m p v (rightNumbers m p) :=
  rightNeighborChildren_of_tableChildLayout _ _ _ _ (tableChildLayout_eq hm hp hs)

end RoutingInformation

end Small

/-! ### First and last neighbors -/

section

variable (hl : l.Pairwise (· < ·))
include hl

theorem head?_of_le (hx : x ∈ l) (hmin : ∀ y ∈ l, x ≤ y) : l.head? = some x := by
  cases l with
  | nil => simp at hx
  | cons a l =>
    have ha := hmin a (by simp)
    rcases mem_cons.mp hx with rfl | hx
    · rfl
    · have := (pairwise_cons.mp hl).1 x hx
      omega

theorem getLast?_of_ge (hx : x ∈ l) (hmax : ∀ y ∈ l, y ≤ x) : l.getLast? = some x := by
  obtain ⟨l', a, rfl⟩ : ∃ l' a, l = l' ++ [a] :=
    ⟨_, _, (dropLast_append_getLast (ne_nil_of_mem hx)).symm⟩
  have ha := hmax a (by simp)
  rw [pairwise_append] at hl
  rcases mem_append.mp hx with hx | hx
  · have := hl.2.2 x hx a (by simp)
    omega
  · simp at hx
    simp [hx]

theorem head?_le {y : ℕ} (hx : l.head? = some x) (hy : y ∈ l) : x ≤ y := by
  cases l with
  | nil => cases hy
  | cons a l =>
    obtain rfl : a = x := Option.some.inj hx
    rcases mem_cons.mp hy with rfl | hy
    · exact le_rfl
    · exact ((pairwise_cons.mp hl).1 y hy).le

theorem le_getLast? {y : ℕ} (hx : l.getLast? = some x) (hy : y ∈ l) : y ≤ x := by
  obtain ⟨l', rfl⟩ := getLast?_eq_some_iff.mp hx
  rcases mem_append.mp hy with hy | hy
  · exact ((pairwise_append.mp hl).2.2 y hy x (by simp)).le
  · exact (mem_singleton.mp hy).le

end

section Ends

variable {m : ℕ} (hm : isFanoutValid m = true) {p : Pos} (hL : Fits m p.level)
  (hp : p.Valid m)
include hm hL

/-- The nearest right neighbor is the next number. -/
theorem rightNumbers_head? (h : p.number + 1 < m ^ p.level) :
    (rightNumbers m p).head? = some (p.number + 1) := by
  have hm2 := (isFanoutValid_iff.mp hm).1
  refine head?_of_le (rightNumbers_pairwise hm hL)
    ((mem_rightNumbers hm hL).mpr ⟨by omega, h, ?_⟩) fun y hy => ?_
  · rw [Nat.add_sub_cancel_left]; exact isDist_one hm2
  · exact ((mem_rightNumbers hm hL).mp hy).1

theorem rightNumbers_eq_nil_iff : rightNumbers m p = [] ↔ m ^ p.level ≤ p.number + 1 := by
  constructor
  · intro h
    by_contra hlt
    have := rightNumbers_head? hm hL (not_le.mp hlt)
    simp [h] at this
  · intro h
    rw [eq_nil_iff_forall_not_mem]
    intro k hk
    have := (mem_rightNumbers hm hL).mp hk
    omega

include hp

/-- The nearest left neighbor is the previous number. -/
theorem leftNumbers_getLast? (h : 0 < p.number) :
    (leftNumbers m p).getLast? = some (p.number - 1) := by
  have hm2 := (isFanoutValid_iff.mp hm).1
  refine getLast?_of_ge (leftNumbers_pairwise hm hL hp)
    ((mem_leftNumbers hm hL hp).mpr ⟨by omega, ?_⟩) fun y hy => ?_
  · rw [Nat.sub_sub_self h]; exact isDist_one hm2
  · have := ((mem_leftNumbers hm hL hp).mp hy).1
    omega

theorem leftNumbers_eq_nil_iff : leftNumbers m p = [] ↔ p.number = 0 := by
  constructor
  · intro h
    by_contra hne
    have := leftNumbers_getLast? hm hL hp (Nat.pos_of_ne_zero hne)
    simp [h] at this
  · intro h
    rw [eq_nil_iff_forall_not_mem]
    intro k hk
    have := (mem_leftNumbers hm hL hp).mp hk
    omega

end Ends

namespace RoutingInformation

variable {m : ℕ} {p : Pos} {v : Pos → Option Address} {numbers : List ℕ}

theorem childSlots_head? (hm : 0 < m) {k : ℕ} (h : numbers.head? = some k) :
    (childSlots m p v numbers).head? = some (slot v ⟨p.level + 1, k * m⟩) := by
  obtain ⟨m, rfl⟩ := Nat.exists_eq_succ_of_ne_zero hm.ne'
  cases numbers with
  | nil => simp at h
  | cons a l =>
    obtain rfl : a = k := by simpa using h
    simp [childSlots, childPositions, range_succ_eq_map, Pos.child]

theorem childSlots_getLast? (hm : 0 < m) {k : ℕ} (h : numbers.getLast? = some k) :
    (childSlots m p v numbers).getLast? =
      some (slot v ⟨p.level + 1, k * m + (m - 1)⟩) := by
  obtain ⟨m, rfl⟩ := Nat.exists_eq_succ_of_ne_zero hm.ne'
  obtain ⟨l, rfl⟩ : ∃ l, numbers = l ++ [k] := getLast?_eq_some_iff.mp h
  simp [childSlots, childPositions, range_succ, Pos.child]

theorem childSlots_pairwise (h : numbers.Pairwise (· < ·)) :
    (childSlots m p v numbers).Pairwise fun n n' => n.number < n'.number := by
  unfold childSlots childPositions
  simp only [map_map]
  rw [pairwise_flatMap]
  constructor
  · intro k _
    rw [pairwise_map]
    exact pairwise_lt_range.imp fun hab => Nat.add_lt_add_left hab _
  · refine h.imp fun {k k'} hlt n hn n' hn' => ?_
    obtain ⟨c, hc, rfl⟩ := mem_map.mp hn
    obtain ⟨c', -, rfl⟩ := mem_map.mp hn'
    have hc := mem_range.mp hc
    have hle : (k + 1) * m ≤ k' * m := Nat.mul_le_mul_right m hlt
    rw [Nat.add_mul, Nat.one_mul] at hle
    show k * m + c < k' * m + c'
    omega

theorem mem_childSlots {n : NodeInfo} :
    n ∈ childSlots m p v numbers ↔
      ∃ k ∈ numbers, ∃ c < m, n = slot v ⟨p.level + 1, k * m + c⟩ := by
  simp only [childSlots, mem_flatMap, mem_map, childPositions, mem_range]
  constructor
  · rintro ⟨k, hk, q, ⟨c, hc, rfl⟩, rfl⟩
    exact ⟨k, hk, c, hc, rfl⟩
  · rintro ⟨k, hk, c, hc, rfl⟩
    exact ⟨k, hk, _, ⟨c, hc, rfl⟩, rfl⟩

end RoutingInformation

end Sola.Minhton
