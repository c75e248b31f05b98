import Sola.Minhton.NeighborUpdates
import Sola.Minhton.TableAccess

/-!
Where the slots of routing information stand, and what is found in them, over
whole runs (`minhton/src/core/routing_information*.cpp`).

The slots stand at the calculated positions in every run.  Looking up a
position goes through the list of known neighbors, and there the parent is the
first one, initialized or not: it hides an adjacent at the same position.
-/

namespace Sola.Minhton

open Sola.Lib Sola.Lib.MaryTree List RoutingObject RoutingInformation

/-! ### Slots at positions -/

/-- The slots stand at exactly these positions, each one once and sorted by
number. -/
def StandAt (slots : List NodeInfo) (positions : List Pos) : Prop :=
  ∃ sorted : List Pos, sorted.Perm positions ∧
    sorted.Pairwise (fun q r => q.number < r.number) ∧ slots.map (·.logical) = sorted.map some

/-- Slots of which the left accessor returns those at `left`, and the right
accessor those at `right`. -/
structure SplitAt (slots : List NodeInfo) (getLeft getRight : Except String (List NodeInfo))
    (left right : List Pos) : Prop where
  all : StandAt slots (left ++ right)
  left : ∃ l, getLeft = .ok l ∧ StandAt l left
  right : ∃ r, getRight = .ok r ∧ StandAt r right

namespace RoutingObject

/-- All slots but those of the adjacents stand at the calculated positions. -/
structure LaidOut (s : RoutingObject) (p : Pos) : Prop where
  parent : s.info.parent.logical =
    if p.level = 0 then none else (calcParent s.fanout p).toOption
  children : ∃ positions, calcChildren s.fanout p = .ok positions ∧
    StandAt s.info.children positions
  tables : ∃ left right leftChildren rightChildren,
    calcLeftRT s.fanout p = .ok left ∧ calcRightRT s.fanout p = .ok right ∧
    left.mapM (calcChildren s.fanout) = .ok leftChildren ∧
    right.mapM (calcChildren s.fanout) = .ok rightChildren ∧
    SplitAt s.info.routingTableNeighbors s.getLeftRoutingTableNeighborsLeftToRight
      s.getRightRoutingTableNeighborsLeftToRight left right ∧
    SplitAt s.info.routingTableNeighborChildren
      s.getLeftRoutingTableNeighborChildrenLeftToRight
      s.getRightRoutingTableNeighborChildrenLeftToRight leftChildren.flatten
      rightChildren.flatten ∧
    (∀ q ∈ left, q.number < p.number) ∧ (∀ q ∈ right, p.number < q.number)

end RoutingObject

section Layout

variable {m : ℕ} (v : Pos → Option Address)

theorem standAt_map_slot {sorted positions : List Pos} (hperm : sorted.Perm positions)
    (hsorted : sorted.Pairwise fun q r => q.number < r.number) :
    StandAt (sorted.map (slot v)) positions := by
  refine ⟨sorted, hperm, hsorted, ?_⟩
  rw [map_map]
  exact map_congr_left fun q _ => slot_logical v q

/-- Slots in two parts, which have been split at the length of the first one. -/
theorem splitAt_append {left right : List Pos} {leftSorted rightSorted : List Pos} {n : ℕ}
    (hleft : leftSorted.Perm left) (hright : rightSorted.Perm right)
    (hsorted : (leftSorted ++ rightSorted).Pairwise fun q r => q.number < r.number)
    (hn : n = leftSorted.length) :
    SplitAt ((leftSorted ++ rightSorted).map (slot v))
      (slotsBefore ((leftSorted ++ rightSorted).map (slot v)) n)
      (slotsFrom ((leftSorted ++ rightSorted).map (slot v)) n) left right := by
  have hle : n ≤ ((leftSorted ++ rightSorted).map (slot v)).length := by
    rw [hn, length_map, length_append]
    exact Nat.le_add_right _ _
  obtain ⟨hleftSorted, hrightSorted, -⟩ := pairwise_append.mp hsorted
  refine ⟨standAt_map_slot v (hleft.append hright) hsorted, ?_, ?_⟩
  · refine ⟨_, slotsBefore_eq hle, ?_⟩
    rw [hn, ← map_take, take_left]
    exact standAt_map_slot v hleft hleftSorted
  · refine ⟨_, slotsFrom_eq hle, ?_⟩
    rw [hn, ← map_drop, drop_left]
    exact standAt_map_slot v hright hrightSorted

variable (hm : isFanoutValid m = true) {p : Pos} (hp : p.Valid m) (hfit : NumbersFit m p)
  (address : Option Address) (left right : NodeInfo)
include hm hp hfit

open RoutingInformation (ofView withAddress)

omit v address left right in
/-- The numbers from left to right, on the level of the node. -/
theorem tableNumbers_sorted :
    ((leftNumbers m p).map (Pos.mk p.level) ++ (rightNumbers m p).map (Pos.mk p.level)).Pairwise
      fun q r => q.number < r.number := by
  rw [← map_append, pairwise_map]
  exact tableNumbers_pairwise hm (hfit.fits hm hp) hp

section Tables

variable {leftPositions rightPositions : List Pos}
  (hleft : calcLeftRT m p = .ok leftPositions) (hright : calcRightRT m p = .ok rightPositions)
include hleft hright

omit v address left right in
theorem tableNumbers_perm : ((leftNumbers m p).map (Pos.mk p.level)).Perm leftPositions ∧
    ((rightNumbers m p).map (Pos.mk p.level)).Perm rightPositions := by
  rw [calcLeftRT_eq hm hp] at hleft
  rw [calcRightRT_eq hm (hfit.fits hm hp) hp] at hright
  obtain rfl := Except.ok.inj hleft
  obtain rfl := Except.ok.inj hright
  constructor
  · rw [leftNumbers, map_reverse, map_map]
    exact reverse_perm _
  · rw [rightNumbers, map_map]
    exact .refl _

theorem splitAt_neighbors :
    SplitAt ((tableLayout m p).map (slot v))
      (slotsBefore ((tableLayout m p).map (slot v)) (leftDistances m p).length)
      (slotsFrom ((tableLayout m p).map (slot v)) (leftDistances m p).length)
      leftPositions rightPositions := by
  obtain ⟨hleftPerm, hrightPerm⟩ := tableNumbers_perm hm hp hfit hleft hright
  rw [tableLayout_eq_of_exact hm hp (hfit.fits hm hp) fun q hq =>
    (hfit.exact_table hm hp (mem_tableLayout.mpr hq)).2, map_append]
  refine splitAt_append v hleftPerm hrightPerm (tableNumbers_sorted hm hp hfit) ?_
  rw [length_map, leftNumbers_length]

theorem splitAt_neighborChildren :
    SplitAt ((tableChildLayout m p).map (slot v))
      (slotsBefore ((tableChildLayout m p).map (slot v))
        ((leftDistances m p).length * m))
      (slotsFrom ((tableChildLayout m p).map (slot v))
        ((leftDistances m p).length * m))
      (leftPositions.map (childPositions m)).flatten
      (rightPositions.map (childPositions m)).flatten := by
  obtain ⟨hleftPerm, hrightPerm⟩ := tableNumbers_perm hm hp hfit hleft hright
  have hsorted := flatMap_childPositions_sorted (m := m) (tableNumbers_sorted hm hp hfit)
  rw [flatMap_append] at hsorted
  rw [tableChildLayout_eq_of_exact hm hp (hfit.fits hm hp) fun r hr q hq =>
      (hfit.exact_tableChild hm hp (mem_tableChildLayout.mpr ⟨r, hr, hq⟩)).2,
    ← flatMap_map, map_append, flatMap_append]
  refine splitAt_append v ?_ ?_ hsorted ?_
  · exact hleftPerm.flatMap_right _
  · exact hrightPerm.flatMap_right _
  · have hlength := childSlots_length (m := m) (p := p) v (leftNumbers m p)
    rw [leftNumbers_length] at hlength
    rw [← hlength, childSlots, ← map_flatMap, length_map,
      flatMap_map]

end Tables

theorem laidOut_ofView :
    LaidOut ⟨m, (ofView m p 0 v left right).withAddress address⟩ p := by
  have hfits := hfit.fits hm hp
  have hleft := calcLeftRT_eq hm hp
  have hright := calcRightRT_eq hm hfits hp
  have hchildren : ∀ q ∈ tablePositions m p, calcChildren m q = .ok (childPositions m q) := by
    intro q hq
    obtain ⟨hqv, hql⟩ := tablePositions_valid hm hfits hp hq
    exact Fits.calcChildren_eq hm (hql ▸ hfits) hqv
  constructor
  · show (if p.level = 0 then NodeInfo.none else slot v (p.parent m)).logical = _
    split_ifs with h0
    · rfl
    · show _ = (calcParent m p).toOption
      rw [calcParent_eq hm hp h0]
      rfl
  · exact ⟨_, Fits.calcChildren_eq hm hfits hp,
      standAt_map_slot v (.refl _) (childPositions_sorted m p)⟩
  · refine ⟨_, _, _, _, hleft, hright,
      mapM_ok fun q hq => hchildren q (mem_append_left _ hq),
      mapM_ok fun q hq => hchildren q (mem_append_right _ hq),
      splitAt_neighbors v hm hp hfit hleft hright,
      splitAt_neighborChildren v hm hp hfit hleft hright, fun q hq => ?_, fun q hq => ?_⟩
    · rw [← (tableNumbers_perm hm hp hfit hleft hright).1.mem_iff] at hq
      obtain ⟨k, hk, rfl⟩ := mem_map.mp hq
      exact ((mem_leftNumbers hm hfits hp).mp hk).1
    · rw [← (tableNumbers_perm hm hp hfit hleft hright).2.mem_iff] at hq
      obtain ⟨k, hk, rfl⟩ := mem_map.mp hq
      exact ((mem_rightNumbers hm hfits).mp hk).1

end Layout

/-! ### Looking up positions -/

namespace RoutingInformation

/-- Some slot at the position is initialized. -/
def HasInitialized (ri : RoutingInformation) (q : Pos) : Prop :=
  ∃ x, (x = ri.parent ∨ x = ri.adjacentLeft ∨ x = ri.adjacentRight ∨ x ∈ ri.children ∨
    x ∈ ri.routingTableNeighbors ∨ x ∈ ri.routingTableNeighborChildren) ∧
    x.logical = some q ∧ x.isInitialized = true

/-- An adjacent at the position of the parent is not there without the parent. -/
def KnowsAdjacentParent (ri : RoutingInformation) : Prop :=
  ∀ q, ri.parent.logical = some q →
    ri.adjacentLeft.logical = some q ∨ ri.adjacentRight.logical = some q →
    ri.parent.isInitialized = true

variable {m : ℕ} {ri : RoutingInformation} {p : Pos}

/-- The parent is found before all other nodes. -/
theorem getNodeInfoByPosition_parent {q : Pos} (hself : ri.selfNodeInfo.isValidPeer = true)
    (hq : isPositionValid m q = true) (hlevel : ri.selfNodeInfo.level ≠ 0)
    (hparent : ri.parent.logical = some q) : ri.getNodeInfoByPosition m q = .ok ri.parent := by
  have hadjacent : ∀ {l : List NodeInfo} {a : NodeInfo},
      (l.find? fun n => n.pos = q) = some ri.parent →
      ((addAdjacent l a).find? fun n => n.pos = q) = some ri.parent := by
    intro l a h
    unfold addAdjacent
    split_ifs
    · rw [find?_append, h]
      rfl
    · exact h
  rw [getNodeInfoByPosition_eq hself hq, getAllUniqueKnownExistingNeighbors, find?_append,
    getAllUniqueSymmetricalExistingNeighbors]
  rw [hadjacent (hadjacent ?_)]
  · rfl
  · rw [if_pos hlevel, singleton_append, cons_append, find?_cons_of_pos]
    simpa using NodeInfo.pos_of_logical hparent

/-- What the layout says about the levels of slots. -/
structure SlotLevels (m : ℕ) (p : Pos) (ri : RoutingInformation) : Prop where
  self : ri.selfNodeInfo.logical = some p
  root : p.level = 0 → ri.parent = .none
  parent : p.level ≠ 0 → ∃ r : Pos, ri.parent.logical = some r ∧ r.level < p.level ∧ r.Valid m
  slots : ∀ x, x ∈ ri.children ∨ x ∈ ri.routingTableNeighbors ∨
    x ∈ ri.routingTableNeighborChildren → ∀ q, x.logical = some q → p.level ≤ q.level
  adjacents : ∀ x, x = ri.adjacentLeft ∨ x = ri.adjacentRight →
    ∀ q, x.logical = some q → x.isInitialized = true

namespace SlotLevels

variable (h : SlotLevels m p ri)
include h

theorem isValidPeer : ri.selfNodeInfo.isValidPeer = true := by
  rw [NodeInfo.isValidPeer, h.self]
  rfl

theorem level_eq : ri.selfNodeInfo.level = p.level := by
  rw [NodeInfo.level, NodeInfo.pos_of_logical h.self]

/-- A known node at a position with an initialized slot is initialized. -/
theorem initialized_of_known (hparent : ri.KnowsAdjacentParent) {n : NodeInfo} {q : Pos}
    (hn : n ∈ ri.getAllUniqueKnownExistingNeighbors) (hpos : n.pos = q)
    (hq : ri.HasInitialized q) : n.isInitialized = true := by
  rcases known_cases hn with ⟨hlevel, rfl⟩ | ⟨hinit, -⟩
  · -- the parent has been found
    rw [h.level_eq] at hlevel
    obtain ⟨r, hr, hrlevel, -⟩ := h.parent hlevel
    obtain rfl : r = q := (NodeInfo.pos_of_logical hr).symm.trans hpos
    obtain ⟨x, rfl | rfl | rfl | hslot, hlogical, hinit⟩ := hq
    · exact hinit
    · exact hparent r hr (.inl hlogical)
    · exact hparent r hr (.inr hlogical)
    · have hle := h.slots x hslot r hlogical
      omega
  · exact hinit

/-- Every initialized slot is known by its position. -/
theorem exists_known {q : Pos} (hq : ri.HasInitialized q) :
    ∃ n ∈ ri.getAllUniqueKnownExistingNeighbors, n.pos = q := by
  obtain ⟨x, hx, hlogical, hinit⟩ := hq
  have hpos := NodeInfo.pos_of_logical hlogical
  rcases hx with rfl | rfl | rfl | hx | hx | hx
  · have hlevel : ri.selfNodeInfo.level ≠ 0 := by
      rw [h.level_eq]
      intro h0
      rw [h.root h0] at hlogical
      cases hlogical
    exact ⟨_, parent_known hlevel, hpos⟩
  · obtain ⟨n, hn, heq⟩ := adjacentLeft_known hinit
    exact ⟨n, hn, NodeInfo.pos_of_logical (heq.trans hlogical)⟩
  · obtain ⟨n, hn, heq⟩ := adjacentRight_known hinit
    exact ⟨n, hn, NodeInfo.pos_of_logical (heq.trans hlogical)⟩
  · exact ⟨x, child_known hx hinit, hpos⟩
  · exact ⟨x, neighbor_known hx hinit, hpos⟩
  · exact ⟨x, neighborChild_known hx hinit, hpos⟩

omit h in
theorem hasInitialized_of_known {n : NodeInfo} {q : Pos}
    (hn : n ∈ ri.getAllUniqueKnownExistingNeighbors) (hpos : n.pos = q)
    (hinit : n.isInitialized = true) : ri.HasInitialized q := by
  refine ⟨n, ?_, NodeInfo.logical_eq_of_pos hinit hpos, hinit⟩
  rcases known_cases hn with ⟨-, hn⟩ | ⟨-, hn⟩
  · exact .inl hn
  · exact .inr hn

theorem finds_iff (hm : isFanoutValid m = true) :
    (∀ q : Pos, q.Valid m → ∃ n, ri.getNodeInfoByPosition m q = .ok n ∧
      (n.isInitialized = true ↔ ri.HasInitialized q)) ↔ ri.KnowsAdjacentParent := by
  constructor
  · intro hfinds q hq hadjacent
    have hlevel : p.level ≠ 0 := by
      intro h0
      rw [h.root h0] at hq
      cases hq
    obtain ⟨r, hr, -, hvalid⟩ := h.parent hlevel
    obtain rfl : r = q := Option.some.inj (hr.symm.trans hq)
    obtain ⟨n, hn, hiff⟩ := hfinds r hvalid
    rw [getNodeInfoByPosition_parent h.isValidPeer ((isPositionValid_iff hm).mpr hvalid)
      (by rwa [h.level_eq]) hr] at hn
    obtain rfl := Except.ok.inj hn
    rw [hiff]
    rcases hadjacent with hleft | hright
    · exact ⟨_, .inr (.inl rfl), hleft, h.adjacents _ (.inl rfl) r hleft⟩
    · exact ⟨_, .inr (.inr (.inl rfl)), hright, h.adjacents _ (.inr rfl) r hright⟩
  · intro hparent q hq
    rcases getNodeInfoByPosition_cases h.isValidPeer ((isPositionValid_iff hm).mpr hq) with
      ⟨n, hn, hpos, hlookup⟩ | ⟨hnone, hlookup⟩
    · exact ⟨n, hlookup, hasInitialized_of_known hn hpos, h.initialized_of_known hparent hn hpos⟩
    · refine ⟨.none, hlookup, iff_of_false (by simp) fun hinit => ?_⟩
      obtain ⟨n, hn, hpos⟩ := h.exists_known hinit
      exact hnone n hn hpos

end SlotLevels

theorem slotLevels_ofView (hp : p.Valid m)
    {v : Pos → Option Address} {left right : NodeInfo} (hleft : LeftOf m p left)
    (hright : RightOf m p right) (address : Option Address) :
    SlotLevels m p ((ofView m p 0 v left right).withAddress address) := by
  have hlevels : ∀ positions : List Pos, (∀ r ∈ positions, p.level ≤ r.level) →
      ∀ x ∈ positions.map (slot v), ∀ q, x.logical = some q → p.level ≤ q.level := by
    intro positions hpositions x hx q hq
    obtain ⟨r, hr, rfl⟩ := mem_map.mp hx
    rw [slot_logical] at hq
    obtain rfl : r = q := Option.some.inj hq
    exact hpositions r hr
  refine ⟨rfl, fun h0 => if_pos h0, fun h0 => ?_, ?_, ?_⟩
  · refine ⟨p.parent m, ?_, Nat.sub_one_lt h0, hp.parent h0⟩
    show (if p.level = 0 then NodeInfo.none else slot v (p.parent m)).logical = _
    rw [if_neg h0, slot_logical]
  · rintro x (hx | hx | hx)
    · exact hlevels _ (fun r hr => by have := (mem_childPositions.mp hr).1; omega) x hx
    · refine hlevels _ (fun r hr => ?_) x hx
      exact (level_of_mem_tableLayout hr).ge
    · exact hlevels _ (fun r hr => by have := level_of_mem_tableChildLayout hr; omega) x hx
  · rintro x (rfl | rfl) q hq
    · rcases hleft with rfl | ⟨hinit, -⟩
      · cases hq
      · exact hinit
    · rcases hright with rfl | ⟨hinit, -⟩
      · cases hq
      · exact hinit

end RoutingInformation

namespace RoutingObject

/-- Looking up a position returns an initialized node exactly if some slot at
the position is initialized. -/
def FindsSlots (s : RoutingObject) : Prop :=
  ∀ q : Pos, q.Valid s.fanout → ∃ n, s.info.getNodeInfoByPosition s.fanout q = .ok n ∧
    (n.isInitialized = true ↔ s.info.HasInitialized q)

/-- The slots stay at the calculated positions, and what is in them is found,
unless an adjacent at the parent's position is there without the parent. -/
theorem Reachable.laidOut_and_findsSlots_iff {s : RoutingObject} (h : s.Reachable) {p : Pos}
    (hs : s.PositionedAt p) (hfit : NumbersFit s.fanout p) :
    s.LaidOut p ∧ (s.FindsSlots ↔ s.info.KnowsAdjacentParent) := by
  obtain ⟨hm, hp, v, left, right, hleft, hright, hinfo⟩ := h.showsView hs hfit
  obtain ⟨m, info⟩ := s
  change info = (ofView m p 0 v left right).withAddress
    info.selfNodeInfo.physical at hinfo
  generalize info.selfNodeInfo.physical = address at hinfo
  subst hinfo
  have hlevels := slotLevels_ofView hp (v := v) hleft hright address
  exact ⟨laidOut_ofView v hm hp hfit address left right, hlevels.finds_iff hm⟩

/-- The node 1:1 knows the root as parent and as left adjacent. -/
theorem laidOut_and_findsSlots_joined :
    ∃ s : RoutingObject, s.Reachable ∧ s.LaidOut ⟨1, 1⟩ ∧ s.FindsSlots := by
  obtain ⟨⟨fanout, info⟩, hrun, rfl, hself, hparent⟩ : ∃ s : RoutingObject,
      Transitions.Reachable step (fun _ _ => True) ⟨2, .unconnected 1⟩ s ∧
        s.fanout = 2 ∧ s.info.selfNodeInfo = ⟨some ⟨1, 1⟩, some 1⟩ ∧
        s.info.parent.isInitialized = true :=
    Transitions.exists_reachable_of_run
      [.setPosition 2 (some ⟨1, 1⟩), .slot (.setParent ⟨some ⟨0, 0⟩, some 2⟩),
        .slot (.setAdjacentLeft ⟨some ⟨0, 0⟩, some 2⟩)] (by decide +kernel)
  have hreach : Reachable ⟨2, info⟩ := ⟨2, ⟨none, some 1⟩, _, rfl, hrun⟩
  have hs : PositionedAt ⟨2, info⟩ ⟨1, 1⟩ := .of_self hself
  obtain ⟨hlaidOut, hfinds⟩ := Reachable.laidOut_and_findsSlots_iff hreach hs numbersFit_two_one
  exact ⟨_, hreach, hlaidOut, hfinds.mpr fun _ _ _ => hparent⟩

/-- The node 1:1 learns the root as its left adjacent, but not as its parent. -/
theorem not_findsSlots_unknownParent :
    ∃ s : RoutingObject, s.Reachable ∧ s.PositionedAt ⟨1, 1⟩ ∧ NumbersFit s.fanout ⟨1, 1⟩ ∧
      ¬ s.FindsSlots := by
  obtain ⟨⟨fanout, info⟩, hrun, rfl, hself, hlookup, hadjacent⟩ : ∃ s : RoutingObject,
      Transitions.Reachable step (fun _ _ => True) ⟨2, .unconnected 1⟩ s ∧
        s.fanout = 2 ∧ s.info.selfNodeInfo = ⟨some ⟨1, 1⟩, some 1⟩ ∧
        (s.info.getNodeInfoByPosition 2 ⟨0, 0⟩).toOption = some (.ofPos ⟨0, 0⟩) ∧
        s.info.adjacentLeft = ⟨some ⟨0, 0⟩, some 2⟩ :=
    Transitions.exists_reachable_of_run
      [.setPosition 2 (some ⟨1, 1⟩), .slot (.setAdjacentLeft ⟨some ⟨0, 0⟩, some 2⟩)]
      (by decide +kernel)
  refine ⟨_, ⟨2, ⟨none, some 1⟩, _, rfl, hrun⟩, .of_self hself, numbersFit_two_one,
    fun hfinds => ?_⟩
  obtain ⟨n, hn, hiff⟩ := hfinds ⟨0, 0⟩ Nat.one_pos
  have hslot : info.HasInitialized ⟨0, 0⟩ :=
    ⟨_, .inr (.inl rfl), by rw [hadjacent], by rw [hadjacent]; rfl⟩
  rw [show info.getNodeInfoByPosition 2 ⟨0, 0⟩ = .ok n from hn] at hlookup
  obtain rfl : n = .ofPos ⟨0, 0⟩ := Option.some.inj hlookup
  cases hiff.mpr hslot

end RoutingObject

end Sola.Minhton
