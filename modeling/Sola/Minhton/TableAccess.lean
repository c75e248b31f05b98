import Sola.Minhton.RoutingRuns

/-!
The accessors for the left and the right part of the routing table
(`minhton/src/core/routing_information_table.cpp`).

They split the vectors at a stored index, which is set together with the
vectors but not reset with them.  Advancing an iterator past the end of its
vector is undefined behaviour of the source; here the accessor throws.
-/

namespace Sola.Minhton

open Sola.Lib Sola.Lib.MaryTree

namespace RoutingObject

/-! ### The accessors -/

/-- `std::advance` from the first element. -/
def advance (slots : List NodeInfo) (n : ℕ) : Except String ℕ :=
  if n ≤ slots.length then .ok n else .error "Iterator past the end"

/-- The elements before an iterator. -/
def slotsBefore (slots : List NodeInfo) (n : ℕ) : Except String (List NodeInfo) := do
  let it ← advance slots n
  return slots.take it

/-- The elements from an iterator on. -/
def slotsFrom (slots : List NodeInfo) (n : ℕ) : Except String (List NodeInfo) := do
  let it ← advance slots n
  return slots.drop it

def getLeftRoutingTableNeighborsLeftToRight (s : RoutingObject) :
    Except String (List NodeInfo) :=
  slotsBefore s.info.routingTableNeighbors s.info.rightTableNeighborStartIndex

def getRightRoutingTableNeighborsLeftToRight (s : RoutingObject) :
    Except String (List NodeInfo) :=
  slotsFrom s.info.routingTableNeighbors s.info.rightTableNeighborStartIndex

def getLeftRoutingTableNeighborChildrenLeftToRight (s : RoutingObject) :
    Except String (List NodeInfo) :=
  slotsBefore s.info.routingTableNeighborChildren
    (s.info.rightTableNeighborStartIndex * s.fanout)

def getRightRoutingTableNeighborChildrenLeftToRight (s : RoutingObject) :
    Except String (List NodeInfo) :=
  slotsFrom s.info.routingTableNeighborChildren
    (s.info.rightTableNeighborStartIndex * s.fanout)

/-- `std::reverse` of what an accessor returns. -/
def rightToLeft (get : RoutingObject → Except String (List NodeInfo)) (s : RoutingObject) :
    Except String (List NodeInfo) := do
  let neighbors ← get s
  return neighbors.reverse

def getLeftRoutingTableNeighborsRightToLeft : RoutingObject → Except String (List NodeInfo) :=
  rightToLeft getLeftRoutingTableNeighborsLeftToRight

def getRightRoutingTableNeighborsRightToLeft : RoutingObject → Except String (List NodeInfo) :=
  rightToLeft getRightRoutingTableNeighborsLeftToRight

def getLeftRoutingTableNeighborChildrenRightToLeft :
    RoutingObject → Except String (List NodeInfo) :=
  rightToLeft getLeftRoutingTableNeighborChildrenLeftToRight

def getRightRoutingTableNeighborChildrenRightToLeft :
    RoutingObject → Except String (List NodeInfo) :=
  rightToLeft getRightRoutingTableNeighborChildrenLeftToRight

def tableAccessors : List (RoutingObject → Except String (List NodeInfo)) :=
  [getLeftRoutingTableNeighborsLeftToRight, getRightRoutingTableNeighborsLeftToRight,
    getLeftRoutingTableNeighborChildrenLeftToRight,
    getRightRoutingTableNeighborChildrenLeftToRight,
    getLeftRoutingTableNeighborsRightToLeft, getRightRoutingTableNeighborsRightToLeft,
    getLeftRoutingTableNeighborChildrenRightToLeft,
    getRightRoutingTableNeighborChildrenRightToLeft]

/-! ### Safety -/

/-- No accessor leaves its vector, and without a position all of them return
empty vectors. -/
structure SafeAccess (s : RoutingObject) : Prop where
  returns : ∀ get ∈ tableAccessors, ∃ slots, get s = .ok slots
  empty : s.info.selfNodeInfo.logical = none → ∀ get ∈ tableAccessors, get s = .ok []

section Accessors

variable {slots slots' : List NodeInfo} {n : ℕ}

theorem slotsBefore_eq (h : n ≤ slots.length) : slotsBefore slots n = .ok (slots.take n) := by
  rw [slotsBefore, advance, if_pos h]
  rfl

theorem slotsFrom_eq (h : n ≤ slots.length) : slotsFrom slots n = .ok (slots.drop n) := by
  rw [slotsFrom, advance, if_pos h]
  rfl

theorem rightToLeft_eq {get : RoutingObject → Except String (List NodeInfo)} {s : RoutingObject}
    (h : get s = .ok slots) : rightToLeft get s = .ok slots.reverse := by
  rw [rightToLeft, h]
  rfl

theorem le_of_slotsBefore (h : slotsBefore slots n = .ok slots') : n ≤ slots.length := by
  by_contra hn
  rw [slotsBefore, advance, if_neg hn] at h
  cases h

end Accessors

variable {s : RoutingObject}

/-- Inside of the vectors every accessor returns a part of its vector. -/
theorem accessors_return
    (hneighbors : s.info.rightTableNeighborStartIndex ≤ s.info.routingTableNeighbors.length)
    (hchildren : s.info.rightTableNeighborStartIndex * s.fanout ≤
      s.info.routingTableNeighborChildren.length) :
    ∀ get ∈ tableAccessors, ∃ slots, get s = .ok slots ∧ (s.Cleared → slots = []) := by
  have hleft : s.getLeftRoutingTableNeighborsLeftToRight = _ := slotsBefore_eq hneighbors
  have hright : s.getRightRoutingTableNeighborsLeftToRight = _ := slotsFrom_eq hneighbors
  have hleftChildren : s.getLeftRoutingTableNeighborChildrenLeftToRight = _ :=
    slotsBefore_eq hchildren
  have hrightChildren : s.getRightRoutingTableNeighborChildrenLeftToRight = _ :=
    slotsFrom_eq hchildren
  simp only [tableAccessors, List.forall_mem_cons, List.not_mem_nil, false_imp_iff, implies_true,
    and_true]
  exact ⟨⟨_, hleft, fun h => by simp [h.neighbors]⟩,
    ⟨_, hright, fun h => by simp [h.neighbors]⟩,
    ⟨_, hleftChildren, fun h => by simp [h.neighborChildren]⟩,
    ⟨_, hrightChildren, fun h => by simp [h.neighborChildren]⟩,
    ⟨_, rightToLeft_eq hleft, fun h => by simp [h.neighbors]⟩,
    ⟨_, rightToLeft_eq hright, fun h => by simp [h.neighbors]⟩,
    ⟨_, rightToLeft_eq hleftChildren, fun h => by simp [h.neighborChildren]⟩,
    ⟨_, rightToLeft_eq hrightChildren, fun h => by simp [h.neighborChildren]⟩⟩

theorem SafeAccess.startIndex_le (h : s.SafeAccess) :
    s.info.rightTableNeighborStartIndex ≤ s.info.routingTableNeighbors.length := by
  obtain ⟨slots, hslots⟩ :=
    h.returns getLeftRoutingTableNeighborsLeftToRight (by simp [tableAccessors])
  exact le_of_slotsBefore hslots

theorem Cleared.isSafe_iff (h : s.Cleared) :
    s.SafeAccess ↔ s.info.rightTableNeighborStartIndex = 0 := by
  constructor
  · intro hsafe
    have hle := hsafe.startIndex_le
    rwa [h.neighbors, List.length_nil, Nat.le_zero] at hle
  · intro hzero
    have hreturn := accessors_return (s := s) (by omega) (by rw [hzero, Nat.zero_mul]; omega)
    refine ⟨fun get hget => ?_, fun _ get hget => ?_⟩
    · obtain ⟨slots, hslots, -⟩ := hreturn get hget
      exact ⟨slots, hslots⟩
    · obtain ⟨slots, hslots, hempty⟩ := hreturn get hget
      rw [hslots, hempty h]

theorem Built.safeAccess (h : s.Built) : s.SafeAccess := by
  have hchildren : s.info.rightTableNeighborStartIndex * s.fanout ≤
      s.info.routingTableNeighborChildren.length := by
    rw [h.neighborChildren]
    exact Nat.mul_le_mul_right _ h.startIndex
  refine ⟨fun get hget => ?_, fun hnone => ?_⟩
  · obtain ⟨slots, hslots, -⟩ := accessors_return h.startIndex hchildren get hget
    exact ⟨slots, hslots⟩
  · obtain ⟨p, hp, -⟩ := h.position
    rw [hp] at hnone
    cases hnone

/-- As long as no call throws, the accessors are safe exactly if there are
slots or the last ones had no left neighbors. -/
theorem Reachable.safeAccess_iff (h : s.Reachable) :
    s.SafeAccess ↔ s.info.children ≠ [] ∨ s.info.rightTableNeighborStartIndex = 0 := by
  rcases h.cleared_or_built with hs | hs
  · rw [hs.isSafe_iff]
    exact ⟨.inr, fun h => h.resolve_left (not_not_intro hs.children)⟩
  · exact iff_of_true hs.safeAccess (.inl hs.children_ne_nil)

/-- A node joins and learns its left neighbor. -/
theorem safeAccess_joined : ∃ s : RoutingObject, s.Reachable ∧ s.SafeAccess := by
  obtain ⟨s, hrun, hs⟩ : ∃ s : RoutingObject,
      Transitions.Reachable step (fun _ _ => True) ⟨2, .unconnected 1⟩ s ∧
        s.info.children ≠ [] :=
    Transitions.exists_reachable_of_run
      [.setPosition 2 (some ⟨1, 1⟩), .updateNeighbor ⟨some ⟨1, 0⟩, some 2⟩] (by decide +kernel)
  have hreach : s.Reachable := ⟨2, ⟨none, some 1⟩, _, rfl, hrun⟩
  exact ⟨s, hreach, (Reachable.safeAccess_iff hreach).mpr (.inl hs)⟩

/-- A node with the left neighbor 1:0 leaves. -/
theorem not_safeAccess_afterReset : ∃ s : RoutingObject, s.Reachable ∧ ¬ s.SafeAccess := by
  obtain ⟨s, hrun, hs⟩ : ∃ s : RoutingObject,
      Transitions.Reachable step (fun _ _ => True) ⟨2, .unconnected 1⟩ s ∧
        s.info.routingTableNeighbors.length < s.info.rightTableNeighborStartIndex :=
    Transitions.exists_reachable_of_run [.setPosition 2 (some ⟨1, 1⟩), .resetPosition]
      (by decide +kernel)
  exact ⟨s, ⟨2, ⟨none, some 1⟩, _, rfl, hrun⟩, fun h => absurd h.startIndex_le (by omega)⟩

end RoutingObject

end Sola.Minhton
