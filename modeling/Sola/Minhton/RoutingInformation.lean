import Mathlib.Data.List.Sort
import Sola.Minhton.RoutingCalculations

/-!
Node information and the routing information of a node
(`minhton/src/core/node_info.cpp`, `logical_node_info.cpp`,
`routing_information*.cpp`).

A `LogicalNodeInfo` is an optional position: the source's flag
`initialized_` tells the default object from one with a position.  All
positions of a network have its fanout `m`, so the fanout is a parameter and
the tests for equal fanouts are left out.  A `PhysicalNodeInfo` is an
optional address.
-/

namespace Sola.Minhton

open Sola.Lib.MaryTree Sola.Lib.Distances List

/-- The identity of an address and port pair. -/
abbrev Address := ℕ

structure NodeInfo where
  logical : Option Pos
  physical : Option Address
deriving DecidableEq, Repr

namespace NodeInfo

/-- The default object `NodeInfo()`. -/
def none : NodeInfo := ⟨.none, .none⟩

/-- `NodeInfo(level, number, fanout)`: a position without an address. -/
def ofPos (p : Pos) : NodeInfo := ⟨some p, .none⟩

def isInitialized (n : NodeInfo) : Bool := n.logical.isSome && n.physical.isSome

def isValidPeer (n : NodeInfo) : Bool := n.logical.isSome

/-- Level and number of the default `LogicalNodeInfo` are 0. -/
def pos (n : NodeInfo) : Pos := n.logical.getD ⟨0, 0⟩

def level (n : NodeInfo) : ℕ := n.pos.level

def number (n : NodeInfo) : ℕ := n.pos.number

def horizontalValue (m : ℕ) (n : NodeInfo) : ℚ := Minhton.horizontalValue m n.pos

variable (p : Pos) (a : Option Address)

@[simp] theorem level_mk : level ⟨some p, a⟩ = p.level := rfl

@[simp] theorem number_mk : number ⟨some p, a⟩ = p.number := rfl

@[simp] theorem pos_mk : pos ⟨some p, a⟩ = p := rfl

@[simp] theorem isInitialized_mk : isInitialized ⟨some p, a⟩ = a.isSome := rfl

@[simp] theorem isValidPeer_mk : isValidPeer ⟨some p, a⟩ = true := rfl

@[simp] theorem isInitialized_none : isInitialized none = false := rfl

variable {n : NodeInfo}

theorem isInitialized_iff :
    n.isInitialized = true ↔ n.logical.isSome = true ∧ n.physical.isSome = true := by
  simp [isInitialized]

theorem pos_of_logical {q : Pos} (h : n.logical = some q) : n.pos = q := by
  rw [pos, h]
  rfl

theorem logical_eq_of_pos {q : Pos} (hinit : n.isInitialized = true) (hpos : n.pos = q) :
    n.logical = some q := by
  obtain ⟨l, a⟩ := n
  cases l with
  | none => simp [isInitialized] at hinit
  | some p =>
    subst hpos
    rfl

theorem horizontalValue_of_logical {m : ℕ} {p : Pos} (h : n.logical = some p) :
    n.horizontalValue m = Minhton.horizontalValue m p := by
  rw [horizontalValue, pos_of_logical h]

end NodeInfo

/-- The node information of an existing node. -/
def existingNode (address : Pos → Address) (p : Pos) : NodeInfo :=
  ⟨some p, some (address p)⟩

/-- The adjacent slot for an optional in-order neighbor. -/
def adjacentSlot (address : Pos → Address) (o : Option Pos) : NodeInfo :=
  o.elim .none (existingNode address)

/-- The routing information of one node.  The two tables are kept sorted by
horizontal value; the first `rightTableNeighborStartIndex` neighbors count
as the left ones. -/
structure RoutingInformation where
  selfNodeInfo : NodeInfo
  parent : NodeInfo
  children : List NodeInfo
  adjacentLeft : NodeInfo
  adjacentRight : NodeInfo
  routingTableNeighbors : List NodeInfo
  routingTableNeighborChildren : List NodeInfo
  rightTableNeighborStartIndex : ℕ
deriving DecidableEq, Repr

/-- `std::sort` with the comparison of horizontal values. -/
def sortNodes (m : ℕ) (nodes : List NodeInfo) : List NodeInfo :=
  nodes.insertionSort fun a b => a.horizontalValue m ≤ b.horizontalValue m

namespace RoutingInformation

section Definitions

variable (m : ℕ) (ri : RoutingInformation)

/-! ### Setting the position -/

def initParent (p : Pos) : Except String NodeInfo :=
  if p.level > 0 then do
    let parent ← calcParent m p
    return .ofPos parent
  else return .none

def initChildren (p : Pos) : Except String (List NodeInfo) := do
  let positions ← calcChildren m p
  return positions.map .ofPos

/-- `initParentAndChildren` and `initRoutingTableNeighbors` for a valid
position; the adjacents start uninitialized. -/
def init (p : Pos) (address : Option Address) : Except String RoutingInformation := do
  let parent ← initParent m p
  let children ← initChildren m p
  let left ← calcLeftRT m p
  let right ← calcRightRT m p
  let neighborChildren ← (left ++ right).mapM (calcChildren m)
  return {
    selfNodeInfo := ⟨some p, address⟩
    parent := parent
    children := children
    adjacentLeft := .none
    adjacentRight := .none
    routingTableNeighbors := sortNodes m ((left ++ right).map .ofPos)
    routingTableNeighborChildren := sortNodes m (neighborChildren.flatten.map .ofPos)
    rightTableNeighborStartIndex := left.length }

/-- `clearRoutingTable`; the start index keeps its value. -/
def clearRoutingTable : RoutingInformation :=
  { ri with
    parent := .none
    children := []
    adjacentLeft := .none
    adjacentRight := .none
    routingTableNeighbors := []
    routingTableNeighborChildren := [] }

def resetPosition : RoutingInformation :=
  clearRoutingTable { ri with selfNodeInfo := ⟨none, ri.selfNodeInfo.physical⟩ }

def setPosition (position : Pos) : Except String RoutingInformation :=
  if !isPositionValid m position then .error "Peer has invalid Position"
  else if ri.selfNodeInfo.physical.isSome then init m position ri.selfNodeInfo.physical
  else .ok (clearRoutingTable { ri with selfNodeInfo := .ofPos position })

/-- The routing information of a node without a position. -/
def unconnected (address : Address) : RoutingInformation where
  selfNodeInfo := ⟨none, some address⟩
  parent := .none
  children := []
  adjacentLeft := .none
  adjacentRight := .none
  routingTableNeighbors := []
  routingTableNeighborChildren := []
  rightTableNeighborStartIndex := 0

/-! ### Changing slots -/

def setParent (parent : NodeInfo) : Except String RoutingInformation :=
  if !ri.selfNodeInfo.isValidPeer then
    .error "Cannot set Parent for uninitialized RoutingInformation."
  else if ri.selfNodeInfo.level = 0 then .error "Root cannot have a parent"
  else if ri.parent.logical ≠ parent.logical then
    .error "The NodeInfo needs to have the correct LogicalNodeInfo position in the tree."
  else if !parent.isInitialized then .error "Parent must be initialized / must exist"
  else .ok { ri with parent := parent }

def setChild (child : NodeInfo) (position : ℕ) : Except String RoutingInformation :=
  if !ri.selfNodeInfo.isValidPeer then
    .error "Cannot set Child for uninitialized RoutingInformation."
  else if position ≥ m then .error "Position not in range"
  else if (ri.children.getD position .none).logical ≠ child.logical then
    .error "The NodeInfo needs to have the correct LogicalNodeInfo position in the tree."
  else if !child.isInitialized then .error "Child must be initialized / must exist"
  else .ok { ri with children := ri.children.set position child }

def setAdjacentLeft (adjacent : NodeInfo) : Except String RoutingInformation :=
  if !ri.selfNodeInfo.isValidPeer then
    .error "Cannot set Adjacent for uninitialized RoutingInformation."
  else if !adjacent.isInitialized then .error "Adjacent must be initialized / must exist"
  else if adjacent.horizontalValue m ≥ ri.selfNodeInfo.horizontalValue m then
    .error "Adjacent is not to the left of us"
  else .ok { ri with adjacentLeft := adjacent }

def setAdjacentRight (adjacent : NodeInfo) : Except String RoutingInformation :=
  if !ri.selfNodeInfo.isValidPeer then
    .error "Cannot set Adjacent for uninitialized RoutingInformation."
  else if !adjacent.isInitialized then .error "Adjacent must be initialized / must exist"
  else if adjacent.horizontalValue m ≤ ri.selfNodeInfo.horizontalValue m then
    .error "Adjacent is not to the right of us"
  else .ok { ri with adjacentRight := adjacent }

def resetAdjacentLeft : Except String RoutingInformation :=
  if !ri.selfNodeInfo.isValidPeer then .error "RoutingInformation not initialized"
  else if ri.adjacentLeft.isInitialized then .ok { ri with adjacentLeft := .none }
  else .ok ri

def resetAdjacentRight : Except String RoutingInformation :=
  if !ri.selfNodeInfo.isValidPeer then .error "RoutingInformation not initialized"
  else if ri.adjacentRight.isInitialized then .ok { ri with adjacentRight := .none }
  else .ok ri

/-- Change the address at the position found by `std::lower_bound`, if the
position found there is the one looked for. -/
def setAtLowerBound (m : ℕ) (n : NodeInfo) (address : Option Address) :
    List NodeInfo → List NodeInfo
  | [] => []
  | x :: xs =>
    if x.horizontalValue m < n.horizontalValue m then
      x :: setAtLowerBound m n address xs
    else if x.logical = n.logical then ⟨x.logical, address⟩ :: xs
    else x :: xs

def updateRoutingTableNeighbor (n : NodeInfo) : Except String RoutingInformation :=
  if !ri.selfNodeInfo.isValidPeer then .error "RoutingInformation not initialized"
  else if !n.isInitialized then .error "Neighbor Node to update is not initialized"
  else .ok { ri with
    routingTableNeighbors := setAtLowerBound m n n.physical ri.routingTableNeighbors }

def updateRoutingTableNeighborChild (n : NodeInfo) : Except String RoutingInformation :=
  if !ri.selfNodeInfo.isValidPeer then .error "RoutingInformation not initialized"
  else if !n.isInitialized then .error "Child to update is not initialized"
  else .ok { ri with
    routingTableNeighborChildren :=
      setAtLowerBound m n n.physical ri.routingTableNeighborChildren }

def resetRoutingTableNeighbor (n : NodeInfo) : Except String RoutingInformation :=
  if !ri.selfNodeInfo.isValidPeer then .error "RoutingInformation not initialized"
  else if !n.isValidPeer then .error "LogicalNodeInfo to reset is not initialized"
  else .ok { ri with
    routingTableNeighbors := setAtLowerBound m n none ri.routingTableNeighbors }

def resetRoutingTableNeighborChild (n : NodeInfo) : Except String RoutingInformation :=
  if !ri.selfNodeInfo.isValidPeer then .error "RoutingInformation not initialized"
  else if !n.isValidPeer then .error "LogicalNodeInfo to reset is not initialized"
  else .ok { ri with
    routingTableNeighborChildren :=
      setAtLowerBound m n none ri.routingTableNeighborChildren }

def resetChild (position : ℕ) : Except String RoutingInformation :=
  if !ri.selfNodeInfo.isValidPeer then .error "RoutingInformation not initialized"
  else if position ≥ m then .error "Invalid Position to reset Child"
  else .ok { ri with
    children := ri.children.set position
      ⟨(ri.children.getD position .none).logical, none⟩ }

def resetChildOrRoutingTableNeighborChild (n : NodeInfo) : Except String RoutingInformation :=
  if !n.isValidPeer then .error "Childs LogicalNodeInfo to reset is not initialized"
  else if n.level ≠ ri.selfNodeInfo.level + 1 then
    .error "Childs to reset is not on one level lower"
  else if n.number / m = ri.selfNodeInfo.number then
    match ri.children.find? fun c => c.isInitialized && c.logical = n.logical with
    | some child => ri.resetChild m (child.number % m)
    | none => .ok ri
  else ri.resetRoutingTableNeighborChild m n

def removeNeighbor (n : NodeInfo) : Except String RoutingInformation :=
  if ri.parent.logical = n.logical then
    .error "Parent cannot be removed from routing information. Only updated."
  else do
    let ri ←
      if ri.adjacentLeft.logical = n.logical then ri.resetAdjacentLeft
      else if ri.adjacentRight.logical = n.logical then ri.resetAdjacentRight
      else pure ri
    if n.level = ri.selfNodeInfo.level then ri.resetRoutingTableNeighbor m n
    else if n.level = ri.selfNodeInfo.level + 1 then
      ri.resetChildOrRoutingTableNeighborChild m n
    else pure ri

def updateNeighbor (n : NodeInfo) : Except String RoutingInformation :=
  if !n.isInitialized then .error "Node to Update has to be initialized"
  else do
    let ri ←
      if ri.adjacentLeft.logical = n.logical then ri.setAdjacentLeft m n
      else if ri.adjacentRight.logical = n.logical then ri.setAdjacentRight m n
      else pure ri
    let ri ← if ri.parent.logical = n.logical then ri.setParent n else pure ri
    if n.level = ri.selfNodeInfo.level then ri.updateRoutingTableNeighbor m n
    else if n.level = ri.selfNodeInfo.level + 1 then do
      let positions ← calcChildren m ri.selfNodeInfo.pos
      if positions.any fun c => c.number = n.number then
        ri.setChild m n (n.number % m)
      else ri.updateRoutingTableNeighborChild m n
    else pure ri

/-! ### Reading slots -/

def initializedChildren : List NodeInfo :=
  ri.children.filter (·.isInitialized)

def areChildrenFull : Bool :=
  !ri.children.any fun child => !child.isInitialized

def initializedRoutingTableNeighbors : List NodeInfo :=
  ri.routingTableNeighbors.filter (·.isInitialized)

def initializedRoutingTableNeighborChildren : List NodeInfo :=
  ri.routingTableNeighborChildren.filter (·.isInitialized)

def leftNeighbors : List NodeInfo :=
  ri.routingTableNeighbors.take ri.rightTableNeighborStartIndex

def rightNeighbors : List NodeInfo :=
  ri.routingTableNeighbors.drop ri.rightTableNeighborStartIndex

def leftNeighborChildren : List NodeInfo :=
  ri.routingTableNeighborChildren.take (ri.rightTableNeighborStartIndex * m)

def rightNeighborChildren : List NodeInfo :=
  ri.routingTableNeighborChildren.drop (ri.rightTableNeighborStartIndex * m)

def directLeftNeighbor : NodeInfo :=
  ri.leftNeighbors.getLastD .none

def directRightNeighbor : NodeInfo :=
  ri.rightNeighbors.headD .none

def leftmostNeighbor : NodeInfo :=
  ri.leftNeighbors.headD .none

def rightmostNeighbor : NodeInfo :=
  ri.rightNeighbors.getLastD .none

def leftmostNeighborChild : NodeInfo :=
  (ri.leftNeighborChildren m).headD .none

/-- Append an adjacent that is initialized and not among the others. -/
def addAdjacent (neighbors : List NodeInfo) (adjacent : NodeInfo) : List NodeInfo :=
  if adjacent.isInitialized && !neighbors.any fun n => adjacent.logical = n.logical then
    neighbors ++ [adjacent]
  else neighbors

def getAllUniqueSymmetricalExistingNeighbors : List NodeInfo :=
  let parent := if ri.selfNodeInfo.level ≠ 0 then [ri.parent] else []
  let neighbors := parent ++ ri.initializedChildren ++ ri.initializedRoutingTableNeighbors
  addAdjacent (addAdjacent neighbors ri.adjacentLeft) ri.adjacentRight

def getAllUniqueKnownExistingNeighbors : List NodeInfo :=
  ri.getAllUniqueSymmetricalExistingNeighbors ++ ri.initializedRoutingTableNeighborChildren

def getNodeInfoByPosition (p : Pos) : Except String NodeInfo :=
  if !ri.selfNodeInfo.isValidPeer then .error "RoutingInformation not initialized"
  else if !isPositionValid m p then .error "Invalid Node Position"
  else
    let found := ri.getAllUniqueKnownExistingNeighbors.find? fun n =>
      n.level = p.level && n.number = p.number
    .ok (found.getD .none)

end Definitions

/-! ### Known nodes -/

variable {l : List NodeInfo} {a n : NodeInfo}

theorem mem_addAdjacent (h : n ∈ addAdjacent l a) : n ∈ l ∨ n = a ∧ a.isInitialized = true := by
  unfold addAdjacent at h
  split_ifs at h with hadd
  · rcases mem_append.mp h with h | h
    · exact Or.inl h
    · have hadd' := (Bool.and_eq_true _ _ ▸ hadd).1
      exact Or.inr ⟨mem_singleton.mp h, hadd'⟩
  · exact Or.inl h

theorem mem_addAdjacent_of_mem (h : n ∈ l) : n ∈ addAdjacent l a := by
  unfold addAdjacent
  split_ifs
  · exact mem_append_left _ h
  · exact h

/-- An adjacent is appended unless a node of its position is there. -/
theorem exists_mem_addAdjacent (h : a.isInitialized = true) :
    ∃ n ∈ addAdjacent l a, n.logical = a.logical := by
  unfold addAdjacent
  by_cases hany : l.any (fun n => decide (a.logical = n.logical)) = true
  · obtain ⟨n, hn, heq⟩ := any_eq_true.mp hany
    rw [if_neg (by simp [hany])]
    exact ⟨n, hn, (of_decide_eq_true heq).symm⟩
  · rw [if_pos (by simp [h, hany])]
    exact ⟨a, by simp, rfl⟩

section Known

variable {ri : RoutingInformation} {n : NodeInfo}

/-- A known node is in an initialized slot, or it is the parent. -/
theorem known_cases (h : n ∈ ri.getAllUniqueKnownExistingNeighbors) :
    (ri.selfNodeInfo.level ≠ 0 ∧ n = ri.parent) ∨
    (n.isInitialized = true ∧ (n = ri.adjacentLeft ∨ n = ri.adjacentRight ∨ n ∈ ri.children ∨
      n ∈ ri.routingTableNeighbors ∨ n ∈ ri.routingTableNeighborChildren)) := by
  rcases mem_append.mp h with h | h
  · rcases mem_addAdjacent h with h | ⟨rfl, hinit⟩
    · rcases mem_addAdjacent h with h | ⟨rfl, hinit⟩
      · rcases mem_append.mp h with h | h
        · rcases mem_append.mp h with h | h
          · split_ifs at h with hlevel
            · exact .inl ⟨hlevel, mem_singleton.mp h⟩
            · cases h
          · obtain ⟨h, hinit⟩ := mem_filter.mp h
            exact .inr ⟨hinit, .inr (.inr (.inl h))⟩
        · obtain ⟨h, hinit⟩ := mem_filter.mp h
          exact .inr ⟨hinit, .inr (.inr (.inr (.inl h)))⟩
      · exact .inr ⟨hinit, .inl rfl⟩
    · exact .inr ⟨hinit, .inr (.inl rfl)⟩
  · obtain ⟨h, hinit⟩ := mem_filter.mp h
    exact .inr ⟨hinit, .inr (.inr (.inr (.inr h)))⟩

theorem parent_known (h : ri.selfNodeInfo.level ≠ 0) :
    ri.parent ∈ ri.getAllUniqueKnownExistingNeighbors := by
  refine mem_append_left _ (mem_addAdjacent_of_mem (mem_addAdjacent_of_mem ?_))
  refine mem_append_left _ (mem_append_left _ ?_)
  rw [if_pos h]
  exact mem_singleton_self _

theorem child_known (h : n ∈ ri.children) (hn : n.isInitialized = true) :
    n ∈ ri.getAllUniqueKnownExistingNeighbors := by
  refine mem_append_left _ (mem_addAdjacent_of_mem (mem_addAdjacent_of_mem ?_))
  exact mem_append_left _ (mem_append_right _ (mem_filter.mpr ⟨h, hn⟩))

theorem neighbor_known (h : n ∈ ri.routingTableNeighbors) (hn : n.isInitialized = true) :
    n ∈ ri.getAllUniqueKnownExistingNeighbors := by
  refine mem_append_left _ (mem_addAdjacent_of_mem (mem_addAdjacent_of_mem ?_))
  exact mem_append_right _ (mem_filter.mpr ⟨h, hn⟩)

theorem neighborChild_known (h : n ∈ ri.routingTableNeighborChildren)
    (hn : n.isInitialized = true) : n ∈ ri.getAllUniqueKnownExistingNeighbors :=
  mem_append_right _ (mem_filter.mpr ⟨h, hn⟩)

theorem adjacentLeft_known (h : ri.adjacentLeft.isInitialized = true) :
    ∃ n ∈ ri.getAllUniqueKnownExistingNeighbors, n.logical = ri.adjacentLeft.logical := by
  obtain ⟨n, hn, heq⟩ := exists_mem_addAdjacent h
  exact ⟨n, mem_append_left _ (mem_addAdjacent_of_mem hn), heq⟩

theorem adjacentRight_known (h : ri.adjacentRight.isInitialized = true) :
    ∃ n ∈ ri.getAllUniqueKnownExistingNeighbors, n.logical = ri.adjacentRight.logical := by
  obtain ⟨n, hn, heq⟩ := exists_mem_addAdjacent h
  exact ⟨n, mem_append_left _ hn, heq⟩

variable {m : ℕ} {q : Pos} (hself : ri.selfNodeInfo.isValidPeer = true)
  (hq : isPositionValid m q = true)
include hself hq

/-- Looking up a position finds the first known node there. -/
theorem getNodeInfoByPosition_eq :
    ri.getNodeInfoByPosition m q =
      .ok ((ri.getAllUniqueKnownExistingNeighbors.find? fun n => n.pos = q).getD .none) := by
  have hpos : (fun n : NodeInfo => decide (n.level = q.level) && decide (n.number = q.number)) =
      fun n => decide (n.pos = q) := by
    funext n
    rw [← Bool.decide_and]
    exact decide_eq_decide.mpr Pos.ext_iff'.symm
  rw [getNodeInfoByPosition, if_neg (by simp [hself]), if_neg (by simp [hq]), hpos]

theorem getNodeInfoByPosition_cases :
    (∃ n ∈ ri.getAllUniqueKnownExistingNeighbors, n.pos = q ∧
      ri.getNodeInfoByPosition m q = .ok n) ∨
    ((∀ n ∈ ri.getAllUniqueKnownExistingNeighbors, n.pos ≠ q) ∧
      ri.getNodeInfoByPosition m q = .ok .none) := by
  rw [getNodeInfoByPosition_eq hself hq]
  cases hfind : ri.getAllUniqueKnownExistingNeighbors.find? fun n => n.pos = q with
  | none => exact .inr ⟨by simpa using find?_eq_none.mp hfind, rfl⟩
  | some n =>
    exact .inl ⟨n, mem_of_find?_eq_some hfind, by simpa using find?_some hfind, rfl⟩

end Known

end RoutingInformation

end Sola.Minhton
