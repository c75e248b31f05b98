import Sola.Minhton.RoutingInformation

/-!
Finding the end of the tree
(`minhton/src/algorithms/find_end/minhton_find_end_algorithm_helper.cpp`),
and its two users `processJoin` and `performFindReplacement`.

The functions compute what a node decides to do with a request from its
routing information alone.  Sending the request on, with its hop counter and
event id, belongs to the node.  The flag `join` is the member `join_`.
-/

namespace Sola.Minhton

open Sola.Lib.MaryTree Sola.Lib.Distances

/-- The enumerators in the order of the source: a `bool` "search to the left"
is cast to the first two of them. -/
inductive SearchProgress where
  | kSearchRight
  | kSearchLeft
  | kNone
  | kCheckRight
  | kReplacementNode
deriving DecidableEq, Repr

/-- `static_cast<SearchProgress>(left_side)`. -/
def SearchProgress.ofBool (leftSide : Bool) : SearchProgress :=
  if leftSide then .kSearchLeft else .kSearchRight

/-- What a node does with a request for the end of the tree. -/
inductive FindEndDecision where
  /-- The node is the parent that is searched for. -/
  | accept
  | forward (target : NodeInfo) (progress : SearchProgress)
  | drop
deriving DecidableEq, Repr

namespace RoutingInformation

variable (m : ℕ) (join : Bool) (ri : RoutingInformation)

def forwardToAdjacentNode : Except String FindEndDecision :=
  let levelCapacity := m ^ ri.selfNodeInfo.level
  -- `number + 1 < level_capacity / 2` in floating point
  let inLeftHalf := decide (2 * (ri.selfNodeInfo.number + 1) < levelCapacity)
  let target := if inLeftHalf then ri.adjacentRight else ri.adjacentLeft
  if !target.isInitialized then .error "Adjacent node isn't initialized"
  else .ok (.forward target .kNone)

/-- Join: room for a child.  Leave: children, but none to the right. -/
def ownCriteria : Bool :=
  if join then !ri.areChildrenFull
  else
    let hasChildren := !ri.initializedChildren.isEmpty
    let noRightNeighborChildren :=
      (ri.rightNeighborChildren m).isEmpty ||
        !((ri.rightNeighborChildren m).headD .none).isInitialized
    hasChildren && noRightNeighborChildren

def isCorrectParent : Bool :=
  if ri.leftNeighbors.isEmpty then ri.ownCriteria m join
  else
    let childrenLeftSide := ri.leftNeighborChildren m
    if !childrenLeftSide.isEmpty && (childrenLeftSide.getLastD .none).isInitialized then
      ri.ownCriteria m join
    else false

/-- The loop of `findReachableNodeClosestToParent`.  The counter is 32 bits
wide, so a run of more than `2 ^ 32` rounds would never end. -/
def closestToParentLoop (m : ℕ) (ri : RoutingInformation) (level : ℕ) :
    ℕ → ℕ → Except String NodeInfo
  | 0, _ => .error "endless loop"
  | rounds + 1, childNumber => do
      let parent ← calcParent m ⟨level, childNumber⟩
      let node ← ri.getNodeInfoByPosition m parent
      if node.isInitialized then return node
      else closestToParentLoop m ri level rounds (u32 (childNumber + 2 ^ 32 - m))

def findReachableNodeClosestToParent (child : NodeInfo) : Except String NodeInfo :=
  let actualTargetIsOnTheRight := join && decide ((child.number + 1) % m = 0)
  let childNumber := child.number + if actualTargetIsOnTheRight then 1 else 0
  closestToParentLoop m ri child.level (2 ^ 32) childNumber

def initializedLeftNeighborsAndChildren : List NodeInfo :=
  (ri.leftNeighbors ++ ri.leftNeighborChildren m).filter (·.isInitialized)

def initializedRightNeighborsAndChildren : List NodeInfo :=
  (ri.rightNeighbors ++ ri.rightNeighborChildren m).filter (·.isInitialized)

def searchEndOnLevel (leftSide : Bool) : Except String FindEndDecision :=
  if !ri.selfNodeInfo.isValidPeer then .error "RoutingInformation not initialized"
  else
    let chosen :=
      if leftSide then ri.initializedLeftNeighborsAndChildren m
      else ri.initializedRightNeighborsAndChildren m
    match chosen.getLast? with
    | none =>
      if join then
        .error "Position at the edge should be covered by other code parts"
      else if !leftSide then .ok .drop
      else .ok (.forward ri.parent .kSearchRight)
    | some lastChild =>
      if lastChild.level = ri.selfNodeInfo.level then
        if !join && !leftSide then .ok .drop
        else .ok (.forward (chosen.headD .none) (.ofBool leftSide))
      else do
        let closest ← ri.findReachableNodeClosestToParent m join lastChild
        return .forward closest .kSearchRight

def isRightmostPossibleNode (n : NodeInfo) : Bool :=
  decide (n.number = m ^ n.level - 1) && n.isInitialized

def checkRight : Except String FindEndDecision :=
  let rightmost := ri.rightmostNeighbor
  if !rightmost.isValidPeer then
    .error "Position at the right edge should be covered before we get there"
  else if rightmost.isInitialized then
    if isRightmostPossibleNode m rightmost then ri.searchEndOnLevel m join true
    else .ok (.forward rightmost .kCheckRight)
  else .ok (.forward ri.parent .kSearchRight)

/-- The second half of `decideNextStep`, after the left neighbors have not
settled it. -/
def decideFromRight : Except String FindEndDecision :=
  let rightmost := ri.rightmostNeighbor
  if rightmost.isValidPeer then
    if !rightmost.isInitialized then .ok (.forward ri.parent .kSearchRight)
    else if isRightmostPossibleNode m rightmost then
      if ri.isCorrectParent m join then .ok .accept
      else ri.searchEndOnLevel m join !ri.areChildrenFull
    else .ok (.forward rightmost .kCheckRight)
  else if ri.isCorrectParent m join then .ok .accept
  else ri.searchEndOnLevel m join true

def decideNextStep : Except String FindEndDecision :=
  let leftmostNeighborChild := ri.leftmostNeighborChild m
  if leftmostNeighborChild.isValidPeer then
    if ri.isCorrectParent m join then .ok .accept
    else if leftmostNeighborChild.isInitialized then ri.searchEndOnLevel m join true
    else ri.decideFromRight m join
  else ri.decideFromRight m join

/-- The handling of a request whose progress is not `kReplacementNode`, as
`processJoin` and `performFindReplacement` share it. -/
def findEnd : SearchProgress → Except String FindEndDecision
  | .kNone =>
    if ri.areChildrenFull then ri.forwardToAdjacentNode m
    else ri.decideNextStep m join
  | .kSearchLeft =>
    if ri.isCorrectParent m join then .ok .accept
    else ri.searchEndOnLevel m join true
  | .kSearchRight =>
    if ri.isCorrectParent m join then .ok .accept
    else ri.searchEndOnLevel m join false
  | .kCheckRight => ri.checkRight m join
  | .kReplacementNode => .error "search_progress is set to an invalid value"

/-- The decision of `processJoin` at a node that is not locked. -/
def processJoinDecision (progress : SearchProgress) : Except String FindEndDecision :=
  ri.findEnd m true progress

/-- `performFindReplacement` of a request that came from `sender`: a search
to the right that arrives from the right at a node without children turns
round. -/
def findReplacementProgress (sender : NodeInfo) (progress : SearchProgress) : SearchProgress :=
  if sender.level = ri.selfNodeInfo.level ∧ sender.number > ri.selfNodeInfo.number ∧
      !(ri.children.headD .none).isInitialized ∧ progress = .kSearchRight then
    .kSearchLeft
  else progress

/-- Forward to the last child once the parent of the last node is found. -/
def forwardToLastChild : FindEndDecision → FindEndDecision
  | .accept => .forward (ri.initializedChildren.getLastD .none) .kReplacementNode
  | decision => decision

/-- `performFindReplacement()` at the node that wants to leave. -/
def performFindReplacement : Except String FindEndDecision := do
  let decision ← ri.findEnd m false .kNone
  return ri.forwardToLastChild decision

/-- `performFindReplacement(msg)` for a request that has not yet reached its
replacement node. -/
def processFindReplacementDecision (sender : NodeInfo) (progress : SearchProgress) :
    Except String FindEndDecision := do
  let decision ← ri.findEnd m false (ri.findReplacementProgress sender progress)
  return ri.forwardToLastChild decision

/-- `calcNewChildPosition(true)`: the first free child. -/
def calcNewChildPosition : Option Pos :=
  (ri.children.findIdx? fun child => !child.isInitialized).map fun i =>
    ⟨ri.selfNodeInfo.level + 1, u32 (u32 (ri.selfNodeInfo.number * m) + i)⟩

end RoutingInformation

end Sola.Minhton
