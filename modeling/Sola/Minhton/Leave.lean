import Sola.Minhton.Response

/-!
Leaves (`minhton/src/algorithms/leave/*.cpp`).

The last node of the tree leaves by itself: its parent locks itself, its
right and its left neighbor, and then the node signs off from everybody who
knows it.  Any other node first finds the last one, which signs off in the
same way and then takes over the position.
-/

namespace Sola.Minhton

open Sola.Lib Sola.Lib.MaryTree Sola.Lib.Distances

namespace RoutingInformation

def canLeaveWithoutReplacement (m : ℕ) (ri : RoutingInformation) : Bool :=
  let rightNeighbor := ri.directRightNeighbor
  let leftmostNeighborChild := ri.leftmostNeighborChild m
  if rightNeighbor.isValidPeer then !rightNeighbor.isInitialized
  else if leftmostNeighborChild.isValidPeer ∧ leftmostNeighborChild.number = 0 then
    !leftmostNeighborChild.isInitialized
  else false

end RoutingInformation

variable (m : ℕ) (recv : Message → Handler Unit)

/-! ### Unlocking -/

/-- The query of a search by `node`. -/
def Node.query (node : Node) (body : Body) : Query Body := ⟨node.self, false, body⟩

/-- Send a lock or unlock message to the right: to the right neighbor, or to
the first node of the next level. -/
def sendRight (body : Body) : Handler Unit := do
  let node ← getNode
  let rightNeighbor := node.ri.directRightNeighbor
  if rightNeighbor.isValidPeer then send rightNeighbor body
  else searchExact m recv (.ofPos ⟨node.self.level + 1, 0⟩) (node.query body)

/-- The last position of the level above. -/
def Node.lastAbove (node : Node) : NodeInfo :=
  .ofPos ⟨node.self.level - 1, m ^ (node.self.level - 1) - 1⟩

/-- Send a lock or unlock message to the left. -/
def sendLeft (body : Body) : Handler Unit := do
  let node ← getNode
  let leftNeighbor := node.ri.directLeftNeighbor
  if leftNeighbor.isValidPeer then send leftNeighbor body
  else searchExact m recv (node.lastAbove m) (node.query body)

def processUnlockNeighbor : Handler Unit := do
  modifyNode ({ · with nodeLocked := false, currentSignoffRequest := none })
  let node ← getNode
  if node.lockedRightNeighbor then
    sendRight m recv .unlockNeighbor
    modifyNode ({ · with lockedRightNeighbor := false })
  let node ← getNode
  if node.lockedLeftNeighbor then
    sendLeft m recv .unlockNeighbor
    modifyNode ({ · with lockedLeftNeighbor := false })

/-! ### Signing off at the parent -/

def signOffFromParent : Handler Unit := do
  modifyNode ({ · with inLeaveProgress := true })
  let node ← getNode
  send node.ri.parent .signoffParentRequest

/-- The wait of the parent for its routing table neighbors. -/
def signOffChild : Handler Unit := do
  let node ← getNode
  match node.currentSignoffRequest with
  | none => Action.throw "null pointer"
  | some sender =>
    if !sender.isInitialized then Action.throw "Invalid MINHTON message payload"
    else
      recv ⟨sender, node.self, .plain (.removeNeighbor sender true)⟩
      let ri ← getRouting
      waitForAcks ri.routingTableNeighbors.length .processRemoveNeighborAck

/-- Lock the left neighbor, or the last node of the level above.  The root
has nobody to lock. -/
def lockLeft : Handler Unit := do
  let node ← getNode
  if !node.ri.leftNeighbors.isEmpty ∨ node.self.level > 0 then
    modifyNode ({ · with lockedLeftNeighbor := true })
    if node.currentSignoffRequest.isNone then Action.throw "null pointer"
    else sendLeft m recv .lockNeighborRequest
  else modifyNode ({ · with remainingLockNeighborResponse := 0 })

def processLockNeighborResponse (wasSuccessful : Bool) : Handler Unit := do
  let node ← getNode
  if node.remainingLockNeighborResponse = 2 ∧ !wasSuccessful then
    match node.currentSignoffRequest with
    | none => Action.throw "null pointer"
    | some sender =>
      send sender (.signoffParentAnswer false)
      modifyNode fun node =>
        { node with
          currentSignoffRequest := none
          nodeLocked := false
          lockedRightNeighbor := false
          remainingLockNeighborResponse := 0 }
  else
    modifyNode fun node =>
      { node with
        remainingLockNeighborResponse :=
          u32Pred node.remainingLockNeighborResponse }
    let node ← getNode
    if node.remainingLockNeighborResponse = 1 then lockLeft m recv
    let node ← getNode
    if node.remainingLockNeighborResponse = 0 then signOffChild recv

def Node.hasSignoffRequest (node : Node) : Bool :=
  node.currentSignoffRequest.any (·.isInitialized)

def processSignOffParentRequest (sender : NodeInfo) : Handler Unit := do
  let node ← getNode
  if node.nodeLocked ∨ node.hasSignoffRequest then
    send sender (.signoffParentAnswer false)
  else
    modifyNode ({ · with currentSignoffRequest := some sender, nodeLocked := true })
    if node.self.level = 0 ∧ node.self.number = 0 ∧ sender.level = 1 ∧ sender.number = 0 then
      -- there are no other nodes to lock
      modifyNode ({ · with remainingLockNeighborResponse := 1 })
      processLockNeighborResponse m recv true
    else
      modifyNode ({ · with lockedRightNeighbor := true })
      sendRight m recv .lockNeighborRequest
    modifyNode ({ · with remainingLockNeighborResponse := 2 })

def processLockNeighborRequest (sender : NodeInfo) : Handler Unit := do
  let node ← getNode
  modifyNode ({ · with nodeLocked := true })
  send sender (.lockNeighborResponse !node.nodeLocked)

/-! ### Signing off at neighbors and adjacents -/

/-- The neighbors that get a `MessageRemoveNeighbor`: not the adjacents, not
those to the right and not the parent. -/
def RoutingInformation.neighborsToSignOff (ri : RoutingInformation) : List NodeInfo :=
  ri.getAllUniqueSymmetricalExistingNeighbors.filter fun neighbor =>
    neighbor ≠ ri.adjacentLeft && neighbor ≠ ri.adjacentRight &&
      !decide (ri.selfNodeInfo.number < neighbor.number) && neighbor ≠ ri.parent

/-- The message that links the left adjacent to the right one. -/
def RoutingInformation.signOffLeft (ri : RoutingInformation) : Body :=
  let update := [(ri.adjacentRight, NeighborRelationship.kAdjacentRight)]
  if ri.adjacentLeft = ri.directLeftNeighbor then
    .removeAndUpdateNeighbors ri.selfNodeInfo update true
  else .updateNeighbors update true

/-- The result is the number of acknowledgements to wait for. -/
def signOffFromNeighborsAndAdjacents : Handler ℕ := do
  let ri ← getRouting
  let neighbors := ri.neighborsToSignOff
  Action.forEach neighbors fun neighbor =>
    send neighbor (.removeNeighbor ri.selfNodeInfo true)
  let left := if ri.adjacentLeft.isInitialized then 1 else 0
  if ri.adjacentLeft.isInitialized then send ri.adjacentLeft ri.signOffLeft
  if ri.adjacentRight.isInitialized ∧ ri.adjacentRight.level < ri.selfNodeInfo.level then
    send ri.adjacentRight (.updateNeighbors [(ri.adjacentLeft, .kAdjacentLeft)] true)
    return neighbors.length + left + 1
  else return neighbors.length + left

def processSignOffParentAnswer (wasSuccessful : Bool) : Handler Unit := do
  if wasSuccessful then
    let acks ← signOffFromNeighborsAndAdjacents
    waitForAcks acks .processReceiveSignoffNeighborAdjacentsAck
  else
    let node ← getNode
    if node.replacingNode.isInitialized then send node.replacingNode .replacementNack
    modifyNode ({ · with replacingNode := .none, inLeaveProgress := false })

/-! ### Starting a leave -/

def performLeaveWithoutReplacement : Handler Unit := do
  let node ← getNode
  if node.inLeaveProgress ∨ node.replacingNode.isInitialized ∨
      node.fsm = .kWaitForReplacementOffer ∨ node.fsm = .kSignOffFromInlevelNeighbors then
    modifyNode ({ · with fsm := .kConnected })
  else
    loadEventId .kLeaveProcedure
    signOffFromParent

def prepareLeavingAsSuccessor (nodeToReplace : NodeInfo) : Handler Unit := do
  loadEventId .kLeaveProcedure
  let node ← getNode
  if node.inLeaveProgress ∨ node.replacingNode.isInitialized ∨
      node.fsm = .kWaitForReplacementOffer ∨ node.fsm = .kSignOffFromInlevelNeighbors ∨
      node.fsm = .kConnectedWaitingParentResponseDirectLeaveWoReplacement ∨
      node.fsm = .kConnectedWaitingParentResponse then
    send nodeToReplace .replacementNack
  else
    modifyNode ({ · with replacingNode := nodeToReplace })
    signOffFromParent

/-- `performFindReplacement()`. -/
def startFindReplacement : Handler Unit := do
  let node ← getNode
  let decision ← Action.lift (node.ri.performFindReplacement m)
  let _ ← followDecision false node.self 0 decision

/-- `performFindReplacement(msg)`. -/
def continueFindReplacement (sender target nodeToReplace : NodeInfo)
    (searchProgress : SearchProgress) (hopCount : ℕ) : Handler Unit := do
  let node ← getNode
  if searchProgress = .kReplacementNode then
    if target.logical ≠ node.self.logical then pure ()
    else if node.self ≠ nodeToReplace then prepareLeavingAsSuccessor nodeToReplace
    else performLeaveWithoutReplacement
  else
    let decision ← Action.lift
      (node.ri.processFindReplacementDecision m sender searchProgress)
    let _ ← followDecision false nodeToReplace hopCount decision

def processFindReplacement (sender target nodeToReplace : NodeInfo)
    (searchProgress : SearchProgress) (hopCount : ℕ) : Handler Unit := do
  saveEventId .kLeaveProcedure
  continueFindReplacement m sender target nodeToReplace searchProgress hopCount
  removeEventId .kLeaveProcedure

def initiateSelfDeparture : Handler Unit := do
  let ri ← getRouting
  if ri.canLeaveWithoutReplacement m then
    saveEventId .kLeaveProcedure
    performLeaveWithoutReplacement
  else startFindReplacement m
  removeEventId .kLeaveProcedure

/-! ### Replacing a node -/

/-- The node that leaves hands its position and its locks to its successor. -/
def processReplacementOffer (sender : NodeInfo) : Handler Unit := do
  let node ← getNode
  send sender (.replacementAck node.ri.getAllUniqueKnownExistingNeighbors node.nodeLocked
    node.lockedRightNeighbor node.lockedLeftNeighbor)
  modifyNode fun node =>
    { node with
      ri := node.ri.resetPosition
      nodeLocked := false
      lockedRightNeighbor := false
      lockedLeftNeighbor := false
      currentSignoffRequest := none
      replacingNode := .none }

/-- The step of `getAdjacentLeftFromVector` and `getAdjacentRightFromVector`
for a distance to the considered node. -/
def closestNode (distance : NodeInfo → ℚ) (best : ℚ × NodeInfo) (node : NodeInfo) :
    ℚ × NodeInfo :=
  let currentDiff := distance node
  if currentDiff > 0 ∧ currentDiff < best.1 then (currentDiff, node) else best

def getAdjacentLeftFromVector (consideredNode : NodeInfo) (neighbors : List NodeInfo) : NodeInfo :=
  (neighbors.foldl
    (closestNode fun node => consideredNode.horizontalValue m - node.horizontalValue m)
    (kTreeMapperRootValue * 2, .none)).2

def getAdjacentRightFromVector (consideredNode : NodeInfo) (neighbors : List NodeInfo) : NodeInfo :=
  (neighbors.foldl
    (closestNode fun node => node.horizontalValue m - consideredNode.horizontalValue m)
    (kTreeMapperRootValue * 2, .none)).2

/-- The successor takes the position of `nodeToReplace` and rebuilds its
routing information from the neighbors of that node. -/
def replaceMyself (nodeToReplace : NodeInfo) (neighbors : List NodeInfo) : Handler Unit := do
  let node ← getNode
  match nodeToReplace.logical with
  | none => Action.throw "Invalid Parameter Level or Number"
  | some position =>
    modifyRouting (·.setPosition m position)
    let neighbors := neighbors.filter fun n => n.logical ≠ node.self.logical
    Action.forEach neighbors fun neighbor => modifyRouting (·.updateNeighbor m neighbor)
    let node ← getNode
    let adjLeft := getAdjacentLeftFromVector m node.self neighbors
    let adjRight := getAdjacentRightFromVector m node.self neighbors
    if adjLeft.isInitialized then modifyRouting (·.setAdjacentLeft m adjLeft)
    if adjRight.isInitialized then modifyRouting (·.setAdjacentRight m adjRight)

def performLeaveWithReplacement (leavingNode : NodeInfo) (neighborsOfLeavingNode : List NodeInfo)
    (locked lockedRight lockedLeft : Bool) : Handler Unit := do
  let node ← getNode
  let removedPositionNode := node.self
  modifyNode ({ · with oldParent := node.ri.parent })
  replaceMyself m leavingNode neighborsOfLeavingNode
  modifyNode fun node =>
    { node with
      nodeLocked := locked
      lockedRightNeighbor := lockedRight
      lockedLeftNeighbor := lockedLeft }
  let node ← getNode
  let neighbors := sortNodes m node.ri.getAllUniqueSymmetricalExistingNeighbors
  let neighbors := neighbors.filter fun n => n.logical ≠ removedPositionNode.logical
  Action.forEach neighbors fun neighbor =>
    if !neighbor.isInitialized then Action.throw "not initialized on ReplacementUpdate"
    else send neighbor (.replacementUpdate removedPositionNode leavingNode node.self.logical)
  waitForAcks neighbors.length .processReceiveReplacementUpdateAck
  removeEventId .kLeaveProcedure

def processReplacementAck (sender : NodeInfo) (neighbors : List NodeInfo)
    (locked lockedRight lockedLeft : Bool) : Handler Unit := do
  saveEventId .kLeaveProcedure
  performLeaveWithReplacement m sender neighbors locked lockedRight lockedLeft

/-- Whether the sender is a child of the node: the comparison of numbers
in `processReplacementUpdate`. -/
def isFromChild (self sender : NodeInfo) : Bool :=
  let minNumber := u32 (self.number * m)
  decide (sender.level = u32 (self.level + 1)) && decide (minNumber ≤ sender.number) &&
    decide (sender.number ≤ u32 (minNumber + m - 1))

def processReplacementUpdate (sender removedPositionNode : NodeInfo)
    (replacedPositionNode : NodeInfo) (newLogicalNodeInfo : Option Pos) : Handler Unit := do
  modifyRouting (·.removeNeighbor m removedPositionNode)
  let replacedNeighbor : NodeInfo := ⟨newLogicalNodeInfo, removedPositionNode.physical⟩
  let ri ← getRouting
  let oldNode ← Action.lift (ri.getNodeInfoByPosition m replacedNeighbor.pos)
  if !oldNode.isInitialized then pure ()
  else
    modifyRouting (·.updateNeighbor m replacedNeighbor)
    let ri ← getRouting
    let forwardTo := if isFromChild m ri.selfNodeInfo sender then ri.routingTableNeighbors
      else []
    Action.forEach forwardTo fun neighbor =>
      send neighbor (.replacementUpdate removedPositionNode replacedPositionNode
        newLogicalNodeInfo)
    modifyNode ({ · with lastReplacementUpdate := some sender })
    waitForAcks forwardTo.length .processUpdateForwardAck

end Sola.Minhton
