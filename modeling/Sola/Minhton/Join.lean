import Sola.Minhton.Node

/-!
Joins (`minhton/src/algorithms/join/*.cpp`): forwarding a join request until
a parent is found, and the accept-child procedure of that parent.
-/

namespace Sola.Minhton

open Sola.Lib Action Sola.Lib.MaryTree Sola.Lib.Distances

/-! ### Adjacents of a new child -/

namespace RoutingInformation

variable (m : ℕ) (ri : RoutingInformation) (enteringNode allegedAdjacent : NodeInfo)

/-- The better of the best node to the left so far and the next one. -/
def closerLeft (targetValue : ℚ) (best : ℚ × NodeInfo) (node : NodeInfo) : ℚ × NodeInfo :=
  let currentValue := node.horizontalValue m
  if best.1 < currentValue ∧ currentValue < targetValue then (currentValue, node) else best

def calcAdjacentLeftOfNewChild : NodeInfo :=
  let targetValue := enteringNode.horizontalValue m
  let leftNeighbors := ri.getAllUniqueKnownExistingNeighbors.filter fun node =>
    !decide (targetValue < node.horizontalValue m)
  ((leftNeighbors ++ [ri.selfNodeInfo]).foldl (closerLeft m targetValue) (-1, .none)).2

def closerRight (targetValue : ℚ) (best : ℚ × NodeInfo) (node : NodeInfo) : ℚ × NodeInfo :=
  let currentValue := node.horizontalValue m
  if targetValue < currentValue ∧ currentValue < best.1 then (currentValue, node) else best

def calcAdjacentRightOfNewChild : NodeInfo :=
  let targetValue := enteringNode.horizontalValue m
  let rightNeighbors := ri.getAllUniqueKnownExistingNeighbors.filter fun node =>
    !decide (targetValue > node.horizontalValue m)
  ((rightNeighbors ++ [ri.selfNodeInfo]).foldl (closerRight m targetValue)
    (kTreeMapperRootValue * 2 + 1, .none)).2

/-- The test of `getCloserAdjacent` for one position. -/
def isCloser (p : Pos) : Bool :=
  let enteringValue := enteringNode.horizontalValue m
  let allegedValue := allegedAdjacent.horizontalValue m
  let between :=
    if allegedValue < enteringValue then
      decide (allegedValue < horizontalValue m p ∧ horizontalValue m p < enteringValue)
    else decide (enteringValue < horizontalValue m p ∧ horizontalValue m p < allegedValue)
  between && !ri.children.any fun child => !child.isInitialized && child.logical = some p

/-- The loop over the numbers of one level.  The counter is 32 bits wide. -/
def closerOnLevel (level : ℕ) : Except String (Option Pos) :=
  let found := (List.range (min (m ^ level) (2 ^ 32))).find? fun number =>
    ri.isCloser m enteringNode allegedAdjacent ⟨level, number⟩
  match found with
  | some number => .ok (some ⟨level, number⟩)
  | none => if m ^ level > 2 ^ 32 then .error "endless loop" else .ok none

def closerOnLevels (m : ℕ) (ri : RoutingInformation)
    (enteringNode allegedAdjacent : NodeInfo) : List ℕ → Except String (Option Pos)
  | [] => .ok none
  | level :: levels => do
      match ← ri.closerOnLevel m enteringNode allegedAdjacent level with
      | some p => return some p
      | none => ri.closerOnLevels m enteringNode allegedAdjacent levels

/-- A position between the entering node and an alleged adjacent at which
another node could be. -/
def getCloserAdjacent : Except String (Option Pos) :=
  if !allegedAdjacent.isInitialized then .ok none
  else
    let lowerNodeLevel := max enteringNode.level allegedAdjacent.level
    ri.closerOnLevels m enteringNode allegedAdjacent (List.range (lowerNodeLevel + 1))

/-- The known nodes among the routing table positions of a child. -/
def knownTableNeighbors (p : Pos) : Except String (List NodeInfo) := do
  let left ← calcLeftRT m p
  let right ← calcRightRT m p
  let nodes ← (left ++ right).mapM (ri.getNodeInfoByPosition m)
  return nodes.filter (·.isInitialized)

def getRoutingTableNeighborsForNewChild (newChild : NodeInfo) : Except String (List NodeInfo) :=
  if !ri.selfNodeInfo.isInitialized then .error "RoutingInformation not initialized"
  else if !ri.children.any fun node => node.logical = newChild.logical then
    .error "The entering node has to be one of our children"
  else ri.knownTableNeighbors m newChild.pos

/-- `mustSendUpdateLeft` and `mustSendUpdateRight` for the adjacent of the
entering node on one side. -/
def mustSendUpdate (enteringNodeAdjacent : NodeInfo) : Bool :=
  enteringNodeAdjacent.isValidPeer &&
    enteringNodeAdjacent.logical ≠ ri.selfNodeInfo.logical

def calcOurNewAdjacentLeft (enteringNodeAdjRight : NodeInfo) : NodeInfo :=
  if enteringNodeAdjRight.isValidPeer ∧
      enteringNodeAdjRight.logical = ri.selfNodeInfo.logical then enteringNode
  else ri.adjacentLeft

def calcOurNewAdjacentRight (enteringNodeAdjLeft : NodeInfo) : NodeInfo :=
  if enteringNodeAdjLeft.isValidPeer ∧
      enteringNodeAdjLeft.logical = ri.selfNodeInfo.logical then enteringNode
  else ri.adjacentRight

end RoutingInformation

/-! ### Forwarding requests -/

def kMaxHopCount : ℕ := 64

/-- `forwardRequest`: the event id of a join is forgotten, one of a leave is
saved when there is none. -/
def forwardRequest (join : Bool) (target requestOrigin : NodeInfo)
    (searchProgress : SearchProgress) (hopCount : ℕ) : Handler Unit := do
  let newHopCount := u16 (hopCount + 1)
  if newHopCount > kMaxHopCount then
    Action.throw "MINHTON message to be forwarded exceeds max hop count"
  else if join then
    loadEventId .kJoinProcedure
    send target (.join requestOrigin searchProgress newHopCount)
    removeEventId .kJoinProcedure
  else
    send target (.findReplacement requestOrigin searchProgress newHopCount)
    modifyNode (·.setEvent .kLeaveProcedure true)

/-- Carry out a decision; the result says whether this node accepts. -/
def followDecision (join : Bool) (requestOrigin : NodeInfo) (hopCount : ℕ) :
    FindEndDecision → Handler Bool
  | .accept => return true
  | .drop => return false
  | .forward target searchProgress => do
      forwardRequest join target requestOrigin searchProgress hopCount
      return false

/-! ### Accepting a child -/

def performSendJoinAccept (m : ℕ) (enteringNode adjLeft adjRight : NodeInfo) :
    Handler Unit := do
  loadEventId .kJoinProcedure
  let ri ← getRouting
  let neighbors ← Action.lift (ri.getRoutingTableNeighborsForNewChild m enteringNode)
  send enteringNode (.joinAccept adjLeft adjRight neighbors)

/-- The entering node with the position of the new child. -/
def enteringNodeAt (m : ℕ) (ri : RoutingInformation) (enteringNode : NodeInfo) :
    Except String NodeInfo :=
  match ri.calcNewChildPosition m with
  | none => .error "We have no free child position, but want to accept this child."
  | some position =>
    if isPositionValid m position then .ok ⟨some position, enteringNode.physical⟩
    else .error "Invalid Parameter Level or Number"

/-- `performAcceptChild(entering_node, true)`. -/
def performAcceptChild (m : ℕ) (enteringNode : NodeInfo) : Handler Unit := do
  modifyNode ({ · with nodeLocked := true })
  let node ← getNode
  let ri := node.ri
  let enteringNode ← Action.lift (enteringNodeAt m ri enteringNode)
  let adjLeft := ri.calcAdjacentLeftOfNewChild m enteringNode
  let adjRight := ri.calcAdjacentRightOfNewChild m enteringNode
  let closerLeft ← Action.lift (ri.getCloserAdjacent m enteringNode adjLeft)
  let closerRight ← Action.lift (ri.getCloserAdjacent m enteringNode adjRight)
  if closerLeft.isSome ∧ closerRight.isSome then
    Action.throw "Both adjacents may not be wrong at the same time in join accept procedure!"
  else if node.acceptChild.isSome then
    Action.throw "There is already a join accept procedure state saved."
  else
    modifyNode ({ · with acceptChild := some (enteringNode, adjLeft, adjRight) })
    if closerLeft.isNone ∧ closerRight.isNone then
      performSendJoinAccept m enteringNode adjLeft adjRight
    else
      loadEventId .kJoinProcedure
      -- the adjacent that is wrong knows its neighbor on the other side
      if closerRight.isSome then
        send adjRight (.getNeighbors node.self [.kAdjacentLeft])
      else send adjLeft (.getNeighbors node.self [.kAdjacentRight])

def continueAcceptChildProcedure (m : ℕ) (requestedNeighbors : List NodeInfo) :
    Handler Unit := do
  let node ← getNode
  match node.acceptChild with
  | none => Action.throw "Key does not exist. You cannot load a non-existent entry."
  | some (enteringNode, adjLeft, adjRight) =>
    let requested := requestedNeighbors.headD .none
    let closer ← Action.lift (node.ri.getCloserAdjacent m enteringNode requested)
    if closer.isSome then Action.throw "We still do not have the closest adjacent."
    else
      let isLeft := requested.horizontalValue m < enteringNode.horizontalValue m
      let adjLeft := if isLeft then requested else adjLeft
      let adjRight := if isLeft then adjRight else requested
      modifyNode ({ · with acceptChild := some (enteringNode, adjLeft, adjRight) })
      performSendJoinAccept m enteringNode adjLeft adjRight

def processJoin (m : ℕ) (enteringNode : NodeInfo) (searchProgress : SearchProgress)
    (hopCount : ℕ) : Handler Unit := do
  let node ← getNode
  if node.nodeLocked then pure ()
  else
    saveEventId .kJoinProcedure
    let decision ← Action.lift (node.ri.processJoinDecision m searchProgress)
    let accept ← followDecision true enteringNode hopCount decision
    if accept then performAcceptChild m enteringNode

/-- Set those of the adjacents that are initialized. -/
def setInitializedAdjacents (m : ℕ) (adjLeft adjRight : NodeInfo) : Handler Unit := do
  if adjLeft.isInitialized then modifyRouting (·.setAdjacentLeft m adjLeft)
  if adjRight.isInitialized then modifyRouting (·.setAdjacentRight m adjRight)

/-- The entering node takes its position. -/
def processJoinAccept (m : ℕ) (sender target adjLeft adjRight : NodeInfo)
    (routingTableNeighbors : List NodeInfo) : Handler Unit := do
  match target.logical with
  | none => Action.throw "Peer has invalid Position"
  | some position =>
    modifyRouting (·.setPosition m position)
    modifyRouting (·.setParent sender)
    setInitializedAdjacents m adjLeft adjRight
    Action.forEach routingTableNeighbors fun neighbor =>
      modifyRouting (·.updateRoutingTableNeighbor m neighbor)
    let ri ← getRouting
    send ri.parent .joinAcceptAck

/-- Tell the nodes in `targets` about `node`; the result is their number. -/
def sendUpdates (targets : List NodeInfo) (node : NodeInfo)
    (relationship : NeighborRelationship) : Handler ℕ := do
  Action.forEach targets fun target => do
    loadEventId .kJoinProcedure
    send target (.updateNeighbors [(node, relationship)] true)
  return targets.length

def performSendUpdateNeighborMessagesAboutEnteringNode (m : ℕ) (enteringNode : NodeInfo) :
    Handler ℕ := do
  let ri ← getRouting
  let neighborUpdates ← sendUpdates ri.initializedRoutingTableNeighbors enteringNode
    .kRoutingTableNeighborChild
  let tableNeighbors ← Action.lift (ri.knownTableNeighbors m enteringNode.pos)
  let childUpdates ← sendUpdates tableNeighbors enteringNode .kRoutingTableNeighbor
  return neighborUpdates + childUpdates

/-- The parent tells everybody who must know about its new child. -/
def processJoinAcceptAck (m : ℕ) (enteringNode : NodeInfo) : Handler Unit := do
  let node ← getNode
  match node.acceptChild with
  | none => Action.throw "There is no saved join accept procedure state"
  | some (_, adjLeft, adjRight) =>
    let ri := node.ri
    let rightUpdates ← sendUpdates (if ri.mustSendUpdate adjLeft then [adjLeft] else [])
      enteringNode .kAdjacentRight
    let leftUpdates ← sendUpdates (if ri.mustSendUpdate adjRight then [adjRight] else [])
      enteringNode .kAdjacentLeft
    let ourAdjLeft := ri.calcOurNewAdjacentLeft enteringNode adjRight
    let ourAdjRight := ri.calcOurNewAdjacentRight enteringNode adjLeft
    modifyRouting (·.setChild m enteringNode (enteringNode.number % m))
    setInitializedAdjacents m ourAdjLeft ourAdjRight
    let updates ← performSendUpdateNeighborMessagesAboutEnteringNode m enteringNode
    waitForAcks (rightUpdates + leftUpdates + updates) .allUpdatesAcknowledged

end Sola.Minhton
