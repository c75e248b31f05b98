import Sola.Minhton.Join

/-!
Answers to the questions and updates of other nodes
(`minhton/src/algorithms/misc/response_algorithm_general.cpp`) and the steps
of an exact search at a node
(`minhton/src/algorithms/search_exact/search_exact_algorithm_general.cpp`).
-/

namespace Sola.Minhton

open Sola.Lib Sola.Lib.MaryTree Sola.Lib.Distances

/-- One entry of `processUpdateNeighbors`. -/
def updateByRelationship (m : ℕ) (neighbor : NodeInfo) :
    NeighborRelationship → RoutingInformation → Except String RoutingInformation
  | .kAdjacentLeft, ri =>
    if neighbor.isInitialized then ri.setAdjacentLeft m neighbor else ri.resetAdjacentLeft
  | .kAdjacentRight, ri =>
    if neighbor.isInitialized then ri.setAdjacentRight m neighbor
    else ri.resetAdjacentRight
  | .kRoutingTableNeighbor, ri => ri.updateRoutingTableNeighbor m neighbor
  | .kRoutingTableNeighborChild, ri => ri.updateRoutingTableNeighborChild m neighbor
  | .kUnknownRelationship, ri => ri.updateNeighbor m neighbor
  | .kParent, _ => .error "Requested Relationship not supported yet"
  | .kChild, _ => .error "Requested Relationship not supported yet"

/-- Acknowledge a message if its sender asks for it. -/
def acknowledge (sender : NodeInfo) (shouldAcknowledge : Bool) : Handler Unit :=
  if shouldAcknowledge then send sender .removeNeighborAck else pure ()

def processUpdateNeighbors (m : ℕ) (sender : NodeInfo)
    (neighborsToUpdate : List (NodeInfo × NeighborRelationship))
    (shouldAcknowledge : Bool) : Handler Unit := do
  Action.forEach neighborsToUpdate fun entry =>
    modifyRouting (updateByRelationship m entry.1 entry.2)
  acknowledge sender shouldAcknowledge

/-- The nodes of one requested relationship. -/
def RoutingInformation.neighborsOf (ri : RoutingInformation) :
    NeighborRelationship → Except String (List NodeInfo)
  | .kAdjacentLeft => .ok ([ri.adjacentLeft].filter (·.isInitialized))
  | .kAdjacentRight => .ok ([ri.adjacentRight].filter (·.isInitialized))
  | .kChild => .ok ri.initializedChildren
  | .kParent => .ok ([ri.parent].filter (·.isInitialized))
  | .kRoutingTableNeighbor => .ok ri.initializedRoutingTableNeighbors
  | .kRoutingTableNeighborChild => .ok ri.initializedRoutingTableNeighborChildren
  | .kUnknownRelationship => .error "Requested Relationship not supported yet"

def processGetNeighbors (sendBackToNode : NodeInfo)
    (relationships : List NeighborRelationship) : Handler Unit := do
  let ri ← getRouting
  let neighbors ← Action.lift (relationships.mapM ri.neighborsOf)
  let neighbors := neighbors.flatten
  if neighbors.isEmpty then pure ()
  else send sendBackToNode (.informAboutNeighbors neighbors)

def processInformAboutNeighbors (m : ℕ) (requestedNeighbors : List NodeInfo) :
    Handler Unit := do
  let node ← getNode
  if node.acceptChild.isSome then continueAcceptChildProcedure m requestedNeighbors
  else
    Action.forEach requestedNeighbors fun neighbor =>
      modifyRouting (·.updateNeighbor m neighbor)

/-- A removed child of this node is passed on to all routing table neighbors,
who know it too.  The level of the sender is compared in 32 bits. -/
def processRemoveNeighbor (m : ℕ) (sender removedPositionNode : NodeInfo)
    (shouldAcknowledge : Bool) : Handler Unit := do
  modifyRouting (·.removeNeighbor m removedPositionNode)
  let ri ← getRouting
  if u32Pred sender.level = ri.selfNodeInfo.level then
    Action.forEach ri.routingTableNeighbors fun neighbor =>
      send neighbor (.removeNeighbor removedPositionNode shouldAcknowledge)
  else acknowledge sender shouldAcknowledge

def processRemoveAndUpdateNeighbors (m : ℕ) (sender target removedPositionNode : NodeInfo)
    (neighborsToUpdate : List (NodeInfo × NeighborRelationship))
    (shouldAcknowledge : Bool) : Handler Unit := do
  let node ← getNode
  if target ≠ node.self then pure ()
  else
    processRemoveNeighbor m sender removedPositionNode false
    processUpdateNeighbors m sender neighborsToUpdate false
    acknowledge sender shouldAcknowledge

/-! ### Exact search -/

/-- `performSearchExact` of a node: `recv` takes the query when it has
arrived. -/
def searchExact (m : ℕ) (recv : Message → Handler Unit) (destination : NodeInfo)
    (query : Query Body) : Handler Unit := do
  let node ← getNode
  let action ← Action.lift (performSearchExact m node.ri destination query)
  match action with
  | .logSuccess => pure ()
  | .receive target query => recv ⟨query.sender, target, .plain query.body⟩
  | .sendFailure target destination query =>
    sendMessage ⟨node.self, target, .searchExactFailure destination query⟩
  | .sendSearchExact target destination query =>
    sendMessage ⟨node.self, target, .searchExact destination query⟩

end Sola.Minhton
