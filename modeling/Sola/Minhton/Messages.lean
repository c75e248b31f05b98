import Sola.Minhton.FindEnd
import Sola.Minhton.SearchExact

/-!
Messages (`minhton/src/message/*.cpp`) and the state machine that says which
of them a node may send and receive (`minhton/include/minhton/utils/fsm.h`).

The messages are those of joins, leaves and exact searches.  Bootstrapping
and the entity search are left out, with the rows of the state machine that
are about them, and so are the timeouts.  Event ids only serve logging and as
keys of the procedure information, so a message does not carry them.
-/

namespace Sola.Minhton

open Sola.Lib.MaryTree Sola.Lib.Distances

inductive NeighborRelationship where
  | kParent
  | kChild
  | kAdjacentLeft
  | kAdjacentRight
  | kRoutingTableNeighbor
  | kRoutingTableNeighborChild
  | kUnknownRelationship
deriving DecidableEq, Repr

inductive MessageType where
  | kJoin
  | kJoinAccept
  | kJoinAcceptAck
  | kSearchExact
  | kSearchExactFailure
  | kRemoveNeighbor
  | kRemoveNeighborAck
  | kUpdateNeighbors
  | kReplacementUpdate
  | kGetNeighbors
  | kInformAboutNeighbors
  | kFindReplacement
  | kReplacementNack
  | kSignOffParentRequest
  | kLockNeighborRequest
  | kLockNeighborResponse
  | kSignOffParentAnswer
  | kRemoveAndUpdateNeighbor
  | kReplacementOffer
  | kReplacementAck
  | kUnlockNeighbor
deriving DecidableEq, Repr

/-- The contents of the messages that can be the query of an exact search. -/
inductive Body where
  | join (enteringNode : NodeInfo) (searchProgress : SearchProgress) (hopCount : ℕ)
  | joinAccept (adjacentLeft adjacentRight : NodeInfo)
      (routingTableNeighbors : List NodeInfo)
  | joinAcceptAck
  | removeNeighbor (removedPositionNode : NodeInfo) (shouldAcknowledge : Bool)
  | removeNeighborAck
  | updateNeighbors (neighborsToUpdate : List (NodeInfo × NeighborRelationship))
      (shouldAcknowledge : Bool)
  /-- Both inner messages have the header of the outer one and ask for no
  acknowledgement. -/
  | removeAndUpdateNeighbors (removedPositionNode : NodeInfo)
      (neighborsToUpdate : List (NodeInfo × NeighborRelationship))
      (shouldAcknowledge : Bool)
  | replacementUpdate (removedPositionNode replacedPositionNode : NodeInfo)
      (newLogicalNodeInfo : Option Pos)
  | getNeighbors (sendBackToNode : NodeInfo) (relationships : List NeighborRelationship)
  | informAboutNeighbors (requestedNeighbors : List NodeInfo)
  | findReplacement (nodeToReplace : NodeInfo) (searchProgress : SearchProgress)
      (hopCount : ℕ)
  | replacementNack
  | replacementOffer
  | replacementAck (neighbors : List NodeInfo) (locked lockedRight lockedLeft : Bool)
  | signoffParentRequest
  | signoffParentAnswer (wasSuccessful : Bool)
  | lockNeighborRequest
  | lockNeighborResponse (wasSuccessful : Bool)
  | unlockNeighbor
deriving DecidableEq, Repr

/-- A message without its header. -/
inductive Payload where
  | plain (body : Body)
  | searchExact (destination : NodeInfo) (query : Query Body)
  | searchExactFailure (destination : NodeInfo) (query : Query Body)

structure Message where
  sender : NodeInfo
  target : NodeInfo
  payload : Payload

def Body.messageType : Body → MessageType
  | .join .. => .kJoin
  | .joinAccept .. => .kJoinAccept
  | .joinAcceptAck => .kJoinAcceptAck
  | .removeNeighbor .. => .kRemoveNeighbor
  | .removeNeighborAck => .kRemoveNeighborAck
  | .updateNeighbors .. => .kUpdateNeighbors
  | .removeAndUpdateNeighbors .. => .kRemoveAndUpdateNeighbor
  | .replacementUpdate .. => .kReplacementUpdate
  | .getNeighbors .. => .kGetNeighbors
  | .informAboutNeighbors .. => .kInformAboutNeighbors
  | .findReplacement .. => .kFindReplacement
  | .replacementNack => .kReplacementNack
  | .replacementOffer => .kReplacementOffer
  | .replacementAck .. => .kReplacementAck
  | .signoffParentRequest => .kSignOffParentRequest
  | .signoffParentAnswer .. => .kSignOffParentAnswer
  | .lockNeighborRequest => .kLockNeighborRequest
  | .lockNeighborResponse .. => .kLockNeighborResponse
  | .unlockNeighbor => .kUnlockNeighbor

def Payload.messageType : Payload → MessageType
  | .plain body => body.messageType
  | .searchExact .. => .kSearchExact
  | .searchExactFailure .. => .kSearchExactFailure

/-- `validateImpl` of the message classes. -/
def Body.validate : Body → Bool
  | .join enteringNode _ _ => enteringNode.physical.isSome
  | .joinAccept adjacentLeft adjacentRight neighbors =>
    !neighbors.any (fun n => !n.isInitialized) &&
      (adjacentLeft.isInitialized || adjacentRight.isInitialized)
  | .removeNeighbor removed _ => removed.isInitialized
  | .updateNeighbors neighbors _ => !neighbors.isEmpty
  | .removeAndUpdateNeighbors removed neighbors _ =>
    removed.isInitialized && !neighbors.isEmpty
  | .replacementUpdate removed replaced newLogical =>
    removed.isInitialized && replaced.isInitialized && newLogical.isSome
  | .getNeighbors _ relationships => !relationships.isEmpty
  | .informAboutNeighbors neighbors => !neighbors.isEmpty
  | .findReplacement nodeToReplace _ _ => nodeToReplace.isInitialized
  | .replacementAck neighbors _ _ _ => neighbors.all (·.isInitialized)
  | _ => true

def Payload.validate : Payload → Bool
  | .plain body => body.validate
  | .searchExact destination _ => destination.isValidPeer
  | .searchExactFailure destination _ => destination.isValidPeer

/-- `MinhtonMessageHeader::validate`.  A node information without a position
has the fanout 0. -/
def Message.validateHeader (msg : Message) : Bool :=
  msg.sender.physical.isSome && msg.target.physical.isSome &&
    (!msg.sender.isInitialized || msg.target.isValidPeer)

/-! ### The state machine -/

inductive FSMState where
  | kIdle
  | kWaitForJoinAccept
  | kConnected
  | kConnectedAcceptingChild
  | kConnectedReplacing
  | kWaitForReplacementOffer
  | kConnectedWaitingParentResponse
  | kSignOffFromInlevelNeighbors
  | kConnectedWaitingParentResponseDirectLeaveWoReplacement
  | kSignOffFromInlevelNeighborsDirectLeaveWoReplacement
deriving DecidableEq, Repr

/-- `recvNonCriticalMsgInConnectedState`. -/
def recvNonCritical : MessageType → Bool
  | .kJoin | .kUpdateNeighbors | .kRemoveNeighbor | .kRemoveAndUpdateNeighbor
  | .kGetNeighbors | .kInformAboutNeighbors | .kSearchExact | .kSearchExactFailure
  | .kReplacementUpdate | .kFindReplacement | .kLockNeighborRequest
  | .kLockNeighborResponse | .kRemoveNeighborAck | .kUnlockNeighbor
  | .kSignOffParentRequest => true
  | _ => false

/-- `sendNonCriticalMsgInConnectedState`. -/
def sendNonCritical : MessageType → Bool
  | .kJoin | .kUpdateNeighbors | .kRemoveNeighbor | .kGetNeighbors
  | .kInformAboutNeighbors | .kSearchExact | .kSearchExactFailure | .kReplacementUpdate
  | .kFindReplacement | .kSignOffParentRequest | .kSignOffParentAnswer
  | .kLockNeighborRequest | .kLockNeighborResponse | .kRemoveNeighborAck
  | .kUnlockNeighbor | .kReplacementNack => true
  | _ => false

/-- A row of the transition table: start state, guard and target state. -/
abbrev Transition (Event : Type) := FSMState × (Event → Bool) × FSMState

/-- The rows for `SendMessage`. -/
def sendTransitions : List (Transition MessageType) :=
  [(.kConnected, (· = .kJoinAccept), .kConnectedAcceptingChild),
   (.kConnected, (· = .kSignOffParentRequest), .kConnectedWaitingParentResponse),
   (.kConnectedWaitingParentResponse, (· = .kReplacementNack),
    .kConnectedWaitingParentResponse),
   (.kSignOffFromInlevelNeighbors, (· = .kReplacementOffer), .kConnectedReplacing),
   (.kSignOffFromInlevelNeighbors, (· = .kRemoveNeighbor), .kSignOffFromInlevelNeighbors),
   (.kSignOffFromInlevelNeighbors, (· = .kUpdateNeighbors), .kSignOffFromInlevelNeighbors),
   (.kSignOffFromInlevelNeighbors, (· = .kRemoveAndUpdateNeighbor),
    .kSignOffFromInlevelNeighbors),
   (.kSignOffFromInlevelNeighborsDirectLeaveWoReplacement, (· = .kRemoveNeighbor),
    .kSignOffFromInlevelNeighborsDirectLeaveWoReplacement),
   (.kSignOffFromInlevelNeighborsDirectLeaveWoReplacement, (· = .kUpdateNeighbors),
    .kSignOffFromInlevelNeighborsDirectLeaveWoReplacement),
   (.kSignOffFromInlevelNeighborsDirectLeaveWoReplacement, (· = .kRemoveAndUpdateNeighbor),
    .kSignOffFromInlevelNeighborsDirectLeaveWoReplacement),
   (.kConnected, (· = .kJoinAcceptAck), .kConnected),
   (.kWaitForJoinAccept, (· = .kJoin), .kWaitForJoinAccept),
   (.kIdle, (fun t => t = .kUnlockNeighbor ∨ t = .kSignOffParentRequest ∨
     t = .kReplacementAck), .kIdle),
   (.kConnected, sendNonCritical, .kConnected),
   (.kConnectedAcceptingChild, sendNonCritical, .kConnectedAcceptingChild),
   (.kConnectedReplacing, sendNonCritical, .kConnectedReplacing),
   (.kWaitForReplacementOffer, sendNonCritical, .kWaitForReplacementOffer),
   (.kConnectedWaitingParentResponse, sendNonCritical, .kConnectedWaitingParentResponse),
   (.kSignOffFromInlevelNeighbors, sendNonCritical, .kSignOffFromInlevelNeighbors),
   (.kConnectedWaitingParentResponseDirectLeaveWoReplacement, sendNonCritical,
    .kConnectedWaitingParentResponseDirectLeaveWoReplacement),
   (.kSignOffFromInlevelNeighborsDirectLeaveWoReplacement, sendNonCritical,
    .kSignOffFromInlevelNeighborsDirectLeaveWoReplacement)]

/-- `ReceiveMessage`. -/
structure ReceiveEvent where
  messageType : MessageType
  doesNotNeedReplacement : Bool

/-- The rows for `ReceiveMessage`. -/
def receiveTransitions : List (Transition ReceiveEvent) :=
  [(.kWaitForJoinAccept, (·.messageType = .kJoinAccept), .kConnected),
   (.kConnectedAcceptingChild, (·.messageType = .kJoinAcceptAck), .kConnected),
   (.kConnectedWaitingParentResponse, (·.messageType = .kSignOffParentAnswer),
    .kSignOffFromInlevelNeighbors),
   (.kConnectedWaitingParentResponseDirectLeaveWoReplacement,
    (·.messageType = .kSignOffParentAnswer),
    .kSignOffFromInlevelNeighborsDirectLeaveWoReplacement),
   (.kConnectedReplacing, (·.messageType = .kReplacementAck), .kConnected),
   (.kWaitForReplacementOffer, (·.messageType = .kReplacementOffer), .kIdle),
   (.kConnected, (recvNonCritical ·.messageType), .kConnected),
   (.kConnectedAcceptingChild, (recvNonCritical ·.messageType), .kConnectedAcceptingChild),
   (.kConnectedReplacing, (recvNonCritical ·.messageType), .kConnectedReplacing),
   (.kWaitForReplacementOffer,
    (fun e => e.messageType = .kFindReplacement && e.doesNotNeedReplacement),
    .kConnectedWaitingParentResponseDirectLeaveWoReplacement),
   (.kWaitForReplacementOffer, (recvNonCritical ·.messageType), .kWaitForReplacementOffer),
   (.kConnectedWaitingParentResponse, (recvNonCritical ·.messageType),
    .kConnectedWaitingParentResponse),
   (.kSignOffFromInlevelNeighbors, (recvNonCritical ·.messageType),
    .kSignOffFromInlevelNeighbors),
   (.kConnectedWaitingParentResponseDirectLeaveWoReplacement,
    (recvNonCritical ·.messageType), .kConnectedWaitingParentResponseDirectLeaveWoReplacement),
   (.kSignOffFromInlevelNeighborsDirectLeaveWoReplacement, (recvNonCritical ·.messageType),
    .kSignOffFromInlevelNeighborsDirectLeaveWoReplacement),
   (.kWaitForReplacementOffer, (·.messageType = .kReplacementNack), .kConnected),
   (.kIdle, (·.messageType = .kFindReplacement), .kIdle)]

/-- `process_event`: the first row that fits gives the next state.  Without
one the action is invalid. -/
def processEvent {Event : Type} (rows : List (Transition Event)) (state : FSMState)
    (event : Event) : Option FSMState :=
  (rows.find? fun row => row.1 = state && row.2.1 event).map (·.2.2)

def fsmSend (state : FSMState) (messageType : MessageType) : Option FSMState :=
  processEvent sendTransitions state messageType

def fsmReceive (state : FSMState) (event : ReceiveEvent) : Option FSMState :=
  processEvent receiveTransitions state event

/-- `leaveNetworkSignalCanLeavePosition` and `…CannotLeavePosition`. -/
def fsmLeaveSignal (state : FSMState) (canLeavePosition : Bool) : Option FSMState :=
  if state = .kConnected then
    some (if canLeavePosition then .kConnectedWaitingParentResponseDirectLeaveWoReplacement
      else .kWaitForReplacementOffer)
  else none

/-- `joinNetworkSignalUsingAddress`. -/
def fsmJoinSignal (state : FSMState) : Option FSMState :=
  if state = .kIdle then some .kWaitForJoinAccept else none

end Sola.Minhton
