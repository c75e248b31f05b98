import Sola.Minhton.Leave

/-!
Receiving messages (`minhton/src/core/node.cpp`,
`minhton/src/core/logic_container.cpp`) and the network of all nodes.

A step of the network delivers any message in flight.  Nobody catches the
exceptions of a handler, so a node that throws has failed: what it has sent
is in flight, and it handles nothing any more.
-/

namespace Sola.Minhton

open Sola.Lib Sola.Lib.MaryTree Sola.Lib.Distances

/-! ### Receiving -/

/-- `does_not_need_replacement`: the search for a replacement has come back
to the node that leaves. -/
def doesNotNeedReplacement (node : Node) : Payload → Bool
  | .plain (.findReplacement nodeToReplace searchProgress _) =>
    decide (nodeToReplace = node.self) && decide (searchProgress = .kReplacementNode)
  | _ => false

/-- A message to a node that has left and has a successor. -/
def forwardToSuccessor (node : Node) (msg : Message) : Handler Unit :=
  match msg.payload with
  | .plain (.findReplacement ..) => pure ()
  | .plain (.join ..) => pure ()
  | .plain .signoffParentRequest => sendMessage { msg with target := node.successor }
  | _ => Action.throw "forwarding this message type not handled yet"

/-- What `prepareReceiving` does with an accepted message besides the state
transition; the result says whether the message is processed. -/
def noteReceived (msg : Message) : Handler Bool := do
  match msg.payload with
  | .plain .replacementNack => return false
  | .plain .replacementOffer => do
      modifyNode fun node =>
        { node with successor := ⟨node.self.logical, msg.sender.physical⟩ }
      return true
  | .plain (.signoffParentAnswer false) => do
      modifyNode ({ · with fsm := .kConnected })
      return true
  | _ => return true

/-- The result says whether the message is processed. -/
def prepareReceiving (msg : Message) : Handler Bool := do
  let node ← getNode
  if node.fsm = .kIdle ∧ node.successor.isInitialized then
    forwardToSuccessor node msg
    return false
  else if msg.payload.messageType = .kFindReplacement ∧
      msg.target.logical ≠ node.self.logical then
    return false
  else if node.fsm = .kIdle then return false
  else
    match fsmReceive node.fsm
        ⟨msg.payload.messageType, doesNotNeedReplacement node msg.payload⟩ with
    | none => Action.throw "Invalid Action"
    | some state =>
      modifyNode ({ · with fsm := state })
      noteReceived msg

/-- `LogicContainer::process` for a message that is not a search. -/
def processBody (m : ℕ) (recv : Message → Handler Unit) (sender target : NodeInfo) :
    Body → Handler Unit
  | .join enteringNode searchProgress hopCount =>
    processJoin m enteringNode searchProgress hopCount
  | .joinAccept adjLeft adjRight neighbors =>
    processJoinAccept m sender target adjLeft adjRight neighbors
  | .joinAcceptAck => processJoinAcceptAck m sender
  | .removeNeighbor removed ack => processRemoveNeighbor m sender removed ack
  | .removeNeighborAck => processRemoveNeighborAck
  | .updateNeighbors neighbors ack => processUpdateNeighbors m sender neighbors ack
  | .removeAndUpdateNeighbors removed neighbors ack =>
    processRemoveAndUpdateNeighbors m sender target removed neighbors ack
  | .replacementUpdate removed replaced newLogical =>
    processReplacementUpdate m sender removed replaced newLogical
  | .getNeighbors sendBackTo relationships => processGetNeighbors sendBackTo relationships
  | .informAboutNeighbors neighbors => processInformAboutNeighbors m neighbors
  | .findReplacement nodeToReplace searchProgress hopCount =>
    processFindReplacement m sender target nodeToReplace searchProgress hopCount
  | .replacementNack => pure ()
  | .replacementOffer => processReplacementOffer sender
  | .replacementAck neighbors locked lockedRight lockedLeft =>
    processReplacementAck m sender neighbors locked lockedRight lockedLeft
  | .signoffParentRequest => processSignOffParentRequest m recv sender
  | .signoffParentAnswer wasSuccessful => processSignOffParentAnswer wasSuccessful
  | .lockNeighborRequest => processLockNeighborRequest sender
  | .lockNeighborResponse wasSuccessful => processLockNeighborResponse m recv wasSuccessful
  | .unlockNeighbor => processUnlockNeighbor m recv

def process (m : ℕ) (recv : Message → Handler Unit) (msg : Message) : Handler Unit :=
  match msg.payload with
  | .plain body => processBody m recv msg.sender msg.target body
  | .searchExact destination query => searchExact m recv destination query
  | .searchExactFailure .. => Action.throw "not implemented yet"

/-- `recv`.  A handler calls it again for the query of a search that has
arrived and for the removal of its own child; `depth` bounds the nesting. -/
def recv (m : ℕ) : ℕ → Message → Handler Unit
  | 0, _ => Action.throw "stack overflow"
  | depth + 1, msg => do
      let accepted ← prepareReceiving msg
      if accepted then process m (recv m depth) msg

/-- A message from the network. -/
def receive (m : ℕ) (msg : Message) : Handler Unit := recv m 8 msg

/-- `processSignal` with a join signal for the node at `target`. -/
def signalJoin (target : Address) : Handler Unit := do
  let node ← getNode
  match fsmJoinSignal node.fsm with
  | none => pure ()
  | some state =>
    modifyNode ({ · with fsm := state })
    send ⟨none, some target⟩ (.join node.self .kNone 0)

/-- `processSignal` with a leave signal. -/
def signalLeave (m : ℕ) : Handler Unit := do
  let node ← getNode
  if node.fsm = .kConnectedReplacing then pure ()
  else
    match fsmLeaveSignal node.fsm (node.ri.canLeaveWithoutReplacement m) with
    | none => pure ()
    | some state =>
      modifyNode ({ · with fsm := state })
      initiateSelfDeparture m

/-! ### The network -/

/-- All nodes by address, those that have failed, and the messages in flight. -/
structure Network where
  nodes : Address → Node
  failed : Address → Bool
  inFlight : Multiset Message

namespace Network

/-- Let the node at `address` act. -/
def act (s : Network) (address : Address) (handler : Handler Unit) : Network :=
  if s.failed address then s
  else
    let result := handler ⟨s.nodes address, []⟩
    { nodes := Function.update s.nodes address result.1.node
      failed := match result.2 with
        | .ok _ => s.failed
        | .error _ => Function.update s.failed address true
      inFlight := s.inFlight + result.1.sent }

/-- Deliver one message out of `rest` and itself. -/
def deliver (m : ℕ) (s : Network) (msg : Message) (rest : Multiset Message) : Network :=
  match msg.target.physical with
  | none => { s with inFlight := rest }
  | some address => act { s with inFlight := rest } address (receive m msg)

/-- A step of the network: some message in flight is delivered. -/
def Deliver (m : ℕ) (s s' : Network) : Prop :=
  ∃ msg rest, s.inFlight = msg ::ₘ rest ∧ s' = s.deliver m msg rest

end Network

end Sola.Minhton
