import Sola.Lib.Action
import Sola.Minhton.Messages

/-!
The state of a node and the operations all algorithms share: sending
(`minhton/src/core/node.cpp`), the keys of the procedure information
(`minhton/src/utils/procedure_info.cpp`) and waiting for acknowledgements
(`minhton/src/algorithms/misc/response_algorithm_general.cpp`).

Assertions are compiled out.  A null pointer that is followed is an
exception here, as is a call of an empty `std::function`.
-/

namespace Sola.Minhton

open Sola.Lib Action Sola.Lib.MaryTree Sola.Lib.Distances

/-- The member functions that are passed to `waitForAcks`. -/
inductive AckCallback where
  | allUpdatesAcknowledged
  | processUpdateForwardAck
  | processRemoveNeighborAck
  | processReceiveSignoffNeighborAdjacentsAck
  | processReceiveReplacementUpdateAck
deriving DecidableEq, Repr

structure Node where
  ri : RoutingInformation
  fsm : FSMState
  nodeLocked : Bool
  /-- The nodes saved under `kAcceptChildProcedure`: the entering node and its
  adjacents. -/
  acceptChild : Option (NodeInfo × NodeInfo × NodeInfo)
  /-- An event id is saved under `kJoinProcedure`. -/
  joinEvent : Bool
  /-- An event id is saved under `kLeaveProcedure`. -/
  leaveEvent : Bool
  /-- The number of acknowledgements that are waited for, `number_`. -/
  number : ℕ
  cb : Option AckCallback
  /-- `replacing_node_` of the leave algorithm: the node to replace. -/
  replacingNode : NodeInfo
  inLeaveProgress : Bool
  lockedRightNeighbor : Bool
  lockedLeftNeighbor : Bool
  remainingLockNeighborResponse : ℕ
  /-- The sender of `current_signoff_request_`. -/
  currentSignoffRequest : Option NodeInfo
  /-- The sender of `last_replacement_update_`. -/
  lastReplacementUpdate : Option NodeInfo
  oldParent : NodeInfo
  /-- `replacing_node_` of the node itself: the successor that has taken its
  position. -/
  successor : NodeInfo
deriving DecidableEq, Repr

namespace Node

/-- A node as it starts: at a position or without one. -/
def start (ri : RoutingInformation) (fsm : FSMState) : Node where
  ri := ri
  fsm := fsm
  nodeLocked := false
  acceptChild := none
  joinEvent := false
  leaveEvent := false
  number := 0
  cb := none
  replacingNode := .none
  inLeaveProgress := false
  lockedRightNeighbor := false
  lockedLeftNeighbor := false
  remainingLockNeighborResponse := 0
  currentSignoffRequest := none
  lastReplacementUpdate := none
  oldParent := .none
  successor := .none

def self (node : Node) : NodeInfo := node.ri.selfNodeInfo

end Node

/-- A node at work on a message, and what it has sent so far. -/
structure Activity where
  node : Node
  sent : List Message

abbrev Handler := Action Activity

def getNode : Handler Node := do
  let activity ← Action.get
  return activity.node

def modifyNode (f : Node → Node) : Handler Unit :=
  Action.modify fun activity => { activity with node := f activity.node }

def getRouting : Handler RoutingInformation := do
  let node ← getNode
  return node.ri

/-- Change the routing information by a function that can throw. -/
def modifyRouting (f : RoutingInformation → Except String RoutingInformation) :
    Handler Unit := do
  let node ← getNode
  let ri ← Action.lift (f node.ri)
  modifyNode ({ · with ri := ri })

section Wp

variable {α : Type} {E : Activity → Prop} {st : Activity}

@[simp] theorem wp_getNode {Q : Node → Activity → Prop} :
    wp getNode Q E st ↔ Q st.node st := Iff.rfl

variable {Q : Unit → Activity → Prop}

@[simp] theorem wp_modifyNode (f : Node → Node) :
    wp (modifyNode f) Q E st ↔ Q () ⟨f st.node, st.sent⟩ := Iff.rfl

@[simp] theorem wp_getRouting {Q : RoutingInformation → Activity → Prop} :
    wp getRouting Q E st ↔ Q st.node.ri st := Iff.rfl

end Wp

/-! ### Sending -/

/-- The constructor of the message, `prepareSending` and the network. -/
def sendMessage (msg : Message) : Handler Unit := do
  let node ← getNode
  if !msg.payload.validate then Action.throw "Invalid MINHTON message payload"
  else if !msg.validateHeader then Action.throw "Invalid MINHTON message header"
  else
    match fsmSend node.fsm msg.payload.messageType with
    | none => Action.throw "Invalid Action"
    | some state =>
      Action.modify fun activity =>
        { node := { activity.node with fsm := state }
          sent := activity.sent ++ [msg] }

def send (target : NodeInfo) (body : Body) : Handler Unit := do
  let node ← getNode
  sendMessage ⟨node.self, target, .plain body⟩

variable {Q : Unit → Activity → Prop} {E : Activity → Prop} {st : Activity}

/-- A message is sent, or its checks fail and nothing happens. -/
theorem wp_send {target : NodeInfo} {body : Body} (hE : E st)
    (hQ : ∀ f, fsmSend st.node.fsm body.messageType = some f → body.validate = true →
      Message.validateHeader ⟨st.node.self, target, .plain body⟩ = true →
      Q () ⟨{ st.node with fsm := f }, st.sent ++ [⟨st.node.self, target, .plain body⟩]⟩) :
    wp (send target body) Q E st := by
  simp only [send, sendMessage, wp_bind, wp_getNode, wp_ite, wp_throw]
  refine ⟨fun _ => hE, fun hvalid => ⟨fun _ => hE, fun hheader => ?_⟩⟩
  cases hf : fsmSend st.node.fsm (Payload.plain body).messageType with
  | none => exact hE
  | some f =>
    exact hQ f hf (by simpa [Payload.validate] using hvalid) (by simpa using hheader)

/-! ### Procedure information -/

/-- The keys under which event ids are saved. -/
inductive EventKey where
  | kJoinProcedure
  | kLeaveProcedure
deriving DecidableEq, Repr

def Node.hasEvent (node : Node) : EventKey → Bool
  | .kJoinProcedure => node.joinEvent
  | .kLeaveProcedure => node.leaveEvent

def Node.setEvent (node : Node) (key : EventKey) (saved : Bool) : Node :=
  match key with
  | .kJoinProcedure => { node with joinEvent := saved }
  | .kLeaveProcedure => { node with leaveEvent := saved }

def saveEventId (key : EventKey) : Handler Unit := do
  let node ← getNode
  if node.hasEvent key then
    Action.throw "Key already exists. You must wait until it has been removed."
  else modifyNode (·.setEvent key true)

def loadEventId (key : EventKey) : Handler Unit := do
  let node ← getNode
  if node.hasEvent key then pure ()
  else Action.throw "Key does not exist. You cannot load a non-existent entry."

def removeEventId (key : EventKey) : Handler Unit := do
  let node ← getNode
  if node.hasEvent key then modifyNode (·.setEvent key false)
  else Action.throw "Key does not exist. You cannot remove a non-existent entry."

section Wp

variable {key : EventKey} {Q : Unit → Activity → Prop} {E : Activity → Prop} {st : Activity}

@[simp] theorem wp_saveEventId : wp (saveEventId key) Q E st ↔
    (st.node.hasEvent key = true → E st) ∧
      (¬ st.node.hasEvent key = true → Q () ⟨st.node.setEvent key true, st.sent⟩) := by
  simp only [saveEventId, wp_bind, wp_getNode, wp_ite, wp_throw,
    wp_modifyNode]

@[simp] theorem wp_loadEventId : wp (loadEventId key) Q E st ↔
    (st.node.hasEvent key = true → Q () st) ∧ (¬ st.node.hasEvent key = true → E st) := by
  simp only [loadEventId, wp_bind, wp_getNode, wp_ite, wp_throw,
    wp_pure]

@[simp] theorem wp_removeEventId : wp (removeEventId key) Q E st ↔
    (st.node.hasEvent key = true → Q () ⟨st.node.setEvent key false, st.sent⟩) ∧
      (¬ st.node.hasEvent key = true → E st) := by
  simp only [removeEventId, wp_bind, wp_getNode, wp_ite, wp_throw,
    wp_modifyNode]

end Wp

/-! ### Acknowledgements -/

/-- The join procedure of a parent is over. -/
def allUpdatesAcknowledged : Handler Unit := do
  modifyNode ({ · with nodeLocked := false })
  let node ← getNode
  if node.acceptChild.isNone then
    Action.throw "Key does not exist. You cannot remove a non-existent entry."
  else
    modifyNode ({ · with acceptChild := none })
    removeEventId .kJoinProcedure

def processUpdateForwardAck : Handler Unit := do
  let node ← getNode
  match node.lastReplacementUpdate with
  | none => Action.throw "null pointer"
  | some sender =>
    send sender .removeNeighborAck
    modifyNode ({ · with lastReplacementUpdate := none })

/-- The parent has signed off its child from its neighbors. -/
def processSignoffRemoveNeighborAck : Handler Unit := do
  let node ← getNode
  match node.currentSignoffRequest with
  | none => Action.throw "null pointer"
  | some sender => send sender (.signoffParentAnswer true)

def sendReplacementOffer : Handler Unit := do
  let node ← getNode
  send node.replacingNode .replacementOffer

def processReceiveSignoffNeighborAdjacentsAck : Handler Unit := do
  let node ← getNode
  if node.replacingNode.isInitialized then sendReplacementOffer
  else
    modifyNode ({ · with fsm := .kIdle })
    send node.ri.parent .unlockNeighbor
    modifyNode fun node =>
      { node with
        ri := node.ri.resetPosition
        inLeaveProgress := false
        replacingNode := .none }

def processReceiveReplacementUpdateAck : Handler Unit := do
  let node ← getNode
  let target := if node.oldParent.logical = node.self.logical then node.self
    else node.oldParent
  send target .unlockNeighbor
  modifyNode ({ · with inLeaveProgress := false, replacingNode := .none })

def runCallback : AckCallback → Handler Unit
  | .allUpdatesAcknowledged => allUpdatesAcknowledged
  | .processUpdateForwardAck => processUpdateForwardAck
  | .processRemoveNeighborAck => processSignoffRemoveNeighborAck
  | .processReceiveSignoffNeighborAdjacentsAck => processReceiveSignoffNeighborAdjacentsAck
  | .processReceiveReplacementUpdateAck => processReceiveReplacementUpdateAck

def waitForAcks (number : ℕ) (cb : AckCallback) : Handler Unit :=
  if number = 0 then runCallback cb
  else modifyNode ({ · with number := u32 number, cb := some cb })

/-- `ResponseAlgorithmGeneral::processRemoveNeighborAck`. -/
def processRemoveNeighborAck : Handler Unit := do
  modifyNode fun node => { node with number := u32Pred node.number }
  let node ← getNode
  if node.number = 0 then
    match node.cb with
    | none => Action.throw "bad function call"
    | some cb =>
      runCallback cb
      modifyNode ({ · with cb := none })
  else pure ()

end Sola.Minhton
