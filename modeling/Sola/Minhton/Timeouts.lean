import Sola.Lib.Transitions
import Sola.Minhton.Network

/-!
Timeouts of the procedures of a connected node (`triggerTimeout` in
`minhton/src/core/node.cpp`, `processTimeout` in
`minhton/src/core/logic_container.cpp` and the rows for `Timeout` in
`minhton/include/minhton/utils/fsm.h`).

A parent that waits for the acknowledgement of its new child, and a node that
waits for the position of another one, go back to `kConnected` when the wait
is over.  That is all that happens: the lock, the event ids and the saved nodes
stay as they are.  For the parent this means that an event id stays for ever,
because a saved accept-child procedure always has one.
-/

namespace Sola.Minhton

open Sola.Lib Action Sola.Lib.MaryTree

/-! ### The source -/

/-- The timeouts of the procedures of a connected node. -/
inductive TimeoutType where
  | kJoinAcceptAckResponseTimeout
  | kReplacementAckResponseTimeout
  | kReplacementOfferResponseTimeout
deriving DecidableEq, Repr

/-- The rows for `Timeout`. -/
def timeoutTransitions : List (Transition TimeoutType) :=
  [(.kConnectedAcceptingChild, (· = .kJoinAcceptAckResponseTimeout), .kConnected),
   (.kConnectedReplacing, (· = .kReplacementAckResponseTimeout), .kConnected),
   (.kWaitForReplacementOffer, (· = .kReplacementOfferResponseTimeout), .kConnected)]

def fsmTimeout (state : FSMState) (timeoutType : TimeoutType) : Option FSMState :=
  processEvent timeoutTransitions state timeoutType

/-- `LogicContainer::processTimeout` does nothing for these timeouts. -/
def triggerTimeout (timeoutType : TimeoutType) : Handler Unit := do
  let node ← getNode
  match fsmTimeout node.fsm timeoutType with
  | none => Action.throw "Invalid Action"
  | some state => modifyNode ({ · with fsm := state })

/-! ### Networks with signals, timeouts and lost messages -/

deriving instance DecidableEq for Query
deriving instance DecidableEq for Payload
deriving instance DecidableEq for Message

inductive NetworkEvent where
  | deliver (msg : Message)
  | lose (msg : Message)
  | joinNetwork (address target : Address)
  | leaveNetwork (address : Address)
  | timeout (address : Address) (timeoutType : TimeoutType)

namespace Network

def step (m : ℕ) (s : Network) : NetworkEvent → Option Network
  | .deliver msg =>
    if msg ∈ s.inFlight then some (s.deliver m msg (s.inFlight.erase msg)) else none
  | .lose msg =>
    if msg ∈ s.inFlight then some { s with inFlight := s.inFlight.erase msg } else none
  | .joinNetwork address target => some (s.act address (signalJoin target))
  | .leaveNetwork address => some (s.act address (signalLeave m))
  | .timeout address timeoutType => some (s.act address (triggerTimeout timeoutType))

/-- The root is alone, and the other nodes are not connected yet. -/
def IsStart (m : ℕ) (s : Network) : Prop :=
  ∃ root ri, RoutingInformation.init m ⟨0, 0⟩ (some root) = .ok ri ∧
    s.nodes root = .start ri .kConnected ∧
    (∀ address, address ≠ root → s.nodes address = .start (.unconnected address) .kIdle) ∧
    s.failed = (fun _ => false) ∧ s.inFlight = 0

end Network

/-! ### What the handlers do with the saved procedures -/

/-- The nodes and event ids that are saved for procedures. -/
def procedures (st : Activity) : Option (NodeInfo × NodeInfo × NodeInfo) × Bool × Bool :=
  (st.node.acceptChild, st.node.joinEvent, st.node.leaveEvent)

/-- A saved accept-child procedure has its event id. -/
def Node.AcceptTidy (node : Node) : Prop :=
  node.acceptChild.isSome = true → node.joinEvent = true

/-- Moreover no event id of a leave is left over. -/
structure Node.Tidy (node : Node) : Prop where
  accept : node.AcceptTidy
  leave : node.leaveEvent = false

/-- A handler that returns leaves the node tidy. -/
def KeepsTidy {α : Type} (x : Handler α) : Prop := Maintains (·.node.Tidy) x

theorem procedures_eq_iff {st st' : Activity} : procedures st' = procedures st ↔
    st'.node.acceptChild = st.node.acceptChild ∧ st'.node.joinEvent = st.node.joinEvent ∧
      st'.node.leaveEvent = st.node.leaveEvent := by
  simp only [procedures, Prod.mk.injEq]

/-! ### Handlers that do not touch the procedures

Most handlers neither save nor remove a procedure.  For them this is inferred
from their parts. -/

instance : Framed procedures getNode := ⟨fun _ => rfl⟩

instance : Framed procedures getRouting := ⟨fun _ => rfl⟩

/-- An update of a node that leaves the procedures as they are. -/
class Aside (f : Node → Node) : Prop where
  eq (st : Activity) : procedures ⟨f st.node, st.sent⟩ = procedures st

instance {ri : Node → RoutingInformation} {fsm : Node → FSMState} {b₁ b₂ b₃ b₄ : Node → Bool}
    {n₁ n₂ : Node → ℕ} {cb : Node → Option AckCallback} {i₁ i₂ i₃ : Node → NodeInfo}
    {o₁ o₂ : Node → Option NodeInfo} :
    Aside fun node => ⟨ri node, fsm node, b₁ node, node.acceptChild, node.joinEvent,
      node.leaveEvent, n₁ node, cb node, i₁ node, b₂ node, b₃ node, b₄ node, n₂ node, o₁ node,
      o₂ node, i₂ node, i₃ node⟩ :=
  ⟨fun _ => rfl⟩

instance {f : Node → Node} [hf : Aside f] : Framed procedures (modifyNode f) := ⟨hf.eq⟩

section Frames

variable {m : ℕ}

instance (f : RoutingInformation → Except String RoutingInformation) :
    Framed procedures (modifyRouting f) := by
  unfold modifyRouting
  infer_instance

instance (msg : Message) : Framed procedures (sendMessage msg) := by
  refine ⟨Framed.keeps.bind fun node => .ite (keeps_throw _) (.ite (keeps_throw _) ?_)⟩
  split
  · exact keeps_throw _
  · exact keeps_modify fun _ => rfl

instance (target : NodeInfo) (body : Body) : Framed procedures (send target body) := by
  unfold send
  infer_instance

instance (key : EventKey) : Framed procedures (loadEventId key) := by
  unfold loadEventId
  infer_instance

instance (sender : NodeInfo) (ack : Bool) : Framed procedures (acknowledge sender ack) := by
  unfold acknowledge
  infer_instance

instance (enteringNode adjLeft adjRight : NodeInfo) :
    Framed procedures (performSendJoinAccept m enteringNode adjLeft adjRight) := by
  unfold performSendJoinAccept
  infer_instance

instance (adjLeft adjRight : NodeInfo) :
    Framed procedures (setInitializedAdjacents m adjLeft adjRight) := by
  simp only [setInitializedAdjacents]
  infer_instance

instance (targets : List NodeInfo) (node : NodeInfo) (relationship : NeighborRelationship) :
    Framed procedures (sendUpdates targets node relationship) := by
  unfold sendUpdates
  infer_instance

instance (enteringNode : NodeInfo) :
    Framed procedures (performSendUpdateNeighborMessagesAboutEnteringNode m enteringNode) := by
  unfold performSendUpdateNeighborMessagesAboutEnteringNode
  infer_instance

instance (sender removed : NodeInfo) (ack : Bool) :
    Framed procedures (processRemoveNeighbor m sender removed ack) := by
  unfold processRemoveNeighbor
  infer_instance

instance (sender : NodeInfo) (neighbors : List (NodeInfo × NeighborRelationship)) (ack : Bool) :
    Framed procedures (processUpdateNeighbors m sender neighbors ack) := by
  unfold processUpdateNeighbors
  infer_instance

instance : Framed procedures signOffFromParent := by
  unfold signOffFromParent
  infer_instance

instance : Framed procedures performLeaveWithoutReplacement := by
  unfold performLeaveWithoutReplacement
  infer_instance

instance : Framed procedures processReceiveReplacementUpdateAck := by
  unfold processReceiveReplacementUpdateAck
  infer_instance

instance (nodeToReplace : NodeInfo) (neighbors : List NodeInfo) :
    Framed procedures (replaceMyself m nodeToReplace neighbors) := by
  refine ⟨Framed.keeps.bind fun node => ?_⟩
  split
  · exact keeps_throw _
  · exact Framed.keeps

instance (msg : Message) : Framed procedures (prepareReceiving msg) := by
  have hforward (node : Node) : Framed procedures (forwardToSuccessor node msg) := by
    unfold forwardToSuccessor
    split <;> infer_instance
  have hnote : Framed procedures (noteReceived msg) := by
    unfold noteReceived
    split <;> infer_instance
  refine ⟨Framed.keeps.bind fun node => .ite Framed.keeps <| .ite Framed.keeps <|
    .ite Framed.keeps ?_⟩
  split
  · exact keeps_throw _
  · exact Framed.keeps

end Frames

/-! ### Handlers that keep the procedures tidy -/

/-- What does not touch the procedures keeps what is said about them alone. -/
theorem maintaining_of_framed {α : Type} {P : Node → Prop} {x : Handler α} [h : Framed procedures x]
    (hP : ∀ st st' : Activity, procedures st' = procedures st → P st.node → P st'.node) :
    Maintaining (P ·.node) x :=
  ⟨(h.keeps.preserves hP).maintains⟩

instance {α : Type} {x : Handler α} [Framed procedures x] : Maintaining (·.node.AcceptTidy) x := by
  refine maintaining_of_framed fun st st' heq htidy => ?_
  obtain ⟨haccept, hjoin, -⟩ := procedures_eq_iff.mp heq
  rw [Node.AcceptTidy, haccept, hjoin]
  exact htidy

instance {α : Type} {x : Handler α} [Framed procedures x] : Maintaining (·.node.Tidy) x := by
  refine maintaining_of_framed fun st st' heq htidy => ?_
  obtain ⟨haccept, hjoin, hleave⟩ := procedures_eq_iff.mp heq
  refine ⟨?_, by rw [hleave]; exact htidy.leave⟩
  rw [Node.AcceptTidy, haccept, hjoin]
  exact htidy.accept

section Tidy

variable {m : ℕ} {recv : Message → Handler Unit}

/-- The join event id may be removed together with the saved nodes. -/
instance : Maintaining (·.node.Tidy) allUpdatesAcknowledged := by
  refine ⟨fun st htidy => ?_⟩
  simp only [allUpdatesAcknowledged, wp_bind, wp_modifyNode, wp_getNode, wp_ite,
    wp_throw, wp_removeEventId]
  exact ⟨fun _ => trivial, fun _ => ⟨fun _ => ⟨nofun, htidy.leave⟩, fun _ => trivial⟩⟩

instance (cb : AckCallback) : Maintaining (·.node.Tidy) (runCallback cb) := by
  cases cb with
  | allUpdatesAcknowledged => exact inferInstanceAs (Maintaining _ allUpdatesAcknowledged)
  | processUpdateForwardAck =>
    refine ⟨Maintaining.maintains.bind fun node => ?_⟩
    split <;> exact Maintaining.maintains
  | processRemoveNeighborAck =>
    refine ⟨Maintaining.maintains.bind fun node => ?_⟩
    split <;> exact Maintaining.maintains
  | processReceiveSignoffNeighborAdjacentsAck =>
    simp only [runCallback, processReceiveSignoffNeighborAdjacentsAck, sendReplacementOffer]
    infer_instance
  | processReceiveReplacementUpdateAck =>
    exact inferInstanceAs (Maintaining _ processReceiveReplacementUpdateAck)

instance (number : ℕ) (cb : AckCallback) : Maintaining (·.node.Tidy) (waitForAcks number cb) := by
  unfold waitForAcks
  infer_instance

instance : Maintaining (·.node.Tidy) processRemoveNeighborAck := by
  refine ⟨Maintaining.maintains.bind fun _ => Maintaining.maintains.bind fun node =>
    .ite ?_ Maintaining.maintains⟩
  cases node.cb <;> exact Maintaining.maintains

/-- A node is only saved after the event id of the join has been. -/
theorem wp_performAcceptChild_tidy {enteringNode : NodeInfo} {st : Activity}
    (hjoin : st.node.joinEvent = true) (hleave : st.node.leaveEvent = false) :
    wp (performAcceptChild m enteringNode) (fun _ st => st.node.Tidy)
      (fun _ => True) st := by
  have hkeeps (x : Handler Unit) [hx : Maintaining (·.node.Tidy) x] (st : Activity)
      (h : st.node.Tidy) : wp x (fun _ st => st.node.Tidy) (fun _ => True) st :=
    hx.maintains st h
  simp only [performAcceptChild, wp_bind, wp_modifyNode, wp_getNode, wp_lift,
    wp_ite, wp_throw, wp_loadEventId]
  refine ⟨fun e _ => ⟨fun left _ => ⟨fun right _ => ⟨fun _ => trivial, fun _ =>
    ⟨fun _ => trivial, fun _ => ⟨fun _ => ?_, fun _ => ⟨fun _ => ⟨fun _ => ?_, fun _ => ?_⟩,
      fun _ => trivial⟩⟩⟩⟩, fun _ _ => trivial⟩, fun _ _ => trivial⟩, fun _ _ => trivial⟩
  all_goals exact hkeeps _ _ ⟨fun _ => hjoin, hleave⟩

instance (neighbors : List NodeInfo) :
    Maintaining (·.node.Tidy) (continueAcceptChildProcedure m neighbors) := by
  refine ⟨fun st htidy => ?_⟩
  rw [continueAcceptChildProcedure, wp_bind, wp_getNode]
  cases haccept : st.node.acceptChild with
  | none => trivial
  | some saved =>
    obtain ⟨enteringNode, adjLeft, adjRight⟩ := saved
    simp only [wp_bind, wp_lift, wp_ite, wp_throw, wp_modifyNode]
    refine ⟨fun closer _ => ⟨fun _ => trivial, fun _ => ?_⟩, fun _ _ => trivial⟩
    exact Maintaining.maintains (I := fun st : Activity => st.node.Tidy) _
      ⟨fun _ => htidy.accept (by rw [haccept]; rfl), htidy.leave⟩

/-- Where the event id of a join can be saved there is no accepted child yet, so
the event id may also be removed again. -/
instance (enteringNode : NodeInfo) (searchProgress : SearchProgress) (hopCount : ℕ) :
    Maintaining (·.node.Tidy) (processJoin m enteringNode searchProgress hopCount) := by
  refine ⟨fun st htidy => ?_⟩
  simp only [processJoin, wp_bind, wp_getNode, wp_ite, wp_pure,
    wp_saveEventId, wp_lift]
  refine ⟨fun _ => htidy, fun _ => ⟨fun _ => trivial, fun hevent =>
    ⟨fun decision _ => ?_, fun _ _ => trivial⟩⟩⟩
  have hnone : st.node.acceptChild = none := by
    cases haccept : st.node.acceptChild with
    | none => rfl
    | some saved => exact absurd (htidy.accept (by rw [haccept]; rfl)) hevent
  cases decision with
  | accept =>
    rw [followDecision, wp_pure, if_pos rfl]
    exact wp_performAcceptChild_tidy rfl htidy.leave
  | drop => exact ⟨fun _ => rfl, htidy.leave⟩
  | forward target progress =>
    simp only [followDecision, forwardRequest, wp_bind, wp_ite, wp_throw,
      wp_loadEventId]
    refine ⟨fun _ => trivial, fun _ => ⟨fun _ => ⟨fun _ => ?_, fun _ => trivial⟩,
      fun h => absurd trivial h⟩⟩
    refine wp_send trivial fun f _ _ _ => wp_removeEventId.mpr ⟨fun _ => ?_, fun _ => trivial⟩
    exact ⟨fun h => by simp [Node.setEvent, hnone] at h, htidy.leave⟩

/-! ### The event id of a leave -/

/-- A handler that ends without an event id of a leave, whether or not there has
been one. -/
def EndsTidy {α : Type} (x : Handler α) : Prop :=
  ∀ st : Activity, st.node.AcceptTidy →
    wp x (fun _ st => st.node.Tidy) (fun _ => True) st

theorem EndsTidy.maintaining {α : Type} {x : Handler α} (h : EndsTidy x) :
    Maintaining (·.node.Tidy) x :=
  ⟨fun st htidy => h st htidy.accept⟩

theorem EndsTidy.bind {α β : Type} {x : Handler α} {f : α → Handler β}
    [hx : Maintaining (·.node.AcceptTidy) x] (hf : ∀ a, EndsTidy (f a)) :
    EndsTidy (x >>= f) := by
  intro st htidy
  rw [wp_bind]
  exact (hx.maintains st htidy).imp (fun a st' h => hf a st' h) fun _ h => h

theorem endsTidy_removeEventId : EndsTidy (removeEventId .kLeaveProcedure) :=
  fun _ htidy => wp_removeEventId.mpr ⟨fun _ => ⟨htidy, rfl⟩, fun _ => trivial⟩

instance : Maintaining (·.node.AcceptTidy) (saveEventId .kLeaveProcedure) :=
  ⟨fun _ htidy => wp_saveEventId.mpr ⟨fun _ => trivial, fun _ => htidy⟩⟩

instance (requestOrigin : NodeInfo) (hopCount : ℕ) (decision : FindEndDecision) :
    Maintaining (·.node.AcceptTidy) (followDecision false requestOrigin hopCount decision) := by
  refine ⟨fun st htidy => ?_⟩
  cases decision with
  | accept => exact htidy
  | drop => exact htidy
  | forward target progress =>
    simp only [followDecision, forwardRequest, wp_bind, wp_ite, wp_throw]
    refine ⟨fun _ => trivial, fun _ => ⟨nofun, fun _ => ?_⟩⟩
    exact wp_send trivial fun f _ _ _ => htidy

instance : Maintaining (·.node.AcceptTidy) (startFindReplacement m) := by
  unfold startFindReplacement
  infer_instance

instance (sender target nodeToReplace : NodeInfo) (searchProgress : SearchProgress)
    (hopCount : ℕ) : Maintaining (·.node.AcceptTidy)
      (continueFindReplacement m sender target nodeToReplace searchProgress hopCount) := by
  simp only [continueFindReplacement, prepareLeavingAsSuccessor]
  infer_instance

instance (sender target nodeToReplace : NodeInfo) (searchProgress : SearchProgress)
    (hopCount : ℕ) : Maintaining (·.node.Tidy)
      (processFindReplacement m sender target nodeToReplace searchProgress hopCount) :=
  EndsTidy.maintaining <| .bind fun _ => .bind fun _ => endsTidy_removeEventId

instance : Maintaining (·.node.Tidy) (initiateSelfDeparture m) := by
  refine EndsTidy.maintaining (.bind fun ri => ?_)
  split_ifs
  · exact .bind fun _ => .bind fun _ => endsTidy_removeEventId
  · exact .bind fun _ => endsTidy_removeEventId

instance : Maintaining (·.node.Tidy) (signalLeave m) := by
  refine ⟨Maintaining.maintains.bind fun node => .ite Maintaining.maintains ?_⟩
  split <;> exact Maintaining.maintains

/-- With nobody to wait for, the callback of a replacement runs at once; it has
nothing to do with the procedures. -/
instance (number : ℕ) :
    Framed procedures (waitForAcks number .processReceiveReplacementUpdateAck) := by
  simp only [waitForAcks, runCallback]
  infer_instance

instance (sender : NodeInfo) (neighbors : List NodeInfo) (locked lockedRight lockedLeft : Bool) :
    Maintaining (·.node.Tidy)
      (processReplacementAck m sender neighbors locked lockedRight lockedLeft) :=
  EndsTidy.maintaining <| .bind fun _ => .bind fun _ => .bind fun _ => .bind fun _ =>
    .bind fun _ => .bind fun _ => .bind fun _ => .bind fun _ => endsTidy_removeEventId

/-! ### Nested calls -/

set_option synthInstance.maxSize 2000

variable [hrecv : ∀ msg, Maintaining (·.node.Tidy) (recv msg)]

instance (destination : NodeInfo) (query : Query Body) :
    Maintaining (·.node.Tidy) (searchExact m recv destination query) := by
  refine ⟨Maintaining.maintains.bind fun node => Maintaining.maintains.bind fun action => ?_⟩
  cases action with
  | receive target query => exact (hrecv _).maintains
  | _ => exact Maintaining.maintains

instance (body : Body) : Maintaining (·.node.Tidy) (sendRight m recv body) := by
  unfold sendRight
  infer_instance

instance (body : Body) : Maintaining (·.node.Tidy) (sendLeft m recv body) := by
  unfold sendLeft
  infer_instance

instance : Maintaining (·.node.Tidy) (signOffChild recv) := by
  refine ⟨Maintaining.maintains.bind fun node => ?_⟩
  cases node.currentSignoffRequest <;> exact Maintaining.maintains

instance : Maintaining (·.node.Tidy) (lockLeft m recv) := by
  unfold lockLeft
  infer_instance

instance (wasSuccessful : Bool) :
    Maintaining (·.node.Tidy) (processLockNeighborResponse m recv wasSuccessful) := by
  simp only [processLockNeighborResponse]
  refine ⟨Maintaining.maintains.bind fun node => .ite ?_ Maintaining.maintains⟩
  cases node.currentSignoffRequest <;> exact Maintaining.maintains

/-- Every message, one case for each kind. -/
instance (sender target : NodeInfo) (body : Body) :
    Maintaining (·.node.Tidy) (processBody m recv sender target body) := by
  cases body with
  | joinAccept adjLeft adjRight neighbors =>
    simp only [processBody, processJoinAccept]
    split <;> infer_instance
  | joinAcceptAck =>
    simp only [processBody, processJoinAcceptAck]
    refine ⟨Maintaining.maintains.bind fun node => ?_⟩
    split <;> exact Maintaining.maintains
  | _ =>
    simp only [processBody, processRemoveAndUpdateNeighbors, processReplacementUpdate,
      processGetNeighbors, processInformAboutNeighbors, processReplacementOffer,
      processSignOffParentAnswer, signOffFromNeighborsAndAdjacents, processSignOffParentRequest,
      processLockNeighborRequest, processUnlockNeighbor]
    infer_instance

omit hrecv in
/-- A received message, by induction on the nesting of the calls. -/
theorem maintaining_recv (depth : ℕ) (msg : Message) :
    Maintaining (·.node.Tidy) (Sola.Minhton.recv m depth msg) := by
  induction depth generalizing msg with
  | zero => exact inferInstanceAs (Maintaining _ (throw _))
  | succ depth ih =>
    refine ⟨Maintaining.maintains.bind fun accepted => .ite ?_ Maintaining.maintains⟩
    unfold process
    split <;> exact Maintaining.maintains

end Tidy

/-! ### Tidy networks -/

namespace Network

variable {m : ℕ}

/-- All nodes that have not failed are tidy. -/
def Tidy (s : Network) : Prop := ∀ address, s.failed address = false → (s.nodes address).Tidy

variable {s : Network}

theorem Tidy.act (h : s.Tidy) (address : Address) {handler : Handler Unit}
    (hhandler : KeepsTidy handler) : (s.act address handler).Tidy := by
  unfold Network.act
  split_ifs with hfailed
  · exact h
  · intro a ha
    by_cases hself : a = address
    · subst hself
      cases hrun : handler ⟨s.nodes a, []⟩ with
      | mk st r =>
        cases r with
        | ok _ =>
          have htidy : st.node.Tidy := hhandler.of_run (h a (by simpa using hfailed)) hrun
          simpa [hrun] using htidy
        | error e => simp [hrun] at ha
    · have hworks : s.failed a = false := by
        cases hrun : handler ⟨s.nodes address, []⟩ with
        | mk st r => cases r <;> simpa [hrun, hself] using ha
      simpa [hself] using h a hworks

theorem IsStart.tidy (h : IsStart m s) : s.Tidy := by
  obtain ⟨root, ri, -, hroot, hother, -, -⟩ := h
  intro a _
  by_cases ha : a = root
  · rw [ha, hroot]
    exact ⟨nofun, rfl⟩
  · rw [hother a ha]
    exact ⟨nofun, rfl⟩

theorem Tidy.step {s' : Network} (h : s.Tidy) (e : NetworkEvent)
    (hstep : Network.step m s e = some s') : s'.Tidy := by
  cases e with
  | deliver msg =>
    simp only [Network.step] at hstep
    split_ifs at hstep with hmem
    obtain rfl := Option.some.inj hstep
    unfold Network.deliver
    split
    · exact h
    · exact Tidy.act (s := { s with inFlight := s.inFlight.erase msg }) h _
        (maintaining_recv _ _).maintains
  | lose msg =>
    simp only [Network.step] at hstep
    split_ifs at hstep with hmem
    obtain rfl := Option.some.inj hstep
    exact h
  | joinNetwork address target =>
    obtain rfl := Option.some.inj hstep
    refine h.act _ (Maintaining.maintains.bind fun node => ?_)
    split <;> exact Maintaining.maintains
  | leaveNetwork address =>
    obtain rfl := Option.some.inj hstep
    exact h.act _ Maintaining.maintains
  | timeout address timeoutType =>
    obtain rfl := Option.some.inj hstep
    refine h.act _ ?_
    unfold triggerTimeout
    refine Maintaining.maintains.bind fun node => ?_
    split <;> exact Maintaining.maintains

/-- A state that can be reached from a start, with any signals, timeouts and
lost messages. -/
def IsReachable (m : ℕ) (s : Network) : Prop :=
  ∃ s₀, IsStart m s₀ ∧ Transitions.Reachable (step m) (fun _ _ => True) s₀ s

theorem IsReachable.tidy (h : IsReachable m s) : s.Tidy := by
  obtain ⟨s₀, hstart, hreach⟩ := h
  exact hreach.invariant hstart.tidy fun s e s' htidy _ hstep => htidy.step e hstep

end Network

/-! ### Procedures that have timed out -/

/-- The node waits for the acknowledgement of a procedure.  The procedure has a
timeout and a key for its event id. -/
inductive Node.WaitsForAck (node : Node) : TimeoutType → EventKey → Prop
  | acceptChild (hfsm : node.fsm = .kConnectedAcceptingChild)
      (hsaved : node.acceptChild.isSome = true) :
      node.WaitsForAck .kJoinAcceptAckResponseTimeout .kJoinProcedure
  | replace (hfsm : node.fsm = .kConnectedReplacing) :
      node.WaitsForAck .kReplacementAckResponseTimeout .kLeaveProcedure

/-- The node starts the accept-child procedure for the join request `msg` of
`enteringNode`. -/
def Node.AcceptsChild (m : ℕ) (node : Node) (msg : Message) (enteringNode : NodeInfo) : Prop :=
  receive m msg ⟨node, []⟩ =
    performAcceptChild m enteringNode ⟨node.setEvent .kJoinProcedure true, []⟩

section Released

variable {m : ℕ} {node : Node} {timeoutType : TimeoutType} {key : EventKey}
  {sender target enteringNode : NodeInfo} {progress : SearchProgress} {hopCount : ℕ}

/-- Only the state of the state machine changes. -/
theorem triggerTimeout_run (h : node.WaitsForAck timeoutType key) :
    triggerTimeout timeoutType ⟨node, []⟩ = (⟨{ node with fsm := .kConnected }, []⟩, .ok ()) := by
  have hfsm : fsmTimeout node.fsm timeoutType = some .kConnected := by
    cases h with
    | acceptChild hfsm _ =>
      rw [hfsm]
      decide
    | replace hfsm =>
      rw [hfsm]
      decide
  have hnode : getNode ⟨node, []⟩ = (⟨node, []⟩, .ok node) := rfl
  rw [triggerTimeout, bind_run_ok hnode, hfsm]
  rfl

/-- A join request arrives at the join algorithm of a connected node. -/
theorem receive_join (hfsm : node.fsm = .kConnected) :
    receive m ⟨sender, target, .plain (.join enteringNode progress hopCount)⟩ ⟨node, []⟩ =
      processJoin m enteringNode progress hopCount ⟨node, []⟩ := by
  have hprepare : prepareReceiving ⟨sender, target, .plain (.join enteringNode progress hopCount)⟩
      ⟨node, []⟩ = (⟨node, []⟩, .ok true) := by
    have hnode : getNode ⟨node, []⟩ = (⟨node, []⟩, .ok node) := rfl
    have hidle : ¬ (node.fsm = .kIdle ∧ node.successor.isInitialized) := by simp [hfsm]
    have hreceive : fsmReceive node.fsm ⟨.kJoin, false⟩ = some .kConnected := by
      rw [hfsm]
      decide
    have hsame : ({ node with fsm := .kConnected } : Node) = node := by
      rw [← hfsm]
    rw [prepareReceiving, bind_run_ok hnode, if_neg hidle, if_neg (by simp [
      Payload.messageType, Body.messageType]), if_neg (by simp [hfsm])]
    show (match fsmReceive node.fsm ⟨.kJoin, false⟩ with
      | none => throw "Invalid Action"
      | some state => do
          modifyNode ({ · with fsm := state })
          noteReceived ⟨sender, target, .plain (.join enteringNode progress hopCount)⟩) _ = _
    rw [hreceive]
    show ((⟨{ node with fsm := .kConnected }, []⟩ : Activity), Except.ok true) = _
    rw [hsame]
  rw [receive, recv, bind_run_ok hprepare]
  rfl

/-- The accept-child procedure sends a message, or it throws with the lock
taken. -/
theorem wp_performAcceptChild_sends (st : Activity) :
    wp (performAcceptChild m enteringNode) (fun _ st => st.sent ≠ [])
      (fun st => st.node.nodeLocked = true) st := by
  have hsend {st : Activity} {receiver : NodeInfo} {body : Body}
      (h : st.node.nodeLocked = true) : wp (send receiver body)
        (fun _ st => st.sent ≠ []) (fun st => st.node.nodeLocked = true) st :=
    wp_send h fun _ _ _ _ => by simp
  simp only [performAcceptChild, performSendJoinAccept, wp_bind, wp_modifyNode, wp_getNode,
    wp_getRouting, wp_lift, wp_ite, wp_throw, wp_loadEventId]
  refine ⟨fun e _ => ⟨fun left _ => ⟨fun right _ => ⟨fun _ => trivial, fun _ =>
    ⟨fun _ => trivial, fun _ => ⟨fun _ => ⟨fun _ => ⟨fun neighbors _ => ?_, fun _ _ => trivial⟩,
      fun _ => trivial⟩, fun _ => ⟨fun _ => ⟨fun _ => ?_, fun _ => ?_⟩, fun _ => trivial⟩⟩⟩⟩,
        fun _ _ => trivial⟩, fun _ _ => trivial⟩, fun _ _ => trivial⟩
  · exact hsend rfl
  · exact hsend rfl
  · exact hsend rfl

theorem processJoin_of_locked (hlocked : node.nodeLocked = true) :
    processJoin m enteringNode progress hopCount ⟨node, []⟩ = (⟨node, []⟩, .ok ()) := by
  have hnode : getNode ⟨node, []⟩ = (⟨node, []⟩, .ok node) := rfl
  rw [processJoin, bind_run_ok hnode, if_pos hlocked]
  rfl

/-- A join request is dropped by a locked node, and it is answered with an
exception by a node that has an event id of a join. -/
theorem acceptsChild_iff (hfsm : node.fsm = .kConnected)
    (hparent : node.ri.processJoinDecision m progress = .ok .accept) :
    node.AcceptsChild m ⟨sender, target, .plain (.join enteringNode progress hopCount)⟩
        enteringNode ↔ node.nodeLocked = false ∧ node.joinEvent = false := by
  have hnode : getNode ⟨node, []⟩ = (⟨node, []⟩, .ok node) := rfl
  have hends : wp (performAcceptChild m enteringNode) (fun _ st => st.sent ≠ [])
      (fun st => st.node.nodeLocked = true) ⟨node.setEvent .kJoinProcedure true, []⟩ :=
    wp_performAcceptChild_sends _
  rw [Node.AcceptsChild, receive_join hfsm]
  by_cases hlocked : node.nodeLocked = true
  · rw [processJoin_of_locked hlocked, hlocked]
    refine ⟨fun h => ?_, fun h => absurd h.1 (by decide)⟩
    exact absurd rfl ((wp_of_run_ok h.symm).mp hends)
  · have hunlocked : node.nodeLocked = false := by simpa using hlocked
    rw [processJoin, bind_run_ok hnode, if_neg hlocked]
    cases hevent : node.joinEvent with
    | true =>
      have hsave : saveEventId .kJoinProcedure ⟨node, []⟩ = (⟨node, []⟩,
          .error "Key already exists. You must wait until it has been removed.") := by
        rw [saveEventId, bind_run_ok hnode,
          if_pos (show node.hasEvent .kJoinProcedure = true from hevent)]
        rfl
      rw [bind_run_error hsave]
      refine ⟨fun h => ?_, fun h => absurd h.2 (by decide)⟩
      exact absurd ((wp_of_run_error h.symm).mp hends) hlocked
    | false =>
      have hsave : saveEventId .kJoinProcedure ⟨node, []⟩ =
          (⟨node.setEvent .kJoinProcedure true, []⟩, .ok ()) := by
        rw [saveEventId, bind_run_ok hnode,
          if_neg (show ¬ node.hasEvent .kJoinProcedure = true by simp [Node.hasEvent, hevent])]
        rfl
      rw [bind_run_ok hsave, hparent]
      exact ⟨fun _ => ⟨hunlocked, rfl⟩, fun _ => rfl⟩

end Released

/-- The routing information of the root at address 1, alone with fanout 2. -/
def rootAlone : RoutingInformation :=
  match RoutingInformation.init 2 ⟨0, 0⟩ (some 1) with
  | .ok ri => ri
  | .error _ => .unconnected 1

/-- The network of this root. -/
def networkAlone : Network where
  nodes address := if address = 1 then .start rootAlone .kConnected
    else .start (.unconnected address) .kIdle
  failed _ := false
  inFlight := 0

theorem isStart_networkAlone : networkAlone.IsStart 2 := by
  have hinit : RoutingInformation.init 2 ⟨0, 0⟩ (some 1) = .ok rootAlone := by decide +kernel
  exact ⟨1, rootAlone, hinit, rfl, fun a ha => if_neg ha, rfl, rfl⟩

/-- The node at address 2 joins, up to the message with its position. -/
def joinOfTwo : List NetworkEvent :=
  [.joinNetwork 2 1,
   .deliver ⟨⟨none, some 2⟩, ⟨none, some 1⟩, .plain (.join ⟨none, some 2⟩ .kNone 0)⟩]

instance (node : Node) (timeoutType : TimeoutType) (key : EventKey) :
    Decidable (node.WaitsForAck timeoutType key) :=
  decidable_of_iff
    ((timeoutType = .kJoinAcceptAckResponseTimeout ∧ key = .kJoinProcedure ∧
        node.fsm = .kConnectedAcceptingChild ∧ node.acceptChild.isSome = true) ∨
      (timeoutType = .kReplacementAckResponseTimeout ∧ key = .kLeaveProcedure ∧
        node.fsm = .kConnectedReplacing))
    ⟨by rintro (⟨rfl, rfl, hfsm, hsaved⟩ | ⟨rfl, rfl, hfsm⟩)
        · exact .acceptChild hfsm hsaved
        · exact .replace hfsm,
      by rintro (⟨hfsm, hsaved⟩ | ⟨hfsm⟩)
         · exact .inl ⟨rfl, rfl, hfsm, hsaved⟩
         · exact .inr ⟨rfl, rfl, hfsm⟩⟩

/-- A message of a node with a position to another one. -/
def fromTo (p : Pos) (a : Address) (q : Pos) (b : Address) (body : Body) : NetworkEvent :=
  .deliver ⟨⟨some p, some a⟩, ⟨some q, some b⟩, .plain body⟩

/-- The root and its only child, which then replaces the root. -/
def replacementOfRoot : List NetworkEvent :=
  joinOfTwo ++
  [fromTo ⟨0, 0⟩ 1 ⟨1, 0⟩ 2 (.joinAccept .none ⟨some ⟨0, 0⟩, some 1⟩ []),
   fromTo ⟨1, 0⟩ 2 ⟨0, 0⟩ 1 .joinAcceptAck,
   .leaveNetwork 1,
   fromTo ⟨0, 0⟩ 1 ⟨1, 0⟩ 2
    (.findReplacement ⟨some ⟨0, 0⟩, some 1⟩ .kReplacementNode 1),
   fromTo ⟨1, 0⟩ 2 ⟨0, 0⟩ 1 .signoffParentRequest,
   fromTo ⟨0, 0⟩ 1 ⟨1, 0⟩ 2 (.signoffParentAnswer true),
   fromTo ⟨1, 0⟩ 2 ⟨0, 0⟩ 1 (.updateNeighbors [(.none, .kAdjacentLeft)] true),
   fromTo ⟨0, 0⟩ 1 ⟨1, 0⟩ 2 .removeNeighborAck]

end Sola.Minhton
