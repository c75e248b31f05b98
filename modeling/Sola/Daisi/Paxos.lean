import Mathlib.Data.Multiset.Count
import Sola.Daisi.RouteCalculation
import Sola.Lib.Action
import Sola.Lib.Transitions
import Sola.Minhton.RoutingCalculations

/-!
Consensus about routes with Paxos
(`daisi/src/path_planning/consensus/paxos/*.cpp`).

Every participant is a proposer and an acceptor on the same container.  A
message is published to all other participants.  A step of the network lets a
participant start a proposal, delivers one copy of a published message, or
fires a timeout.  Nobody catches exceptions, so a participant that throws has
failed and handles nothing any more.  A failed assertion counts as an
exception.

The times of the simulator are arguments of the calls.  The list of finally
accepted data keeps, next to the data, the proposal it was taken from.
-/

namespace Sola.Daisi

open Sola.Lib Action RouteCalculationHelper
open Sola.Minhton (u32 u32Pred)

/-! ### Data -/

/-- The settings of all participants and the intersections of the scenario. -/
structure PaxosSettings where
  numberPaxosParticipants : ℕ
  timeDeltaIntersections : ℚ
  maxPreplanningTime : ℚ
  allIntersections : List Intersection

/-- `UINT32_MAX`. -/
def uint32Max : ℕ := 2 ^ 32 - 1

/-- The difference of two values of type `uint32_t`. -/
def u32Sub (a b : ℕ) : ℕ := if b ≤ a then a - b else 2 ^ 32 - (b - a)

/-- The order of pairs of a proposal id and a station id. -/
def newer (a b : ℕ × ℕ) : Bool := b.1 < a.1 || (b.1 = a.1 && b.2 < a.2)

structure PrepareMessage where
  instanceId : ℕ
  prepareId : ℕ
  stationId : ℕ
deriving DecidableEq

structure PromiseMessage where
  instanceId : ℕ
  prepareId : ℕ
  stationId : ℕ
  alreadyAccepted : Bool
  acceptedPrepareId : ℕ
  acceptedStationId : ℕ
deriving DecidableEq

structure AcceptMessage where
  instanceId : ℕ
  proposalId : ℕ
  stationId : ℕ
  intersections : List (Intersection × ℚ)
deriving DecidableEq

structure OKMessage where
  instanceId : ℕ
  proposalId : ℕ
  stationId : ℕ
  senderStation : ℕ
deriving DecidableEq

structure ResponseMessage where
  instanceId : ℕ
  proposalId : ℕ
  stationId : ℕ
deriving DecidableEq

inductive PaxosMessage
  | prepare (msg : PrepareMessage)
  | promise (msg : PromiseMessage)
  | ok (msg : OKMessage)
  | accept (msg : AcceptMessage)
  | response (msg : ResponseMessage)
deriving DecidableEq

structure AcceptedProposal where
  instanceId : ℕ
  proposalId : ℕ
  stationId : ℕ
  data : List (Intersection × ℚ)
deriving DecidableEq

namespace AcceptedProposal

/-- The default object `AcceptedProposal{}`. -/
def none : AcceptedProposal := ⟨0, 0, 0, []⟩

def initialized (proposal : AcceptedProposal) : Bool := !proposal.data.isEmpty

end AcceptedProposal

/-- A proposal of the participant itself.  The two callbacks belong to one call
of `findConsensus`. -/
structure Proposal where
  points : PointTimePairs
  startTime : ℚ
  instanceId : ℕ
  proposalId : ℕ
  neededForQuorum : ℕ
  outstandingOks : ℕ
  timeoutEvent : Option ℕ
  call : Option ℕ
deriving DecidableEq

namespace Proposal

/-- The default object `Proposal{}`. -/
def none : Proposal := ⟨[], 0, 0, 0, 0, 0, .none, .none⟩

def initialized (proposal : Proposal) : Bool := !proposal.points.isEmpty

end Proposal

/-- Data of OK messages with a count how often they were received. -/
structure AlreadyReceivedOKS where
  instanceId : ℕ
  proposalId : ℕ
  station : ℕ
  alreadyReceived : ℕ
deriving DecidableEq

/-- The container, the proposer and the acceptor of a station. -/
structure Participant where
  nodeId : ℕ
  instanceToPromised : ℕ → Option (ℕ × ℕ)
  acceptedDataCurrentInstance : AcceptedProposal
  finallyAcceptedData : List AcceptedProposal
  agreedData : IntersectionOccupancy
  remainingResponses : ℕ
  currentProposal : Proposal
  instanceToProposalId : ℕ → ℕ
  currentAcceptedInstance : ℕ
  currentAcceptedProposalId : ℕ
  currentAcceptedStation : ℕ
  remainingOks : ℕ
  alreadyReceived : List AlreadyReceivedOKS
  /-- The timeouts that the simulator has scheduled: event and proposal id. -/
  timeouts : List (ℕ × ℕ)
  nextEvent : ℕ

/-- A participant before its first message. -/
def Participant.init (nodeId : ℕ) : Participant where
  nodeId := nodeId
  instanceToPromised := fun _ => none
  acceptedDataCurrentInstance := .none
  finallyAcceptedData := []
  agreedData := fun _ => none
  remainingResponses := 0
  currentProposal := .none
  instanceToProposalId := fun _ => 0
  currentAcceptedInstance := uint32Max
  currentAcceptedProposalId := uint32Max
  currentAcceptedStation := uint32Max
  remainingOks := 0
  alreadyReceived := []
  timeouts := []
  nextEvent := 0

/-- A callback that was called: the station, the call of `findConsensus` it
belongs to and the proposal it is about, if there was one. -/
inductive Callback
  | success (station call : ℕ) (proposal : Proposal)
  | fail (station call : ℕ) (proposal : Option Proposal)
deriving DecidableEq

def Callback.call : Callback → ℕ
  | .success _ call _ => call
  | .fail _ call _ => call

/-- What happens while a participant handles an event. -/
structure PaxosActivity where
  participant : Participant
  published : List PaxosMessage
  callbacks : List Callback

abbrev PaxosHandler (α : Type) : Type := Action PaxosActivity α

section Primitives

def getParticipant : PaxosHandler Participant := do
  let activity ← Action.get
  return activity.participant

def modifyParticipant (f : Participant → Participant) : PaxosHandler Unit :=
  Action.modify fun activity => { activity with participant := f activity.participant }

def publishMessage (msg : PaxosMessage) : PaxosHandler Unit :=
  Action.modify fun activity => { activity with published := activity.published ++ [msg] }

def callBack (callback : Callback) : PaxosHandler Unit :=
  Action.modify fun activity => { activity with callbacks := activity.callbacks ++ [callback] }

/-- `DAISI_CHECK` and `assert`. -/
def check (condition : Bool) (msg : String) : PaxosHandler Unit :=
  if condition then pure () else Action.throw msg

/-- Schedule `prepareTimeout(proposalId)`; the result is the event. -/
def schedule (proposalId : ℕ) : PaxosHandler ℕ := do
  let p ← getParticipant
  modifyParticipant fun p =>
    { p with timeouts := p.timeouts ++ [(p.nextEvent, proposalId)], nextEvent := p.nextEvent + 1 }
  return p.nextEvent

def cancel (event : Option ℕ) : PaxosHandler Unit :=
  modifyParticipant fun p => { p with timeouts := p.timeouts.filter fun e => some e.1 ≠ event }

/-- `instance_to_promised[instance]`, which inserts a pair of zeros. -/
def promisedFor (instanceId : ℕ) : PaxosHandler (ℕ × ℕ) := do
  let p ← getParticipant
  let promised := (p.instanceToPromised instanceId).getD (0, 0)
  modifyParticipant fun p =>
    { p with instanceToPromised := Function.update p.instanceToPromised instanceId (some promised) }
  return promised

/-- Whether the pair is newer than what was promised for the instance. -/
def Participant.canPromise (p : Participant) (instanceId : ℕ) (prepare : ℕ × ℕ) : Bool :=
  match p.instanceToPromised instanceId with
  | none => true
  | some promised => newer prepare promised

def promise (instanceId : ℕ) (prepare : ℕ × ℕ) : PaxosHandler Unit :=
  modifyParticipant fun p =>
    { p with instanceToPromised := Function.update p.instanceToPromised instanceId (some prepare) }

variable {E : PaxosActivity → Prop} {st : PaxosActivity}

@[simp] theorem wp_getParticipant {Q : Participant → PaxosActivity → Prop} :
    wp getParticipant Q E st ↔ Q st.participant st := Iff.rfl

variable {Q : Unit → PaxosActivity → Prop}

@[simp] theorem wp_modifyParticipant (f : Participant → Participant) :
    wp (modifyParticipant f) Q E st ↔
      Q () ⟨f st.participant, st.published, st.callbacks⟩ := Iff.rfl

@[simp] theorem wp_publishMessage (msg : PaxosMessage) :
    wp (publishMessage msg) Q E st ↔
      Q () ⟨st.participant, st.published ++ [msg], st.callbacks⟩ := Iff.rfl

@[simp] theorem wp_callBack (callback : Callback) :
    wp (callBack callback) Q E st ↔
      Q () ⟨st.participant, st.published, st.callbacks ++ [callback]⟩ := Iff.rfl

@[simp] theorem wp_check (condition : Bool) (msg : String) :
    wp (check condition msg) Q E st ↔
      (condition = true → Q () st) ∧ (¬ condition = true → E st) := by
  simp only [check, wp_ite, wp_pure, wp_throw]

@[simp] theorem wp_schedule (proposalId : ℕ) {Q : ℕ → PaxosActivity → Prop} :
    wp (schedule proposalId) Q E st ↔
      Q st.participant.nextEvent
        ⟨{ st.participant with
            timeouts := st.participant.timeouts ++ [(st.participant.nextEvent, proposalId)]
            nextEvent := st.participant.nextEvent + 1 }, st.published, st.callbacks⟩ := Iff.rfl

@[simp] theorem wp_cancel (event : Option ℕ) :
    wp (cancel event) Q E st ↔
      Q () ⟨{ st.participant with
        timeouts := st.participant.timeouts.filter fun e => some e.1 ≠ event },
        st.published, st.callbacks⟩ := Iff.rfl

@[simp] theorem wp_promisedFor (instanceId : ℕ) {Q : ℕ × ℕ → PaxosActivity → Prop} :
    wp (promisedFor instanceId) Q E st ↔
      Q ((st.participant.instanceToPromised instanceId).getD (0, 0))
        ⟨{ st.participant with
            instanceToPromised := Function.update st.participant.instanceToPromised instanceId
              (some ((st.participant.instanceToPromised instanceId).getD (0, 0))) },
          st.published, st.callbacks⟩ := Iff.rfl

@[simp] theorem wp_promise (instanceId : ℕ) (prepare : ℕ × ℕ) :
    wp (promise instanceId prepare) Q E st ↔
      Q () ⟨{ st.participant with
        instanceToPromised :=
          Function.update st.participant.instanceToPromised instanceId (some prepare) },
        st.published, st.callbacks⟩ := Iff.rfl

end Primitives

variable (settings : PaxosSettings)

/-! ### Proposer -/

namespace PaxosProposer

def calculatePossibleStartTime (settings : PaxosSettings) (p : Participant)
    (points : PointTimePairs) (nowMs : ℕ) (secondsTillStart : ℚ) : Except String (Option ℚ) :=
  RouteCalculationHelper.calculatePossibleStartTime points
    ((nowMs + secondsTillStart * 1000) / 1000) settings.maxPreplanningTime
    settings.timeDeltaIntersections p.agreedData

def findConsensus (call : ℕ) (points : PointTimePairs) (nowMs : ℕ) (secondsTillStart : ℚ) :
    PaxosHandler Unit := do
  let p ← getParticipant
  let possibleStart ← Action.lift (calculatePossibleStartTime settings p points nowMs
    secondsTillStart)
  match possibleStart with
  | none => callBack (.fail p.nodeId call none)
  | some start =>
    let instanceId := p.finallyAcceptedData.length
    let proposalId := p.instanceToProposalId instanceId
    modifyParticipant fun p =>
      { p with
        instanceToProposalId :=
          Function.update p.instanceToProposalId instanceId (u32 (proposalId + 1)) }
    let timeoutEvent ← schedule proposalId
    check (!p.currentProposal.initialized)
      "We cannot start a new proposal while one proposal of ourselves is still running"
    modifyParticipant fun p =>
      { p with
        currentProposal :=
          { points := points
            startTime := start
            instanceId := instanceId
            proposalId := proposalId
            neededForQuorum := settings.numberPaxosParticipants - 1
            outstandingOks := settings.numberPaxosParticipants - 1
            timeoutEvent := some timeoutEvent
            call := some call } }
    -- prepare on ourselves; if that is not possible wait for the timeout
    if p.canPromise instanceId (proposalId, p.nodeId) then
      promise instanceId (proposalId, p.nodeId)
      publishMessage (.prepare ⟨instanceId, proposalId, p.nodeId⟩)

/-- Call a callback of the current proposal. -/
def callOfCurrent (callback : ℕ → Callback) : PaxosHandler Unit := do
  let p ← getParticipant
  match p.currentProposal.call with
  | none => Action.throw "bad function call"
  | some call => callBack (callback call)

def resetProposal : PaxosHandler Unit :=
  modifyParticipant fun p => { p with currentProposal := .none }

def prepareTimeout (proposalId : ℕ) : PaxosHandler Unit := do
  let p ← getParticipant
  let current := p.currentProposal
  if !current.initialized ∨ current.proposalId ≠ proposalId then pure ()
  else if current.neededForQuorum ≠ 0 then
    callOfCurrent (.fail p.nodeId · (some current))
    resetProposal
  else if current.outstandingOks ≠ 0 then
    callOfCurrent (.fail p.nodeId · (some current))
    resetProposal

/-- The quorum is complete: store the proposal and ask for acceptance. -/
def startAccept (msg : PromiseMessage) : PaxosHandler Unit := do
  let p ← getParticipant
  let current := p.currentProposal
  cancel current.timeoutEvent
  let timeoutEvent ← schedule current.proposalId
  modifyParticipant fun p =>
    { p with currentProposal := { p.currentProposal with timeoutEvent := some timeoutEvent } }
  let promised ← promisedFor msg.instanceId
  if (msg.prepareId, msg.stationId) ≠ promised then pure ()
  else
    -- the own copy holds times relative to the start
    modifyParticipant fun p =>
      { p with
        acceptedDataCurrentInstance :=
          ⟨current.instanceId, current.proposalId, p.nodeId, current.points⟩
        remainingResponses := settings.numberPaxosParticipants }
    publishMessage (.accept ⟨current.instanceId, current.proposalId, p.nodeId,
      current.points.map fun point => (point.1, point.2 + current.startTime)⟩)

def processPromiseMessage (msg : PromiseMessage) : PaxosHandler Unit := do
  let p ← getParticipant
  if msg.stationId ≠ p.nodeId then pure ()
  else if !p.currentProposal.initialized ∨ p.currentProposal.neededForQuorum = 0 then pure ()
  else
    modifyParticipant fun p =>
      if msg.alreadyAccepted ∧ p.instanceToProposalId msg.instanceId < msg.acceptedPrepareId then
        { p with
          instanceToProposalId := Function.update p.instanceToProposalId msg.instanceId
            (u32 (msg.acceptedPrepareId + 1)) }
      else p
    let needed := p.currentProposal.neededForQuorum - 1
    modifyParticipant fun p =>
      { p with currentProposal := { p.currentProposal with neededForQuorum := needed } }
    if needed = 0 then startAccept settings msg

def processResponseMessage (msg : ResponseMessage) : PaxosHandler Unit := do
  let p ← getParticipant
  if msg.stationId ≠ p.nodeId then pure ()
  else
    let remaining := u32Pred p.remainingResponses
    modifyParticipant fun p => { p with remainingResponses := remaining }
    if remaining = 0 then
      callOfCurrent (.success p.nodeId · p.currentProposal)
      cancel p.currentProposal.timeoutEvent
      resetProposal

/-- Append the current accepted data to the finally accepted data. -/
def pushFinalized : PaxosHandler Unit :=
  modifyParticipant fun p =>
    { p with finallyAcceptedData := p.finallyAcceptedData ++ [p.acceptedDataCurrentInstance] }

def resetAccepted : PaxosHandler Unit :=
  modifyParticipant fun p => { p with acceptedDataCurrentInstance := .none }

/-- Enter a time into the agreed data. -/
def recordAgreed (x : Intersection) (time : ℚ) : PaxosHandler Unit := do
  check (settings.allIntersections.contains x) "Invalid point"
  modifyParticipant fun p => { p with agreedData := p.agreedData.set x time p.nodeId }

def processOKMessage (msg : OKMessage) : PaxosHandler Unit := do
  let p ← getParticipant
  if msg.stationId ≠ p.nodeId then pure ()
  else
    let outstanding := u32Pred p.currentProposal.outstandingOks
    modifyParticipant fun p =>
      { p with currentProposal := { p.currentProposal with outstandingOks := outstanding } }
    if outstanding = 0 then
      processResponseMessage ⟨msg.instanceId, msg.proposalId, msg.stationId⟩
      pushFinalized
      resetAccepted
      -- the response to ourselves may have reset the proposal
      let p ← getParticipant
      Action.forEach p.currentProposal.points fun point =>
        recordAgreed settings point.1 (point.2 + p.currentProposal.startTime)

end PaxosProposer

/-! ### Acceptor -/

namespace PaxosAcceptor

def processPrepareMessage (msg : PrepareMessage) : PaxosHandler Unit := do
  let p ← getParticipant
  if p.canPromise msg.instanceId (msg.prepareId, msg.stationId) then
    promise msg.instanceId (msg.prepareId, msg.stationId)
    let currentInstance := p.finallyAcceptedData.length
    let accepted := p.acceptedDataCurrentInstance
    let answer : PromiseMessage :=
      if currentInstance = msg.instanceId ∧ accepted.initialized then
        ⟨msg.instanceId, msg.prepareId, msg.stationId, true, accepted.proposalId,
          accepted.stationId⟩
      else ⟨msg.instanceId, msg.prepareId, msg.stationId, false, 0, 0⟩
    if currentInstance > msg.instanceId then pure () else publishMessage (.promise answer)

/-- The data of the accepted proposal is final: tell the proposer. -/
def sendResponseMessage : PaxosHandler Unit := do
  PaxosProposer.pushFinalized
  let p ← getParticipant
  check (p.finallyAcceptedData.length - 1 = p.currentAcceptedInstance) "incorrect size"
  PaxosProposer.resetAccepted
  Action.forEach (p.finallyAcceptedData.getLastD .none).data fun point =>
    PaxosProposer.recordAgreed settings point.1 point.2
  promise p.currentAcceptedInstance (uint32Max, uint32Max)
  modifyParticipant fun p =>
    { p with
      currentAcceptedInstance := uint32Max
      currentAcceptedProposalId := uint32Max
      currentAcceptedStation := uint32Max }
  publishMessage (.response ⟨p.currentAcceptedInstance, p.currentAcceptedProposalId,
    p.currentAcceptedStation⟩)

/-- The entry is for the OK messages of this proposal. -/
def AlreadyReceivedOKS.isFor (ok : AlreadyReceivedOKS) (instanceId proposalId stationId : ℕ) :
    Bool :=
  ok.proposalId = proposalId && ok.instanceId = instanceId && ok.station = stationId

def processAcceptMessage (msg : AcceptMessage) : PaxosHandler Unit := do
  let promised ← promisedFor msg.instanceId
  if (msg.proposalId, msg.stationId) ≠ promised then pure ()
  else
    check (!msg.intersections.isEmpty) "assertion failed"
    let p ← getParticipant
    let received := p.alreadyReceived.find?
      (AlreadyReceivedOKS.isFor · msg.instanceId msg.proposalId msg.stationId)
    let remaining := u32Sub (settings.numberPaxosParticipants - 2)
      ((received.map (·.alreadyReceived)).getD 0)
    modifyParticipant fun p =>
      { p with
        acceptedDataCurrentInstance :=
          ⟨msg.instanceId, msg.proposalId, msg.stationId, msg.intersections⟩
        currentAcceptedInstance := msg.instanceId
        currentAcceptedProposalId := msg.proposalId
        currentAcceptedStation := msg.stationId
        remainingOks := remaining
        alreadyReceived := p.alreadyReceived.eraseP
          (AlreadyReceivedOKS.isFor · msg.instanceId msg.proposalId msg.stationId) }
    publishMessage (.ok ⟨msg.instanceId, msg.proposalId, msg.stationId, p.nodeId⟩)
    if remaining = 0 then sendResponseMessage settings

/-- Count an OK message for a proposal that is not the accepted one. -/
def saveOK (msg : OKMessage) : PaxosHandler Unit := do
  let p ← getParticipant
  match p.alreadyReceived.find?
      (AlreadyReceivedOKS.isFor · msg.instanceId msg.proposalId msg.stationId) with
  | some entry =>
    modifyParticipant fun p =>
      { p with
        alreadyReceived := p.alreadyReceived.replaceF fun ok =>
          if AlreadyReceivedOKS.isFor ok msg.instanceId msg.proposalId msg.stationId then
            some { ok with alreadyReceived := ok.alreadyReceived + 1 }
          else none }
    check (entry.alreadyReceived + 1 ≤ 6) "assertion failed"
  | none =>
    modifyParticipant fun p =>
      { p with
        alreadyReceived := p.alreadyReceived ++
          [⟨msg.instanceId, msg.proposalId, msg.stationId, 1⟩] }

def processOKMessage (msg : OKMessage) : PaxosHandler Unit := do
  let p ← getParticipant
  let accepted := p.acceptedDataCurrentInstance
  if msg.stationId = p.nodeId then pure ()
  else if !accepted.initialized ∨ accepted.instanceId ≠ msg.instanceId ∨
      accepted.proposalId ≠ msg.proposalId ∨ accepted.stationId ≠ msg.stationId then
    saveOK msg
  else if msg.instanceId ≠ p.currentAcceptedInstance ∨
      msg.proposalId ≠ p.currentAcceptedProposalId ∨
      msg.stationId ≠ p.currentAcceptedStation then
    Action.throw "values not equal"
  else
    let remaining := u32Pred p.remainingOks
    modifyParticipant fun p => { p with remainingOks := remaining }
    if remaining = 0 then sendResponseMessage settings

end PaxosAcceptor

/-- `processPaxosMessage`. -/
def processPaxosMessage : PaxosMessage → PaxosHandler Unit
  | .prepare msg => PaxosAcceptor.processPrepareMessage msg
  | .accept msg => PaxosAcceptor.processAcceptMessage settings msg
  | .promise msg => PaxosProposer.processPromiseMessage settings msg
  | .response msg => PaxosProposer.processResponseMessage msg
  | .ok msg => do
      PaxosProposer.processOKMessage settings msg
      PaxosAcceptor.processOKMessage settings msg

/-! ### The network -/

/-- All participants, the copies of messages in flight with their receivers,
and the callbacks called so far.  Calls of `findConsensus` are numbered. -/
structure PaxosNetwork where
  participants : ℕ → Participant
  failed : ℕ → Bool
  inFlight : Multiset (ℕ × PaxosMessage)
  callbacks : List Callback
  nextCall : ℕ

inductive PaxosEvent
  | propose (station : ℕ) (points : PointTimePairs) (nowMs : ℕ) (secondsTillStart : ℚ)
  | deliver (receiver : ℕ) (msg : PaxosMessage)
  | timeout (station event proposalId : ℕ)

namespace PaxosNetwork

def init : PaxosNetwork := ⟨Participant.init, fun _ => false, 0, [], 0⟩

/-- The copies of a message from `sender` for all other participants. -/
def copies (n sender : ℕ) (msg : PaxosMessage) : List (ℕ × PaxosMessage) :=
  ((List.range n).filter (· ≠ sender)).map (·, msg)

/-- Let a participant act. -/
def act (s : PaxosNetwork) (station : ℕ) (handler : PaxosHandler Unit) : PaxosNetwork :=
  if s.failed station then s
  else
    let result := handler ⟨s.participants station, [], []⟩
    { s with
      participants := Function.update s.participants station result.1.participant
      failed := match result.2 with
        | .ok _ => s.failed
        | .error _ => Function.update s.failed station true
      inFlight := s.inFlight +
        result.1.published.flatMap (copies settings.numberPaxosParticipants station)
      callbacks := s.callbacks ++ result.1.callbacks }

/-- An event that can happen in the state. -/
def step (s : PaxosNetwork) : PaxosEvent → Option PaxosNetwork
  | .propose station points nowMs secondsTillStart =>
    if station < settings.numberPaxosParticipants then
      some (act settings { s with nextCall := s.nextCall + 1 } station
        (PaxosProposer.findConsensus settings s.nextCall points nowMs secondsTillStart))
    else none
  | .deliver receiver msg =>
    if (receiver, msg) ∈ s.inFlight then
      some (act settings { s with inFlight := s.inFlight.erase (receiver, msg) } receiver
        (processPaxosMessage settings msg))
    else none
  | .timeout station event proposalId =>
    if (event, proposalId) ∈ (s.participants station).timeouts then
      some (act settings s station do
        modifyParticipant fun p =>
          { p with timeouts := p.timeouts.erase (event, proposalId) }
        PaxosProposer.prepareTimeout proposalId)
    else none

/-- A step with an event that meets the condition `C`. -/
def Step (C : PaxosNetwork → PaxosEvent → Prop) (s s' : PaxosNetwork) : Prop :=
  ∃ e, C s e ∧ s.step settings e = some s'

/-- The states that can be reached by events that meet the condition `C`. -/
def Reachable (C : PaxosNetwork → PaxosEvent → Prop) (s : PaxosNetwork) : Prop :=
  Relation.ReflTransGen (Step settings C) init s

/-- A run of events shows that a state with a property can be reached. -/
theorem exists_reachable_of_run (settings : PaxosSettings)
    {C : PaxosNetwork → PaxosEvent → Prop} [∀ s e, Decidable (C s e)] (es : List PaxosEvent)
    {P : PaxosNetwork → Prop} [DecidablePred P]
    (h : (Transitions.run (step settings) C init es).any (fun s => P s) = true) :
    ∃ s, Reachable settings C s ∧ P s :=
  Transitions.exists_reachable_of_run es h

end PaxosNetwork

end Sola.Daisi
