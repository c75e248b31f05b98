import Sola.Lib.Action
import Sola.Minhton.BooleanExpression
import Sola.Minhton.CoverAreas
import Sola.Minhton.SlotOperations

/-!
The handler of directory service nodes
(`minhton/src/algorithms/esearch/dsn_handler.cpp`).

A DSN keeps what it knows about the nodes of its cover area.  The handler is
told about every change of a slot of the routing information and about every
change of the own position.  Its maps have positions as keys: `0:0`, which
the default `LogicalNodeInfo` shares with the root, is in no cover area.
-/

namespace Sola.Minhton

open Sola.Lib Action Sola.Lib.MaryTree Option

/-! ### What the routing information tells about DSNs -/

namespace RoutingInformation

variable (m : ℕ) (ri : RoutingInformation)

/-- The deeper of two adjacents, the second one if they are on one level. -/
def lowestAdjacent : NodeInfo :=
  let lowest := if ri.adjacentLeft.isInitialized then ri.adjacentLeft else .none
  if ri.adjacentRight.isInitialized then
    if !lowest.isInitialized || ri.adjacentRight.level ≥ lowest.level then ri.adjacentRight
    else lowest
  else lowest

def getLowestNode : NodeInfo :=
  let lowest := ri.lowestAdjacent
  if lowest.isInitialized && ri.selfNodeInfo.isValidPeer &&
      lowest.level > ri.selfNodeInfo.level then lowest
  else
    ((ri.leftNeighborChildren m).reverse ++ ri.rightNeighborChildren m ++ ri.children ++
      ri.leftNeighbors.reverse ++ ri.rightNeighbors).find? (·.isInitialized) |>.getD .none

def areWeDSN : Except String Bool := do
  let dsnSet ← getDSNSet m ri.selfNodeInfo.level
  return dsnSet.contains ri.selfNodeInfo.number

/-- A child position is that of a DSN which is missing, and somebody is on
the level of the children. -/
def areWeTempDSN : Except String Bool := do
  if (← ri.areWeDSN m) then return false
  else
    let dsnSet ← getDSNSet m (ri.selfNodeInfo.level + 1)
    return ri.children.any fun child =>
      dsnSet.contains child.number && !child.isInitialized &&
        (ri.getLowestNode m).level > ri.selfNodeInfo.level

def getNextDSN : Except String NodeInfo := do
  let dsnSet ← getDSNSet m ri.selfNodeInfo.level
  match dsnSet.dropWhile (· < ri.selfNodeInfo.number) with
  | [] => .error "We are not a DSN. This method should not be called"
  | [_] => return .none
  | _ :: next :: _ => ri.getNodeInfoByPosition m ⟨ri.selfNodeInfo.level, next⟩

def getChild (position : ℕ) : Except String NodeInfo :=
  if !ri.selfNodeInfo.isValidPeer then
    .error "Cannot get Child for uninitialized RoutingInformation."
  else if position ≥ m then .error "Position not in range"
  else .ok (ri.children.getD position .none)

end RoutingInformation

/-! ### What is known about a node -/

/-- The attributes of another node, its address and the times of the last
updates of an attribute. -/
structure DistributedData where
  physical : Option Address
  data : Text → Option (NodeData.Value × ℕ × NodeData.ValueType)
  updateTimestamps : Text → Option (List ℕ)

namespace DistributedData

def timestampStorageLimit : ℕ := 5

def ofPhysical (physical : Option Address) : DistributedData :=
  ⟨physical, fun _ => none, fun _ => none⟩

/-- `NodeData::update`, with the answer whether the key is known. -/
def updateData (key : Text) (value : NodeData.Value) (timestamp : ℕ)
    (type : NodeData.ValueType) : Action DistributedData Bool := do
  let d ← Action.get
  match d.data key with
  | none => return false
  | some (oldValue, _, oldType) =>
    if oldType ≠ type then Action.throw "value types need to stay the same"
    else if oldType = .kValueStatic then
      if oldValue = value then return true
      else Action.throw "static values cannot get updated"
    else
      Action.modify fun d =>
        { d with data := Function.update d.data key (some (value, timestamp, type)) }
      return true

/-- The second part of `update`, for a key whose value is up to date. -/
def pushTimestamp (key : Text) (timestamp : ℕ) : Action DistributedData Bool := do
  let d ← Action.get
  match d.updateTimestamps key with
  | none => return false
  | some timestamps =>
    if timestamps.getLastD 0 > timestamp then
      Action.throw "The new update timestamp cannot be from earlier"
    else
      let pushed := timestamps ++ [timestamp]
      let kept := if pushed.length > timestampStorageLimit then pushed.tail else pushed
      Action.modify fun d =>
        { d with updateTimestamps := Function.update d.updateTimestamps key (some kept) }
      return true

def update (key : Text) (value : NodeData.Value) (timestamp : ℕ)
    (type : NodeData.ValueType) : Action DistributedData Bool := do
  let dataUpdated ← updateData key value timestamp type
  if !dataUpdated then return false
  else pushTimestamp key timestamp

/-- `try_emplace` keeps an entry that is there. -/
def insert (key : Text) (value : NodeData.Value) (timestamp : ℕ)
    (type : NodeData.ValueType) : Action DistributedData Bool := do
  let d ← Action.get
  let dataInserted := (d.data key).isNone
  let updateInserted := (d.updateTimestamps key).isNone
  if dataInserted then
    Action.modify fun d =>
      { d with data := Function.update d.data key (some (value, timestamp, type)) }
  if updateInserted then
    Action.modify fun d =>
      { d with updateTimestamps := Function.update d.updateTimestamps key (some [timestamp]) }
  return dataInserted && updateInserted

def remove (d : DistributedData) (key : Text) : DistributedData :=
  { d with
    data := Function.update d.data key none
    updateTimestamps := Function.update d.updateTimestamps key none }

/-- Update a known attribute or insert a new one. -/
def store (timestamp : ℕ) (entry : Text × NodeData.Value × NodeData.ValueType) :
    Action DistributedData Unit := do
  let (key, value, type) := entry
  let updated ← update key value timestamp type
  if updated then return
  else
    let inserted ← insert key value timestamp type
    if inserted then return else Action.throw "something has gone wrong"

end DistributedData

/-! ### The handler -/

structure DsnHandler where
  isActive : Bool
  wasPreviouslyActive : Bool
  coverAreaPositions : List Pos
  coverData : Pos → Option DistributedData
  extendedCoverAreaPositions : List Pos
  extendedCoverData : Pos → Option DistributedData

/-- A node with its handler.  `inquiries` are the nodes that were asked for
their attributes, `clock` is the time of `get_timestamp`.  No function reads
the last two fields: `reports` are the values that nodes have sent so far, and
`handlerFailed` tells whether a call of the handler has thrown. -/
structure DsnNode where
  routingInfo : RoutingInformation
  handler : DsnHandler
  inquiries : List NodeInfo
  clock : ℕ
  reports : List (Option Address × Text × NodeData.Value)
  handlerFailed : Bool

namespace DsnNode

variable (m : ℕ)

def onHandler (f : DsnHandler → DsnHandler) : Action DsnNode Unit :=
  Action.modify fun s => { s with handler := f s.handler }

/-- The positions without the first occurrence of each key. -/
def withoutKeys (isKey : Pos → Bool) : List Pos → List Pos
  | [] => []
  | p :: ps =>
    if isKey p then withoutKeys (Function.update isKey p false) ps
    else p :: withoutKeys isKey ps

/-- Enter the nodes that the routing information knows at the positions. -/
def enterKnown (m : ℕ) (ri : RoutingInformation) (data : Pos → Option DistributedData) :
    List Pos → Except String (Pos → Option DistributedData)
  | [] => .ok data
  | p :: ps => do
      let node ← ri.getNodeInfoByPosition m p
      let data :=
        if node.isInitialized then
          Function.update data node.pos (some (.ofPhysical node.physical))
        else data
      enterKnown m ri data ps

def buildCoverArea : Action DsnNode Unit := do
  let s ← Action.get
  let area ← Action.lift (getCoverArea m s.routingInfo.selfNodeInfo.pos)
  let kept := fun p => if p ∈ area then s.handler.coverData p else none
  onHandler fun h => { h with coverAreaPositions := area, coverData := kept }
  let missing := withoutKeys (fun p => (kept p).isSome) area
  let data ← Action.lift (enterKnown m s.routingInfo kept missing)
  onHandler fun h => { h with coverData := data }

/-- `v.erase(std::remove_if(v.begin(), v.end(), pred))`.  The elements that
stay are moved to the front.  The vector keeps its length, with the old
elements behind them, and a single element is erased there. -/
def eraseRemoveIf (pred : Pos → Bool) (positions : List Pos) : List Pos :=
  let kept := positions.filter fun p => !pred p
  kept ++ positions.drop (kept.length + 1)

def buildTempCoverArea : Action DsnNode Unit := do
  let s ← Action.get
  let firstChild ← Action.lift (s.routingInfo.getChild m 0)
  let dsn ← Action.lift (getCoveringDSN m firstChild.pos)
  let area ← Action.lift (getCoverArea m dsn)
  let positions := eraseRemoveIf (fun p => p.level ≠ firstChild.level) area
  onHandler fun h => { h with coverAreaPositions := positions }
  let data ← Action.lift (enterKnown m s.routingInfo s.handler.coverData positions)
  onHandler fun h => { h with coverData := data }

def buildExtendedCoverArea : Action DsnNode Unit := do
  let s ← Action.get
  let next ← Action.lift (s.routingInfo.getNextDSN m)
  if !next.isInitialized then return
  else
    let area ← Action.lift (getCoverArea m next.pos)
    let positions := eraseRemoveIf
      (fun p => p.level ≠ next.level && p.number ≥ next.number) area
    onHandler fun h => { h with extendedCoverAreaPositions := positions }
    let data ← Action.lift (enterKnown m s.routingInfo s.handler.extendedCoverData positions)
    onHandler fun h => { h with extendedCoverData := data }

/-- Forget what was known. -/
def clearData : Action DsnNode Unit :=
  onHandler fun h => { h with coverData := fun _ => none, extendedCoverData := fun _ => none }

/-- The part of `checkPosition` for a node that is a DSN. -/
def updateDsn : Action DsnNode Unit := do
  buildCoverArea m
  let s ← Action.get
  let next ← Action.lift (s.routingInfo.getNextDSN m)
  if !next.isInitialized then buildExtendedCoverArea m
  else onHandler fun h => { h with extendedCoverData := fun _ => none }

def checkPosition : Action DsnNode Unit := do
  onHandler fun h => { h with isActive := false }
  let s ← Action.get
  if !s.routingInfo.selfNodeInfo.isInitialized then clearData
  else
    let weAreDsn ← Action.lift (s.routingInfo.areWeDSN m)
    let weAreTempDsn ← Action.lift (s.routingInfo.areWeTempDSN m)
    if !weAreDsn && !weAreTempDsn then clearData
    else if weAreDsn && weAreTempDsn then
      Action.throw "We cannot be a dsn and temp dsn at the same time."
    else
      onHandler fun h => { h with isActive := true }
      if s.handler.wasPreviouslyActive then return
      else if weAreDsn then updateDsn m
      else buildTempCoverArea m

def isActive (m : ℕ) : Action DsnNode Bool := do
  onHandler fun h => { h with wasPreviouslyActive := h.isActive }
  checkPosition m
  let s ← Action.get
  return s.handler.isActive

/-- The constructor of the handler. -/
def construct : Action DsnNode Unit := do
  checkPosition m
  onHandler fun h => { h with isActive := false }

def requestAttributeInformation (peer : Pos) (data : DistributedData) : Action DsnNode Unit :=
  if data.physical.isSome then
    Action.modify fun s => { s with inquiries := s.inquiries ++ [⟨some peer, data.physical⟩] }
  else pure ()

/-- What a change of a slot means for the data of its position. -/
def updateCoverData (neighbor : NodeInfo) : Action DsnNode Unit := do
  let s ← Action.get
  let p := neighbor.pos
  match s.handler.coverData p, neighbor.physical with
  | some _, none =>
    onHandler fun h => { h with coverData := Function.update h.coverData p none }
  | some data, some address =>
    if data.physical ≠ some address then
      onHandler fun h => { h with
        coverData := Function.update h.coverData p
          (some { data with physical := some address }) }
    else pure ()
  | none, some address =>
    let data := DistributedData.ofPhysical (some address)
    onHandler fun h => { h with coverData := Function.update h.coverData p (some data) }
    requestAttributeInformation p data
  | none, none => pure ()

def onNeighborChangeNotification (neighbor : NodeInfo) : Action DsnNode Unit := do
  let active ← isActive m
  if !active then return
  else
    let s ← Action.get
    if s.handler.coverAreaPositions.contains neighbor.pos then updateCoverData neighbor
    else return

/-- The nodes with data, in some order of the cover area. -/
def coveredPeers (s : DsnNode) : List (Pos × DistributedData) :=
  s.handler.coverAreaPositions.filterMap fun p => (s.handler.coverData p).map (Prod.mk p)

def onNodeInfoChangeNotification : Action DsnNode Unit := do
  let active ← isActive m
  let s ← Action.get
  if active && !s.handler.wasPreviouslyActive then
    Action.forEach (coveredPeers s) fun peer => requestAttributeInformation peer.1 peer.2
  else return

/-- The map in which a node is found: the cover data or the extended one. -/
inductive CoverMap
  | cover
  | extended

def lookup (s : DsnNode) (node : NodeInfo) : Option (CoverMap × Pos × DistributedData) :=
  node.logical.bind fun p =>
    match s.handler.coverData p, s.handler.extendedCoverData p with
    | some data, _ => some (.cover, p, data)
    | none, some data => some (.extended, p, data)
    | none, none => none

def setData (map : CoverMap) (p : Pos) (data : DistributedData) : Action DsnNode Unit :=
  match map with
  | .cover => onHandler fun h => { h with coverData := Function.update h.coverData p (some data) }
  | .extended => onHandler fun h =>
    { h with extendedCoverData := Function.update h.extendedCoverData p (some data) }

def updateInquiredOrSubscribedAttributeValues (node : NodeInfo)
    (attributes : List (Text × NodeData.Value × NodeData.ValueType)) :
    Action DsnNode Unit := do
  let s ← Action.get
  match lookup s node with
  | none => return
  | some (map, p, data) =>
    if data.physical ≠ node.physical ∧ ¬ (data.physical = none ∧ node.physical.isSome) then
      Action.throw "something has gone wrong"
    else
      let result := Action.forEach attributes (DistributedData.store s.clock)
        { data with physical := node.physical }
      setData map p result.1
      Action.lift result.2

def updateRemovedAttributes (node : NodeInfo) (removedKeys : List Text) :
    Action DsnNode Unit := do
  let s ← Action.get
  match node.logical.bind s.handler.coverData with
  | none => Action.throw "something has gone wrong"
  | some data =>
    if data.physical ≠ node.physical then Action.throw "something has gone wrong"
    else setData .cover node.pos (removedKeys.foldl DistributedData.remove data)

/-! ### The messages -/

def processAttributeInquiryAnswer (inquired : NodeInfo)
    (attributes : List (Text × NodeData.Value × NodeData.ValueType))
    (removedKeys : List Text) : Action DsnNode Unit := do
  updateInquiredOrSubscribedAttributeValues inquired attributes
  if !removedKeys.isEmpty then updateRemovedAttributes inquired removedKeys

def processSubscriptionUpdate (sender : NodeInfo) (key : Text) (value : NodeData.Value) :
    Action DsnNode Unit :=
  updateInquiredOrSubscribedAttributeValues sender [(key, value, .kValueDynamic)]

/-! ### Runs -/

/-- A call of the handler. -/
def call (x : Action DsnNode Unit) : Action DsnNode Unit := fun s =>
  match x s with
  | (s', .ok _) => (s', .ok ())
  | (s', .error e) => ({ s' with handlerFailed := true }, .error e)

/-- `notifyNodeInfoChange`: nothing is reported if nothing has changed. -/
def notifyNodeInfoChange (previous : NodeInfo) : Action DsnNode Unit := do
  let s ← Action.get
  if previous = s.routingInfo.selfNodeInfo then return
  else call (onNodeInfoChangeNotification m)

def setRoutingInfo (ri : RoutingInformation) : Action DsnNode Unit :=
  Action.modify fun s => { s with routingInfo := ri }

/-- An operation on a slot and the call of the handler that follows it. -/
def performOperation (op : SlotOperation) : Action DsnNode Unit := do
  let s ← Action.get
  let ri ← Action.lift (op.perform m s.routingInfo)
  setRoutingInfo ri
  match op.report m s.routingInfo with
  | none => return
  | some neighbor => call (onNeighborChangeNotification m neighbor)

def addReports (sender : NodeInfo)
    (attributes : List (Text × NodeData.Value × NodeData.ValueType)) : Action DsnNode Unit :=
  Action.modify fun s => { s with
    reports := s.reports ++ attributes.map fun a => (sender.physical, a.1, a.2.1) }

inductive Event
  | setPosition (position : Pos)
  | resetPosition
  | change (op : SlotOperation)
  | queryActive
  | tick (time : ℕ)
  | attributeInquiryAnswer (inquired : NodeInfo)
      (attributes : List (Text × NodeData.Value × NodeData.ValueType)) (removedKeys : List Text)
  | subscriptionUpdate (sender : NodeInfo) (key : Text) (value : NodeData.Value)

/-- A run is not followed beyond a position whose tables cannot be set up. -/
def step (s : DsnNode) : Event → Option DsnNode
  | .setPosition position =>
    match s.routingInfo.setPosition m position with
    | .error _ => none
    | .ok ri =>
      some (notifyNodeInfoChange m s.routingInfo.selfNodeInfo { s with routingInfo := ri }).1
  | .resetPosition =>
    some (notifyNodeInfoChange m s.routingInfo.selfNodeInfo
      { s with routingInfo := s.routingInfo.resetPosition }).1
  | .change op => some (performOperation m op s).1
  | .queryActive => some (call (do let _ ← isActive m; return) s).1
  | .tick time => some { s with clock := s.clock + time }
  | .attributeInquiryAnswer inquired attributes removedKeys =>
    some ((do
      addReports inquired attributes
      call (processAttributeInquiryAnswer inquired attributes removedKeys) :
        Action DsnNode Unit) s).1
  | .subscriptionUpdate sender key value =>
    some ((do
      addReports sender [(key, value, .kValueDynamic)]
      call (processSubscriptionUpdate sender key value) : Action DsnNode Unit) s).1

/-- A node whose handler is constructed. -/
def start (ri : RoutingInformation) : DsnNode :=
  (construct m {
    routingInfo := ri
    handler := ⟨false, false, [], fun _ => none, [], fun _ => none⟩
    inquiries := []
    clock := 0
    reports := []
    handlerFailed := false }).1

/-- A node starts without a position or as the root. -/
def IsStart (s : DsnNode) : Prop :=
  ∃ address, s = start m (.unconnected address) ∨
    ∃ ri, RoutingInformation.init m ⟨0, 0⟩ (some address) = .ok ri ∧ s = start m ri

/-! ### The handler reads the routing information only -/

theorem keeps_onHandler (f : DsnHandler → DsnHandler) :
    Keeps DsnNode.routingInfo (onHandler f) :=
  keeps_modify fun _ => rfl

theorem keeps_buildCoverArea : Keeps DsnNode.routingInfo (buildCoverArea m) :=
  keeps_get.bind fun _ => (keeps_lift _).bind fun _ =>
    (keeps_onHandler _).bind fun _ => (keeps_lift _).bind fun _ => keeps_onHandler _

theorem keeps_buildTempCoverArea : Keeps DsnNode.routingInfo (buildTempCoverArea m) :=
  keeps_get.bind fun _ => (keeps_lift _).bind fun _ =>
    (keeps_lift _).bind fun _ => (keeps_lift _).bind fun _ =>
      (keeps_onHandler _).bind fun _ => (keeps_lift _).bind fun _ => keeps_onHandler _

theorem keeps_buildExtendedCoverArea : Keeps DsnNode.routingInfo (buildExtendedCoverArea m) :=
  keeps_get.bind fun _ => (keeps_lift _).bind fun _ =>
    (keeps_pure _).ite ((keeps_lift _).bind fun _ =>
      (keeps_onHandler _).bind fun _ => (keeps_lift _).bind fun _ => keeps_onHandler _)

theorem keeps_updateDsn : Keeps DsnNode.routingInfo (updateDsn m) :=
  (keeps_buildCoverArea m).bind fun _ => keeps_get.bind fun _ =>
    (keeps_lift _).bind fun _ =>
      (keeps_buildExtendedCoverArea m).ite (keeps_onHandler _)

theorem keeps_checkPosition : Keeps DsnNode.routingInfo (checkPosition m) :=
  (keeps_onHandler _).bind fun _ => keeps_get.bind fun _ =>
    (keeps_onHandler _).ite ((keeps_lift _).bind fun _ => (keeps_lift _).bind fun _ =>
      (keeps_onHandler _).ite ((keeps_throw _).ite ((keeps_onHandler _).bind fun _ =>
        (keeps_pure _).ite ((keeps_updateDsn m).ite (keeps_buildTempCoverArea m)))))

theorem keeps_isActive : Keeps DsnNode.routingInfo (isActive m) :=
  (keeps_onHandler _).bind fun _ => (keeps_checkPosition m).bind fun _ =>
    keeps_get.bind fun _ => keeps_pure _

theorem keeps_requestAttributeInformation (peer : Pos) (data : DistributedData) :
    Keeps DsnNode.routingInfo (requestAttributeInformation peer data) := by
  unfold requestAttributeInformation
  exact Keeps.ite (fun _ => rfl) (keeps_pure _)

theorem keeps_updateCoverData (n : NodeInfo) :
    Keeps DsnNode.routingInfo (updateCoverData n) := by
  refine keeps_get.bind fun s => ?_
  simp only
  split
  · exact keeps_onHandler _
  · exact (keeps_onHandler _).ite (keeps_pure _)
  · exact (keeps_onHandler _).bind fun _ => keeps_requestAttributeInformation _ _
  · exact keeps_pure _

theorem keeps_onNeighborChangeNotification (n : NodeInfo) :
    Keeps DsnNode.routingInfo (onNeighborChangeNotification m n) :=
  (keeps_isActive m).bind fun _ => (keeps_pure _).ite
    (keeps_get.bind fun _ => (keeps_updateCoverData n).ite (keeps_pure _))

theorem keeps_onNodeInfoChangeNotification :
    Keeps DsnNode.routingInfo (onNodeInfoChangeNotification m) :=
  (keeps_isActive m).bind fun _ => keeps_get.bind fun _ =>
    (keeps_forEach (fun _ => keeps_requestAttributeInformation _ _) _).ite
      (keeps_pure _)

theorem keeps_setData (map : CoverMap) (p : Pos) (data : DistributedData) :
    Keeps DsnNode.routingInfo (setData map p data) := by
  cases map with
  | cover => exact keeps_onHandler _
  | extended => exact keeps_onHandler _

theorem keeps_updateInquired (node : NodeInfo)
    (attributes : List (Text × NodeData.Value × NodeData.ValueType)) :
    Keeps DsnNode.routingInfo
      (updateInquiredOrSubscribedAttributeValues node attributes) := by
  refine keeps_get.bind fun s => ?_
  split
  · exact keeps_pure _
  · exact (keeps_throw _).ite
      ((keeps_setData _ _ _).bind fun _ => keeps_lift _)

theorem keeps_updateRemovedAttributes (node : NodeInfo) (removedKeys : List Text) :
    Keeps DsnNode.routingInfo (updateRemovedAttributes node removedKeys) := by
  refine keeps_get.bind fun s => ?_
  split
  · exact keeps_throw _
  · exact (keeps_throw _).ite (keeps_setData _ _ _)

theorem keeps_processAttributeInquiryAnswer (inquired : NodeInfo)
    (attributes : List (Text × NodeData.Value × NodeData.ValueType)) (removedKeys : List Text) :
    Keeps DsnNode.routingInfo
      (processAttributeInquiryAnswer inquired attributes removedKeys) :=
  (keeps_updateInquired _ _).bind fun _ =>
    (keeps_updateRemovedAttributes _ _).ite (keeps_pure _)

theorem keeps_call {x : Action DsnNode Unit} (h : Keeps DsnNode.routingInfo x) :
    Keeps DsnNode.routingInfo (call x) := by
  intro s
  have hs := h s
  cases hx : x s with
  | mk s' r =>
    rw [hx] at hs
    cases r <;> simp only [call, hx] <;> exact hs

theorem keeps_notifyNodeInfoChange (previous : NodeInfo) :
    Keeps DsnNode.routingInfo (notifyNodeInfoChange m previous) :=
  keeps_get.bind fun _ => (keeps_pure _).ite
    (keeps_call (keeps_onNodeInfoChangeNotification m))

/-- What a step does to the routing information. -/
theorem step_routingInfo {m : ℕ} {s s' : DsnNode} {e : Event} (h : step m s e = some s') :
    s'.routingInfo = s.routingInfo ∨
      (∃ q, e = .setPosition q ∧ s.routingInfo.setPosition m q = .ok s'.routingInfo) ∨
      (e = .resetPosition ∧ s'.routingInfo = s.routingInfo.resetPosition) ∨
      ∃ op, e = .change op ∧ op.perform m s.routingInfo = .ok s'.routingInfo := by
  cases e with
  | setPosition q =>
    unfold step at h
    cases hri : s.routingInfo.setPosition m q with
    | error e => simp [hri] at h
    | ok ri =>
      simp only [hri, some.injEq] at h
      subst h
      exact Or.inr (Or.inl ⟨q, rfl, by rw [keeps_notifyNodeInfoChange m _ _, hri]⟩)
  | resetPosition =>
    obtain rfl := some.inj h
    exact Or.inr (Or.inr (Or.inl ⟨rfl, keeps_notifyNodeInfoChange m _ _⟩))
  | change op =>
    obtain rfl := some.inj h
    unfold performOperation setRoutingInfo
    rw [get_bind_run]
    cases hri : op.perform m s.routingInfo with
    | error e => exact Or.inl rfl
    | ok ri =>
      refine Or.inr (Or.inr (Or.inr ⟨op, rfl, ?_⟩))
      rw [lift_ok_bind_run, modify_bind_run, hri]
      cases op.report m s.routingInfo with
      | none => rfl
      | some n => rw [keeps_call (keeps_onNeighborChangeNotification m n) _]
  | queryActive =>
    obtain rfl := some.inj h
    exact Or.inl (keeps_call ((keeps_isActive m).bind fun _ => keeps_pure _) s)
  | tick time =>
    obtain rfl := some.inj h
    exact Or.inl rfl
  | attributeInquiryAnswer inquired attributes removedKeys =>
    obtain rfl := some.inj h
    exact Or.inl (keeps_call (keeps_processAttributeInquiryAnswer _ _ _) _)
  | subscriptionUpdate sender key value =>
    obtain rfl := some.inj h
    exact Or.inl (keeps_call (keeps_updateInquired _ _) _)

end DsnNode

end Sola.Minhton
