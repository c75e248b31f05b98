import Mathlib.Data.List.Sort
import Sola.Daisi.MaterialFlow
import Sola.Daisi.SimpleTemporalNetwork
import Sola.Daisi.TaskManagement

/-!
The task management of a vehicle by a simple temporal network
(`daisi/src/cpps/logical/task_management/stn_task_management.cpp`).

Every order of a task has a vertex for its start and one for its finish.  The
tasks are kept in an order, and constraints between a task and the next one say
how long the vehicle takes to get there.  The start times are the earliest ones
that satisfy all constraints.

How long the vehicle takes for a path, and how long the path is, is given.
Orders are identified by their uuids.  A failed assertion counts as an
exception.
-/

namespace Sola.Daisi

open Sola.Lib

/-! ### Vehicles -/

/-- What is known about the mobility of a vehicle. -/
structure AmrMobility where
  position : Position
  pathDuration : Position → List Position → ℚ
  pathDistance : Position → List Position → ℚ
  loadTime : ℚ
  unloadTime : ℚ
  pathDuration_nonneg : ∀ start path, 0 ≤ pathDuration start path
  loadTime_nonneg : 0 ≤ loadTime
  unloadTime_nonneg : 0 ≤ unloadTime

namespace AmrMobility

def estimateDurationOf (amr : AmrMobility) (start : Position) : Functionality → ℚ
  | .moveTo destination => amr.pathDuration start [destination]
  | .navigate waypoints => amr.pathDuration start waypoints
  | .load _ => amr.loadTime
  | .unload _ => amr.unloadTime
  | .monostate => -1

/-- Where a functionality ends. -/
def endOf (start : Position) : Functionality → Position
  | .moveTo destination => destination
  | .navigate waypoints => waypoints.getLastD start
  | _ => start

def estimateDuration (amr : AmrMobility) : Position → List Functionality → ℚ
  | _, [] => 0
  | start, f :: fs =>
    amr.estimateDurationOf start f + amr.estimateDuration (endOf start f) fs

/-- The loop of `calculateMetricsByDomain`. -/
def metricsByDomain (amr : AmrMobility) :
    Bool → Position → List Functionality → Metrics → Except String Metrics
  | _, _, [], m => .ok m
  | loaded, last, f :: fs, m =>
    match f with
    | .moveTo destination =>
      let distance := amr.pathDistance last [destination]
      let time := amr.estimateDurationOf last f
      amr.metricsByDomain loaded destination fs
        (if loaded then
          { m with
            loadedTravelDistance := m.loadedTravelDistance + distance
            loadedTravelTime := m.loadedTravelTime + time }
        else
          { m with
            emptyTravelDistance := m.emptyTravelDistance + distance
            emptyTravelTime := m.emptyTravelTime + time })
    | .load _ =>
      amr.metricsByDomain true last fs
        { m with actionTime := m.actionTime + amr.estimateDurationOf last f }
    | .unload _ =>
      amr.metricsByDomain false last fs
        { m with actionTime := m.actionTime + amr.estimateDurationOf last f }
    | .navigate _ => .error "Functionality Navigate not implemented yet"
    | .monostate => amr.metricsByDomain loaded last fs m

def calculateMetricsByDomain (amr : AmrMobility) (start : Position) (fs : List Functionality) :
    Except String Metrics :=
  amr.metricsByDomain false start fs {}

end AmrMobility

/-! ### Tasks -/

structure TimeWindow where
  earliestStart : ℚ
  latestFinish : ℚ
  spawnTime : Option ℚ

namespace TimeWindow

def getAbsoluteEarliestStart (window : TimeWindow) : Except String ℚ :=
  match window.spawnTime with
  | some spawnTime => .ok (window.earliestStart + spawnTime)
  | none => .error "Spawn time not set"

def getAbsoluteLatestFinish (window : TimeWindow) : Except String ℚ :=
  match window.spawnTime with
  | some spawnTime => .ok (spawnTime + window.latestFinish)
  | none => .error "Spawn time not set"

end TimeWindow

/-- An order with its uuid. -/
structure TaskOrder where
  uuid : ℕ
  order : Order

structure Task where
  uuid : ℕ
  name : ℕ
  orders : List TaskOrder
  timeWindow : Option TimeWindow
  precedingTasks : List ℕ

/-- `TaskManagementHelper::getEndLocationOfOrder`. -/
def TaskOrder.endLocation (order : TaskOrder) : Option Position :=
  match order.order with
  | .transport _ delivery => some delivery
  | .move location => some location
  | .action _ => none

inductive StnTaskManagementVertex
  | origin
  | start (order : ℕ)
  | finish (order : ℕ)
deriving DecidableEq

/-! ### State -/

structure StnInsertionPoint where
  previousFinish : StnTaskManagementVertex
  nextStart : Option StnTaskManagementVertex
  newIndex : ℕ
deriving DecidableEq

structure TaskInsertInfo where
  task : Task
  endLocations : List Position
  metricsComposition : MetricsComposition

structure StnTaskManagement where
  network : SimpleTemporalNetwork StnTaskManagementVertex
  dGraph : List (List (WithTop ℚ))
  currentTask : Option Task
  currentTaskEndLocation : Option Position
  currentTaskExpectedFinishTime : ℚ
  currentOrdering : List TaskInsertInfo
  currentTotalMetrics : Metrics
  newestTaskInsertInfo : Option TaskInsertInfo
  timeNow : ℚ
  latestCalculatedInsertionInfo : Option (MetricsComposition × StnInsertionPoint)

namespace StnTaskManagement

variable (amr : AmrMobility) (s : StnTaskManagement) (info : TaskInsertInfo)

abbrev Handler (α : Type) : Type := Action StnTaskManagement α

def init : StnTaskManagement where
  network := .ofOrigin .origin
  dGraph := []
  currentTask := none
  currentTaskEndLocation := none
  currentTaskExpectedFinishTime := 0
  currentOrdering := []
  currentTotalMetrics := { startTime := some 0 }
  newestTaskInsertInfo := none
  timeNow := 0
  latestCalculatedInsertionInfo := none

def onNetwork {α : Type} (x : SimpleTemporalNetwork.Handler StnTaskManagementVertex α) :
    Handler α :=
  Action.zoom network (fun g s => { s with network := g }) x

def hasTasks : Bool := s.currentTask.isSome

/-! ### Time -/

/-- Replace an entry of the matrix if it is there. -/
def modifyEntry (i j : ℕ) (f : StnTaskManagementEdge → Except String StnTaskManagementEdge) :
    SimpleTemporalNetwork.Handler StnTaskManagementVertex Unit := do
  let g ← Action.get
  match g.adjacencyMatrix i j with
  | none => pure ()
  | some e =>
    let e ← Action.lift (f e)
    Action.modify fun g =>
      { g with
        adjacencyMatrix := fun i' j' =>
          if i' = i ∧ j' = j then some e else g.adjacencyMatrix i' j' }

/-- The bounds relative to the origin are moved away from it. -/
def updateOriginConstraints (timeDifference : ℚ) :
    SimpleTemporalNetwork.Handler StnTaskManagementVertex Unit := do
  let g ← Action.get
  if timeDifference < 0 then pure ()
  else
    Action.forEach (List.range g.vertices.length) fun j =>
      modifyEntry 0 j fun e =>
        if e.getNumberOfWeights ≠ 1 ∨ e.getWeight < 0 then .error "assertion failed"
        else e.updateWeight 0 (e.getWeight + timeDifference)
    Action.forEach (List.range g.vertices.length) fun i =>
      modifyEntry i 0 fun e =>
        if 0 < e.getWeight then .error "assertion failed"
        else e.updateWeight 0 (e.getWeight - timeDifference)

def setCurrentTime (now : ℚ) : Handler Unit := do
  let s ← Action.get
  if now < s.timeNow then Action.throw "new time must be later than current time"
  else
    onNetwork (updateOriginConstraints (now - s.timeNow))
    Action.modify fun s => { s with timeNow := now }

/-! ### Vertices and positions -/

/-- The vertex of the start or the finish of an order, which has to be in the network. -/
def vertexOf (order : TaskOrder) (isStart : Bool) : Except String StnTaskManagementVertex :=
  let v := if isStart then StnTaskManagementVertex.start order.uuid else .finish order.uuid
  if v ∈ s.network.vertices then .ok v else .error "Order not part of STN"

def getVertexOfOrder (order : TaskOrder) (isStart : Bool) : Handler StnTaskManagementVertex := do
  let s ← Action.get
  Action.lift (s.vertexOf order isStart)

/-- The first order of a task. -/
def firstOrder (task : Task) : Except String TaskOrder :=
  match task.orders.head? with
  | some order => .ok order
  | none => .error "no orders"

def lastOrder (task : Task) : Except String TaskOrder :=
  match task.orders.getLast? with
  | some order => .ok order
  | none => .error "no orders"

/-- The last of the end locations of a task. -/
def endLocation : Except String Position :=
  match info.endLocations.getLast? with
  | some location => .ok location
  | none => .error "no end locations"

def getLastPositionBefore (taskIndex : ℕ) : Except String Position :=
  if taskIndex = 0 then
    if s.hasTasks then
      match s.currentTaskEndLocation with
      | some location => .ok location
      | none => .error "bad optional access"
    else .ok amr.position
  else
    match s.currentOrdering[taskIndex - 1]? with
    | some info => endLocation info
    | none => .error "index out of range"

/-! ### Durations -/

/-- The end location of the order before the one with the given index. -/
def previousLocation (orderIndex : ℕ) : Except String Position :=
  match orderIndex with
  | 0 => .error "assertion failed"
  | k + 1 =>
    match info.endLocations[k]? with
    | some location => .ok location
    | none => .error "index out of range"

def indexOfOrder (order : TaskOrder) : ℕ :=
  info.task.orders.findIdx fun o => o.uuid = order.uuid

/-- All orders but the first one are estimated from the same pose. -/
def calcOrderDurationForInsert (order : TaskOrder) (info : TaskInsertInfo) : Except String ℚ :=
  match order.order, indexOfOrder info order with
  | .transport _ _, 0 => do
      let fs ← materialFlowToFunctionalities [order.order] (some (-1, -1))
      match fs with
      | .moveTo destination :: fs => return amr.estimateDuration destination fs
      | _ => .error "First functionality of TransportOrder must be MoveTo."
  | _, orderIndex => do
      let previous ← previousLocation info orderIndex
      let fs ← materialFlowToFunctionalities [order.order] (some previous)
      return amr.estimateDuration (0, 0) fs

/-- The time from the end of the task before to the first pickup. -/
def calcGetToStartDuration (taskIndex : ℕ) : Except String ℚ := do
  let last ← s.getLastPositionBefore amr taskIndex
  match s.currentOrdering[taskIndex]? with
  | none => .error "index out of range"
  | some info =>
    let first ← firstOrder info.task
    match first.order with
    | .transport _ _ =>
      let fs ← materialFlowToFunctionalities [first.order] (some last)
      match fs with
      | f :: _ => return amr.estimateDuration last [f]
      | [] => .error "no functionalities"
    | _ => .error "Only supports transport orders at the beginngin of a task."

/-! ### Metrics -/

def insertOrderPropertiesIntoMetrics (order : TaskOrder) (metrics : Metrics) (info : TaskInsertInfo)
    (taskIndex : ℕ) : Except String Metrics :=
  let orderIndex := indexOfOrder info order
  match order.order with
  | .move location => do
      if orderIndex = 0 then .error "move order should not be first"
      else
        let previous ← previousLocation info orderIndex
        let fs ← materialFlowToFunctionalities [order.order] (some previous)
        return { metrics with
          emptyTravelTime := metrics.emptyTravelTime + amr.estimateDuration (0, 0) fs
          emptyTravelDistance := amr.pathDistance previous [location] }
  | .transport _ _ => do
      let previous ← if 0 < orderIndex then previousLocation info orderIndex
        else s.getLastPositionBefore amr taskIndex
      let fs ← materialFlowToFunctionalities [order.order] none
      let added ← amr.calculateMetricsByDomain previous fs
      return { metrics with
        emptyTravelTime := metrics.emptyTravelTime + added.emptyTravelTime
        loadedTravelTime := metrics.loadedTravelTime + added.loadedTravelTime
        actionTime := metrics.actionTime + added.actionTime
        emptyTravelDistance := metrics.emptyTravelDistance + added.emptyTravelDistance
        loadedTravelDistance := metrics.loadedTravelDistance + added.loadedTravelDistance }
  | .action _ => do
      let previous ← previousLocation info orderIndex
      let fs ← materialFlowToFunctionalities [order.order] (some previous)
      return { metrics with actionTime := metrics.actionTime + amr.estimateDuration (0, 0) fs }

/-- The time `-d` for a distance to the origin. -/
def timeOf : WithTop ℚ → TimePoint
  | (distance : ℚ) => ((-distance : ℚ) : TimePoint)
  | ⊤ => ⊥

/-- The start of an order by the distances. -/
def orderStart (order : TaskOrder) : Except String TimePoint := do
  let v ← s.vertexOf order true
  return timeOf (FloydWarshall.entry s.dGraph (s.network.vertices.idxOf v) 0) + (s.timeNow : ℚ)

/-- The start times of the orders of a task and the metrics of all of them. -/
def ordersMetrics (amr : AmrMobility) (s : StnTaskManagement) (info : TaskInsertInfo)
    (taskIndex : ℕ) : List TaskOrder → Metrics → Except String (List TimePoint × Metrics)
  | [], metrics => .ok ([], metrics)
  | order :: orders, metrics => do
      let start ← s.orderStart order
      let metrics ← s.insertOrderPropertiesIntoMetrics amr order metrics info taskIndex
      let (starts, metrics) ← s.ordersMetrics amr info taskIndex orders metrics
      return (start :: starts, metrics)

/-- The current metrics of a task; they hold its start time. -/
def currentMetricsOf (taskIndex : ℕ) (info : TaskInsertInfo) : Except String Metrics := do
  let (starts, metrics) ← s.ordersMetrics amr info taskIndex info.task.orders {}
  match starts.min? with
  | none => .error "no orders"
  | some start =>
    let startUpTime ← s.calcGetToStartDuration amr taskIndex
    return { metrics with executionStartTime := some start, startUpTime := startUpTime }

/-- The tasks from the given index on with new current metrics. -/
def updatedInfos (amr : AmrMobility) (s : StnTaskManagement) :
    ℕ → List TaskInsertInfo → Except String (List TaskInsertInfo)
  | _, [] => .ok []
  | i, info :: infos => do
      let metrics ← s.currentMetricsOf amr i info
      let infos ← s.updatedInfos amr (i + 1) infos
      return { info with
        metricsComposition := info.metricsComposition.updateCurrentMetrics metrics } :: infos

/-- The start time of a task. -/
def startTime : TimePoint :=
  info.metricsComposition.currentMetrics.executionStartTime.getD ⊥

/-- The start times by task; of equal tasks the last one counts. -/
def startTimeMapping (infos : List TaskInsertInfo) (task : ℕ) : TimePoint :=
  match infos.findRev? fun info => info.task.uuid = task with
  | some info => startTime info
  | none => 0

/-- The new total metrics: the old ones and those of the last task. -/
def totalMetrics (previous : Metrics) : List TaskInsertInfo → Metrics → Except String Metrics
  | [], total => .ok total
  | info :: infos, _ => do
      let total ← previous.add info.metricsComposition.currentMetrics
      totalMetrics previous infos total

/-- Set the metrics of the insertion at the first task without them. -/
def fixNewTask (diff : Metrics) :
    List TaskInsertInfo → Except String (List TaskInsertInfo × Option TaskInsertInfo)
  | [] => .ok ([], none)
  | info :: infos =>
    if info.metricsComposition.hasDiffInsertionMetrics then do
      let (infos, newest) ← fixNewTask diff infos
      return (info :: infos, newest)
    else do
      let m ← info.metricsComposition.setDiffInsertionMetrics diff
      let m ← m.fixInsertionMetrics
      let info := { info with metricsComposition := m }
      return (info :: infos, some info)

/-- Sorting by start times. -/
def sortByStart (infos : List TaskInsertInfo) : List TaskInsertInfo :=
  infos.insertionSort fun i₁ i₂ =>
    startTimeMapping infos i₁.task.uuid ≤ startTimeMapping infos i₂.task.uuid

def updateCurrentOrdering : Handler Unit := do
  let s ← Action.get
  let infos ← Action.lift (s.updatedInfos amr 0 s.currentOrdering)
  let infos := sortByStart infos
  let total ← Action.lift (totalMetrics s.currentTotalMetrics infos s.currentTotalMetrics)
  if infos.countP (fun info => !info.metricsComposition.hasDiffInsertionMetrics) ≠ 1 then
    Action.throw "there should be exactly one entry without diff metrics"
  else
    let diff ← Action.lift (total.sub s.currentTotalMetrics)
    let (infos, newest) ← Action.lift (fixNewTask diff infos)
    Action.modify fun s =>
      { s with
        currentOrdering := infos
        currentTotalMetrics := total
        newestTaskInsertInfo := newest }

def solve (amr : AmrMobility) : Handler Bool := do
  let s ← Action.get
  let (d, success) := s.network.solve
  Action.modify fun s => { s with dGraph := d }
  if success then
    updateCurrentOrdering amr
    return true
  else return false

/-! ### Insertion -/

def calcInsertionPointsFrom (s : StnTaskManagement) :
    ℕ → List TaskInsertInfo → Except String (List StnInsertionPoint)
  | _, [] => .ok []
  | i, [info] => do
      let last ← lastOrder info.task
      let previousFinish ← s.vertexOf last false
      return [⟨previousFinish, none, i⟩]
  | i, info :: next :: infos => do
      let last ← lastOrder info.task
      let previousFinish ← s.vertexOf last false
      let first ← firstOrder next.task
      let nextStart ← s.vertexOf first true
      let points ← s.calcInsertionPointsFrom (i + 1) (next :: infos)
      return ⟨previousFinish, some nextStart, i⟩ :: points

def calcInsertionPoints : Except String (List StnInsertionPoint) :=
  match s.currentOrdering with
  | [] => .ok [⟨.origin, none, 0⟩]
  | info :: infos => do
      let first ← firstOrder info.task
      let nextStart ← s.vertexOf first true
      let points ← s.calcInsertionPointsFrom 1 (info :: infos)
      return ⟨.origin, some nextStart, 0⟩ :: points

def updateGetToStartDurationConstraint (taskIndex : ℕ) : Handler Unit := do
  let s ← Action.get
  let duration ← Action.lift (s.calcGetToStartDuration amr taskIndex)
  match s.currentOrdering[taskIndex]? with
  | none => Action.throw "index out of range"
  | some info =>
    let first ← Action.lift (firstOrder info.task)
    let previousFinish ←
      if taskIndex = 0 then onNetwork SimpleTemporalNetwork.getOrigin
      else
        match s.currentOrdering[taskIndex - 1]? with
        | none => Action.throw "index out of range"
        | some previous => do
            let last ← Action.lift (lastOrder previous.task)
            getVertexOfOrder last false
    let thisStart ← getVertexOfOrder first true
    onNetwork (SimpleTemporalNetwork.updateLastBinaryConstraint previousFinish thisStart
      (some duration) none)

def addOrderingConstraintBetweenTasks (point : StnInsertionPoint) (info : TaskInsertInfo) :
    Handler Unit := do
  let s ← Action.get
  if s.currentOrdering.length < point.newIndex then Action.throw "insert past the end"
  else
    Action.modify fun s =>
      { s with currentOrdering := s.currentOrdering.insertIdx point.newIndex info }
    let first ← Action.lift (firstOrder info.task)
    let startVertex ← getVertexOfOrder first true
    onNetwork (SimpleTemporalNetwork.addBinaryConstraint point.previousFinish startVertex
      (some 0) none)
    updateGetToStartDurationConstraint amr point.newIndex
    match point.nextStart with
    | none => pure ()
    | some nextStart =>
      let last ← Action.lift (lastOrder info.task)
      let finishVertex ← getVertexOfOrder last false
      onNetwork (SimpleTemporalNetwork.addBinaryConstraint finishVertex nextStart (some 0) none)
      updateGetToStartDurationConstraint amr (point.newIndex + 1)

/-- The metrics of the newest task after an insertion and whether it succeeded. -/
def insertAt (point : StnInsertionPoint) (info : TaskInsertInfo) :
    Handler (Option MetricsComposition) := do
  addOrderingConstraintBetweenTasks amr point info
  let success ← solve amr
  if success then
    let s ← Action.get
    match s.newestTaskInsertInfo with
    | none => Action.throw "no newest task"
    | some newest => return some newest.metricsComposition
  else return none

/-- The best one of the points on copies of the task management. -/
def bestPoint (amr : AmrMobility) (info : TaskInsertInfo) (s : StnTaskManagement) :
    List StnInsertionPoint → Option (StnInsertionPoint × MetricsComposition) →
      Except String (Option (StnInsertionPoint × MetricsComposition))
  | [], best => .ok best
  | point :: points, best => do
      let metrics ← (insertAt amr point info s).2
      match metrics with
      | none => bestPoint amr info s points best
      | some metrics =>
        match best with
        | none => bestPoint amr info s points (some (point, metrics))
        | some (_, bestMetrics) =>
          bestPoint amr info s points
            (if bestMetrics.lt metrics then some (point, metrics) else best)

def addBestOrdering : Handler (Option (MetricsComposition × StnInsertionPoint)) := do
  let s ← Action.get
  let points ← Action.lift s.calcInsertionPoints
  let best ← Action.lift (bestPoint amr info s points none)
  match best with
  | none => return none
  | some (point, _) =>
    let metrics ← insertAt amr point info
    match metrics with
    | none => Action.throw "failed to solve although it was solvable on the copy"
    | some metrics => return some (metrics, point)

/-! ### Tasks -/

def addPrecedenceConstraintBetweenTask (startVertex : StnTaskManagementVertex) (name : ℕ) :
    Handler Unit := do
  let s ← Action.get
  match s.currentOrdering.find? fun info => info.task.name = name with
  | none => pure ()
  | some info =>
    let last ← Action.lift (lastOrder info.task)
    let lastFinish ← getVertexOfOrder last false
    onNetwork (SimpleTemporalNetwork.addBinaryConstraint lastFinish startVertex (some 0) none)

/-- The earliest start of the first order.  The result is false if the task would have to
start in the past. -/
def addEarliestStart (task : Task) (previous : Option TaskOrder)
    (startVertex : StnTaskManagementVertex) : Handler Bool :=
  match task.timeWindow, previous with
  | some window, none => do
      let s ← Action.get
      let earliest ← Action.lift window.getAbsoluteEarliestStart
      if earliest - s.timeNow < 0 then return false
      else
        onNetwork (SimpleTemporalNetwork.addUnaryConstraint startVertex
          (some (earliest - s.timeNow)) none)
        return true
  | _, _ => return true

/-- The latest finish of the last order. -/
def addLatestFinish (task : Task) (orders : List TaskOrder)
    (finishVertex : StnTaskManagementVertex) : Handler Unit :=
  match task.timeWindow, orders with
  | some window, [] => do
      let s ← Action.get
      let latest ← Action.lift window.getAbsoluteLatestFinish
      onNetwork (SimpleTemporalNetwork.addUnaryConstraint finishVertex none
        (some (latest - s.timeNow)))
  | _, _ => return

/-- An order starts after the one before it. -/
def addSequence (previous : Option TaskOrder) (startVertex : StnTaskManagementVertex) :
    Handler Unit :=
  match previous with
  | none => return
  | some previous => do
      let previousFinish ← getVertexOfOrder previous false
      onNetwork (SimpleTemporalNetwork.addBinaryConstraint previousFinish startVertex (some 0) none)

/-- Where the order ends that comes after the given ones. -/
def nextEndLocation (order : TaskOrder) (info : TaskInsertInfo) : Except String Position :=
  match order.endLocation with
  | some location => .ok location
  | none => endLocation info

/-- The loop of `addTask` over the orders that are left. -/
def addOrders (amr : AmrMobility) : Option TaskOrder → List TaskOrder → TaskInsertInfo →
    Handler (Option TaskInsertInfo)
  | _, [], info => return some info
  | previous, order :: orders, info => do
      let startVertex := StnTaskManagementVertex.start order.uuid
      let finishVertex := StnTaskManagementVertex.finish order.uuid
      Action.modify fun s =>
        { s with network := (s.network.addVertex startVertex).addVertex finishVertex }
      let inTime ← addEarliestStart info.task previous startVertex
      if !inTime then return none
      else
        addLatestFinish info.task orders finishVertex
        addSequence previous startVertex
        let duration ← Action.lift (calcOrderDurationForInsert amr order info)
        onNetwork (SimpleTemporalNetwork.addBinaryConstraint startVertex finishVertex
          (some duration) none)
        let location ← Action.lift (nextEndLocation order info)
        addOrders amr (some order) orders
          { info with endLocations := info.endLocations ++ [location] }

def setLatest (latest : Option (MetricsComposition × StnInsertionPoint)) : Handler Unit :=
  Action.modify fun s => { s with latestCalculatedInsertionInfo := latest }

def addTask (task : Task) (insertionPoint : Option StnInsertionPoint) : Handler Bool := do
  setLatest none
  if task.orders.isEmpty then Action.throw "Task must have at least one order"
  else
    let info ← addOrders amr none task.orders ⟨task, [], .ofMetrics {}⟩
    match info with
    | none => return false
    | some info =>
      let first ← Action.lift (firstOrder task)
      Action.forEach task.precedingTasks fun name => do
        let startVertex ← getVertexOfOrder first true
        addPrecedenceConstraintBetweenTask startVertex name
      match insertionPoint with
      | some point =>
        let metrics ← insertAt amr point info
        match metrics with
        | none => return false
        | some metrics =>
          setLatest (some (metrics, point))
          return true
      | none =>
        let result ← addBestOrdering amr info
        match result with
        | none => return false
        | some latest =>
          setLatest (some latest)
          return true

/-- The check runs on a copy. -/
def canAddTask (task : Task) (insertionPoint : Option StnInsertionPoint) : Handler Bool := do
  setLatest none
  let s ← Action.get
  let (copy, result) := addTask amr task insertionPoint s
  let added ← Action.lift result
  if added then
    setLatest copy.latestCalculatedInsertionInfo
    return true
  else return false

def setNextTask : Handler Bool := do
  let s ← Action.get
  match s.currentOrdering with
  | [] =>
    Action.modify fun s => { s with currentTask := none }
    return false
  | info :: infos =>
    let finish := s.timeNow + info.metricsComposition.currentMetrics.getTime
    let location ← Action.lift (endLocation info)
    Action.modify fun s =>
      { s with
        currentTask := some info.task
        currentTaskExpectedFinishTime := finish
        currentTaskEndLocation := some location }
    setCurrentTime finish
    Action.forEach info.task.orders fun order => do
      let startVertex ← getVertexOfOrder order true
      onNetwork (SimpleTemporalNetwork.removeVertex startVertex)
      let finishVertex ← getVertexOfOrder order false
      onNetwork (SimpleTemporalNetwork.removeVertex finishVertex)
    Action.modify fun s => { s with currentOrdering := infos }
    return true

end StnTaskManagement

end Sola.Daisi
