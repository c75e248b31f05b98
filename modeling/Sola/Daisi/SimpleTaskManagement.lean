import Sola.Daisi.StnTaskManagement
import Sola.Lib.Throwing

/-!
The simple task management of a vehicle
(`daisi/src/cpps/logical/task_management/simple_task_management.cpp`).

Tasks are done in the order in which they were added.  `addTask` puts the task
into the queue before it looks at the orders, so a task with an order that
cannot be done stays in the queue.
-/

namespace Sola.Daisi

open Sola.Lib Action FunctionalityMapping

structure SimpleTaskManagement where
  activeTask : Option Task
  queue : List Task
  finalMetrics : Metrics
  expectedEndPosition : Option Position
  timeNow : ℚ

namespace SimpleTaskManagement

abbrev Handler (α : Type) : Type := Action SimpleTaskManagement α

variable (amr : AmrMobility) (s : SimpleTaskManagement) (task : Task) (order : TaskOrder)

def init : SimpleTaskManagement where
  activeTask := none
  queue := []
  finalMetrics := { startTime := some 0 }
  expectedEndPosition := some amr.position
  timeNow := 0

def getExpectedEndPosition : Except String Position :=
  match s.expectedEndPosition with
  | some position => .ok position
  | none => .error "There must exist at least a position for the AMR to start from."

/-- The position of the last order of the task that is equal to this one. -/
def orderIndex : ℕ :=
  task.orders.length - task.orders.reverse.findIdx (fun o => o.uuid = order.uuid) - 1

/-- Where the orders before the given one end. -/
def previousPosition : Except String Position :=
  match (task.orders.take (orderIndex task order)).reverse.findSome? TaskOrder.endLocation with
  | some location => .ok location
  | none => s.getExpectedEndPosition

def insertOrderPropertiesIntoMetrics (metrics : Metrics) (task : Task) (startTime : TimePoint) :
    Except String Metrics := do
  let metrics := if metrics.startTime.isSome then metrics
    else { metrics with startTime := some startTime }
  let previous ← s.previousPosition task order
  let fs ← materialFlowToFunctionalities [order.order] (some previous)
  match order.order with
  | .move location =>
    if orderIndex task order = 0 then .error "Move order should not be first."
    else
      return { metrics with
        emptyTravelTime := metrics.emptyTravelTime + amr.estimateDuration (0, 0) fs
        emptyTravelDistance := amr.pathDistance previous [location] }
  | .transport _ _ =>
    let added ← amr.calculateMetricsByDomain previous fs
    return { metrics with
      emptyTravelTime := metrics.emptyTravelTime + added.emptyTravelTime
      loadedTravelTime := metrics.loadedTravelTime + added.loadedTravelTime
      actionTime := metrics.actionTime + added.actionTime
      emptyTravelDistance := metrics.emptyTravelDistance + added.emptyTravelDistance
      loadedTravelDistance := metrics.loadedTravelDistance + added.loadedTravelDistance }
  | .action _ =>
    return { metrics with actionTime := metrics.actionTime + amr.estimateDuration (0, 0) fs }

/-- The metrics of the last one of the orders, each of which starts when the one before ends. -/
def lastMetrics (amr : AmrMobility) (s : SimpleTaskManagement) (task : Task) :
    List TaskOrder → TimePoint → Metrics → Except String Metrics
  | [], _, metrics => .ok metrics
  | order :: orders, startTime, _ => do
      let metrics ← s.insertOrderPropertiesIntoMetrics amr order {} task startTime
      let startTime ← metrics.getMakespan
      s.lastMetrics amr task orders startTime metrics

def updateFinalMetrics : Handler Unit := do
  let s ← Action.get
  let makespan ← Action.lift s.finalMetrics.getMakespan
  match s.queue.getLast? with
  | none => Action.throw "empty queue"
  | some newTask =>
    let metrics ← Action.lift
      (s.lastMetrics amr newTask newTask.orders (max makespan (s.timeNow : ℚ)) {})
    Action.modify fun s => { s with finalMetrics := metrics }

def addTask : Handler Bool := do
  if task.orders.isEmpty then Action.throw "Task must have at least one order."
  else
    Action.modify fun s => { s with queue := s.queue ++ [task] }
    updateFinalMetrics amr
    match task.orders.reverse.findSome? TaskOrder.endLocation with
    | none => Action.throw "Task must contain at least one TransportOrder or MoveOrder."
    | some location =>
      Action.modify fun s => { s with expectedEndPosition := some location }
      return true

/-- The check runs on a copy. -/
def canAddTask : Handler Bool := do
  let s ← Action.get
  Action.lift (addTask amr task s).2

def setNextTask : Handler Bool := do
  let s ← Action.get
  match s.queue with
  | [] =>
    Action.modify fun s => { s with activeTask := none }
    return false
  | task :: tasks =>
    Action.modify fun s => { s with activeTask := some task, queue := tasks }
    return true

def setCurrentTime (now : ℚ) : Handler Unit := do
  let s ← Action.get
  if now < s.timeNow then Action.throw "New time must be later than current time."
  else Action.modify fun s => { s with timeNow := now }

/-! ### Tasks that are added -/

/-- A call that does not succeed leaves no trace, and one that does only appends the task. -/
def RejectsAtomically (s : SimpleTaskManagement) : Prop :=
  ((addTask amr task s).2 ≠ .ok true → (addTask amr task s).1 = s) ∧
  ((canAddTask amr task s).2 ≠ .ok true → (canAddTask amr task s).1 = s) ∧
  ((addTask amr task s).2 = .ok true → (addTask amr task s).1.queue = s.queue ++ [task])

/-- The order can be done where it stands in the task. -/
structure Insertable (s : SimpleTaskManagement) (task : Task) (order : TaskOrder) : Prop where
  position : ∃ p, s.previousPosition task order = .ok p
  valid : order.order.Valid
  move : ∀ location, order.order = .move location → orderIndex task order ≠ 0

/-- All orders of the task can be done after the tasks before. -/
structure Processable (s : SimpleTaskManagement) (task : Task) : Prop where
  makespan : ∃ makespan, s.finalMetrics.getMakespan = .ok makespan
  insertable : ∀ order ∈ task.orders, s.Insertable task order

/-- In addition one of the orders ends somewhere. -/
structure Feasible (s : SimpleTaskManagement) (task : Task) : Prop extends s.Processable task where
  ends : ∃ order ∈ task.orders, order.endLocation.isSome = true

variable {amr s task order}
  {startTime : TimePoint}

theorem exists_metricsByDomain (amr : AmrMobility) {fs : List Functionality}
    (h : ∀ path, .navigate path ∉ fs) (loaded : Bool) (last : Position) (m : Metrics) :
    ∃ m', amr.metricsByDomain loaded last fs m = .ok m' := by
  induction fs generalizing loaded last m with
  | nil => exact ⟨m, rfl⟩
  | cons f fs ih =>
    have hrest := ih fun path hmem => h path (by simp [hmem])
    cases f with
    | navigate path => exact absurd (by simp) (h path)
    | _ => exact hrest _ _ _

theorem materialFlow_of_valid {order : Order} (h : order.Valid) (p : Position) :
    materialFlowToFunctionalities [order] (some p) = .ok (order.functionalities p).1 := by
  rw [materialFlowToFunctionalities, forEach_singleton,
    handleOrder_run h]
  rfl

theorem valid_of_materialFlow {order : Order} {p : Position} {fs : List Functionality}
    (h : materialFlowToFunctionalities [order] (some p) = .ok fs) : order.Valid := by
  cases order with
  | action parameters =>
    by_contra hinvalid
    rw [Order.Valid, not_or] at hinvalid
    rw [materialFlowToFunctionalities, forEach_singleton] at h
    simp [handleOrder, handleActionOrder, hinvalid,
      Except.map] at h
  | _ => trivial

theorem insertable_of_ok {metrics : Metrics}
    (h : s.insertOrderPropertiesIntoMetrics amr order {} task startTime = .ok metrics) :
    s.Insertable task order := by
  obtain ⟨p, hp, h⟩ := bind_eq_ok.mp h
  obtain ⟨fs, hfs, h⟩ := bind_eq_ok.mp h
  refine ⟨⟨p, hp⟩, valid_of_materialFlow hfs, fun location hmove hzero => ?_⟩
  rw [hmove] at h
  simp [hzero] at h

theorem getMakespan_of_startTime {m : Metrics} (h : m.startTime.isSome = true) :
    ∃ makespan, m.getMakespan = .ok makespan := by
  obtain ⟨start, hstart⟩ := Option.isSome_iff_exists.mp h
  unfold Metrics.getMakespan
  rw [hstart]
  split_ifs
  · exact ⟨_, rfl⟩
  · split <;> simp_all

theorem Insertable.exists_ok (h : s.Insertable task order) (amr : AmrMobility)
    (startTime : TimePoint) :
    ∃ metrics, s.insertOrderPropertiesIntoMetrics amr order {} task startTime = .ok metrics ∧
      metrics.startTime.isSome = true := by
  obtain ⟨p, hp⟩ := h.position
  simp only [insertOrderPropertiesIntoMetrics, hp, materialFlow_of_valid h.valid p, bind,
    Except.bind]
  cases horder : order.order with
  | move location =>
    simp only [if_neg (h.move location horder)]
    exact ⟨_, rfl, rfl⟩
  | action parameters => exact ⟨_, rfl, rfl⟩
  | transport pickups delivery =>
    have hpath : ∀ path,
        .navigate path ∉ ((Order.transport pickups delivery).functionalities p).1 := by
      simp [Order.functionalities]
    obtain ⟨added, hadded⟩ := exists_metricsByDomain amr hpath false p {}
    simp only [AmrMobility.calculateMetricsByDomain, hadded]
    exact ⟨_, rfl, rfl⟩

theorem lastMetrics_ok_iff (amr : AmrMobility) (s : SimpleTaskManagement) (task : Task)
    (orders : List TaskOrder) (startTime : TimePoint) (m₀ : Metrics) :
    (∃ m, s.lastMetrics amr task orders startTime m₀ = .ok m) ↔
      ∀ order ∈ orders, s.Insertable task order := by
  induction orders generalizing startTime m₀ with
  | nil => exact ⟨fun _ => by simp, fun _ => ⟨m₀, rfl⟩⟩
  | cons order orders ih =>
    rw [List.forall_mem_cons]
    constructor
    · rintro ⟨m, h⟩
      obtain ⟨metrics, hmetrics, h⟩ := bind_eq_ok.mp h
      obtain ⟨makespan, -, h⟩ := bind_eq_ok.mp h
      exact ⟨insertable_of_ok hmetrics, (ih makespan metrics).mp ⟨m, h⟩⟩
    · rintro ⟨hinsertable, hrest⟩
      obtain ⟨metrics, hmetrics, hstart⟩ := hinsertable.exists_ok amr startTime
      obtain ⟨makespan, hmakespan⟩ := getMakespan_of_startTime hstart
      obtain ⟨m, hm⟩ := (ih makespan metrics).mpr hrest
      exact ⟨m, bind_eq_ok.mpr ⟨metrics, hmetrics, bind_eq_ok.mpr ⟨makespan, hmakespan, hm⟩⟩⟩

theorem updateFinalMetrics_run (amr : AmrMobility) (s : SimpleTaskManagement)
    (hlast : s.queue.getLast? = some task) :
    (s.Processable task ∧
      ∃ metrics, updateFinalMetrics amr s = ({ s with finalMetrics := metrics }, .ok ())) ∨
    (¬ s.Processable task ∧ ∃ e, updateFinalMetrics amr s = (s, .error e)) := by
  simp only [updateFinalMetrics, get_bind_run, hlast]
  cases hmakespan : s.finalMetrics.getMakespan with
  | error e => exact .inr ⟨fun h => by simpa [hmakespan] using h.makespan, e, rfl⟩
  | ok makespan =>
    have hiff := lastMetrics_ok_iff amr s task task.orders (max makespan (s.timeNow : ℚ)) {}
    rw [lift_ok_bind_run]
    cases hmetrics : s.lastMetrics amr task task.orders (max makespan (s.timeNow : ℚ)) {} with
    | ok metrics =>
      exact .inl ⟨⟨⟨makespan, hmakespan⟩, hiff.mp ⟨metrics, hmetrics⟩⟩, metrics, rfl⟩
    | error e =>
      refine .inr ⟨fun h => ?_, e, rfl⟩
      obtain ⟨metrics, h⟩ := hiff.mpr h.insertable
      cases hmetrics.symm.trans h

/-- The task is in the queue, whatever happens afterwards. -/
theorem addTask_run (h : task.orders ≠ []) (amr : AmrMobility) (s : SimpleTaskManagement) :
    (addTask amr task s).1.queue = s.queue ++ [task] ∧
      ((addTask amr task s).2 = .ok true ↔ s.Feasible task) := by
  have hqueue : Processable { s with queue := s.queue ++ [task] } task ↔ s.Processable task :=
    ⟨fun h => ⟨h.makespan, fun o ho => ⟨(h.insertable o ho).1, (h.insertable o ho).2,
      (h.insertable o ho).3⟩⟩, fun h => ⟨h.makespan, fun o ho => ⟨(h.insertable o ho).1,
      (h.insertable o ho).2, (h.insertable o ho).3⟩⟩⟩
  have hfeasible : s.Feasible task ↔ s.Processable task ∧
      (task.orders.reverse.findSome? TaskOrder.endLocation).isSome = true := by
    rw [List.findSome?_isSome_iff]
    simp only [List.mem_reverse]
    exact ⟨fun h => ⟨h.toProcessable, h.ends⟩, fun h => ⟨h.1, h.2⟩⟩
  rw [hfeasible]
  simp only [addTask, List.isEmpty_iff, if_neg h, modify_bind_run]
  rcases updateFinalMetrics_run amr { s with queue := s.queue ++ [task] } List.getLast?_concat with
    ⟨hprocessable, metrics, hrun⟩ | ⟨hfail, e, hrun⟩
  · rw [bind_run_ok hrun]
    cases task.orders.reverse.findSome? TaskOrder.endLocation with
    | none => simp
    | some location => exact ⟨rfl, fun _ => ⟨hqueue.mp hprocessable, rfl⟩, fun _ => rfl⟩
  · rw [bind_run_error hrun]
    exact ⟨rfl, nofun, fun h => absurd (hqueue.mpr h.1) hfail⟩

/-- A vehicle that is everywhere at once. -/
def teleporter : AmrMobility where
  position := (0, 0)
  pathDuration _ _ := 0
  pathDistance _ _ := 0
  loadTime := 0
  unloadTime := 0
  pathDuration_nonneg _ _ := le_rfl
  loadTime_nonneg := le_rfl
  unloadTime_nonneg := le_rfl

end SimpleTaskManagement

end Sola.Daisi
