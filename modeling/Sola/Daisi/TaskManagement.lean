import Mathlib.Algebra.Order.Monoid.WithTop
import Mathlib.Algebra.Order.Field.Rat

/-!
What the assignment of tasks needs to know about a task management
(`daisi/src/cpps/logical/task_management/*.h` and `metrics.cpp`) and about the
abilities of vehicles (`daisi/src/cpps/amr/model/*.cpp`).

Durations and weights are rational numbers.  A task is its uuid.
-/

namespace Sola.Daisi

/-! ### Abilities -/

/-- `LoadCarrier::Types`. -/
inductive LoadCarrier
  | kEuroPalett
  | kEuroBox
  | kPackage
  | kNoLoadCarrierType
deriving DecidableEq

structure AmrStaticAbility where
  loadCarrier : LoadCarrier
  maxPayloadWeightKg : ℚ
deriving DecidableEq

namespace LoadCarrier

/-- No load carrier is less than another one. -/
def lt (_ _ : LoadCarrier) : Bool := false

def le (l₁ l₂ : LoadCarrier) : Bool := l₁ == l₂ || l₁.lt l₂

end LoadCarrier

namespace AmrStaticAbility

def lt (a₁ a₂ : AmrStaticAbility) : Bool :=
  a₁.loadCarrier.lt a₂.loadCarrier && a₁.maxPayloadWeightKg < a₂.maxPayloadWeightKg

def le (a₁ a₂ : AmrStaticAbility) : Bool :=
  a₁.loadCarrier.le a₂.loadCarrier && a₁.maxPayloadWeightKg ≤ a₂.maxPayloadWeightKg

end AmrStaticAbility

/-! ### Metrics -/

/-- A point in time; `⊥` is `-inf`, the start of something that nothing bounds from below. -/
abbrev TimePoint := WithBot ℚ

structure Metrics where
  emptyTravelTime : ℚ := 0
  loadedTravelTime : ℚ := 0
  actionTime : ℚ := 0
  emptyTravelDistance : ℚ := 0
  loadedTravelDistance : ℚ := 0
  startUpTime : ℚ := 0
  makespan : TimePoint := 0
  startTime : Option TimePoint := none
  executionStartTime : Option TimePoint := none
deriving DecidableEq

namespace Metrics

/-- The function that orders metrics. -/
def utilityFunction (m : Metrics) : ℚ := -m.emptyTravelTime

def getTime (m : Metrics) : ℚ := m.emptyTravelTime + m.loadedTravelTime + m.actionTime

def getExecutionTime (m : Metrics) : ℚ :=
  m.emptyTravelTime + m.loadedTravelTime + m.actionTime - m.startUpTime

def getMakespan (m : Metrics) : Except String TimePoint :=
  if 0 < m.makespan then .ok m.makespan
  else
    match m.executionStartTime, m.startTime with
    | some start, _ => .ok (start + (m.getExecutionTime : ℚ))
    | none, some start => .ok (start + (m.getTime : ℚ))
    | none, none => .error "No makespan values are available."

/-- The makespan of a sum is the later one of the two. -/
def add (m₁ m₂ : Metrics) : Except String Metrics := do
  let makespan₁ ← m₁.getMakespan
  let makespan₂ ← m₂.getMakespan
  return {
    emptyTravelTime := m₁.emptyTravelTime + m₂.emptyTravelTime
    loadedTravelTime := m₁.loadedTravelTime + m₂.loadedTravelTime
    actionTime := m₁.actionTime + m₂.actionTime
    emptyTravelDistance := m₁.emptyTravelDistance + m₂.emptyTravelDistance
    loadedTravelDistance := m₁.loadedTravelDistance + m₂.loadedTravelDistance
    makespan := max makespan₁ makespan₂ }

/-- The distance of two points in time.  The metrics that are subtracted are sums, and their
makespans are finite. -/
def timeBetween : TimePoint → TimePoint → TimePoint
  | (t₁ : ℚ), (t₂ : ℚ) => (|t₁ - t₂| : ℚ)
  | _, _ => ⊥

def sub (m₁ m₂ : Metrics) : Except String Metrics := do
  let makespan₁ ← m₁.getMakespan
  let makespan₂ ← m₂.getMakespan
  return {
    emptyTravelTime := m₁.emptyTravelTime - m₂.emptyTravelTime
    loadedTravelTime := m₁.loadedTravelTime - m₂.loadedTravelTime
    actionTime := m₁.actionTime - m₂.actionTime
    emptyTravelDistance := m₁.emptyTravelDistance - m₂.emptyTravelDistance
    loadedTravelDistance := m₁.loadedTravelDistance - m₂.loadedTravelDistance
    makespan := timeBetween makespan₁ makespan₂ }

end Metrics

structure MetricsComposition where
  currentMetrics : Metrics
  insertionMetrics : Metrics
  insertionMetricsSet : Bool
  diffInsertionMetrics : Metrics
  diffInsertionMetricsSet : Bool
deriving DecidableEq

namespace MetricsComposition

/-- The metrics of a task when nothing is known about its insertion. -/
def ofMetrics (m : Metrics) : MetricsComposition := ⟨m, m, false, m, false⟩

def updateCurrentMetrics (m : MetricsComposition) (updated : Metrics) : MetricsComposition :=
  { m with currentMetrics := updated }

def setDiffInsertionMetrics (m : MetricsComposition) (diff : Metrics) :
    Except String MetricsComposition :=
  if m.diffInsertionMetricsSet then .error "diff insertion metrics already set"
  else .ok { m with diffInsertionMetrics := diff, diffInsertionMetricsSet := true }

def fixInsertionMetrics (m : MetricsComposition) : Except String MetricsComposition :=
  if m.insertionMetricsSet then .error "insertion metrics already set"
  else .ok { m with insertionMetrics := m.currentMetrics, insertionMetricsSet := true }

def hasDiffInsertionMetrics (m : MetricsComposition) : Bool := m.diffInsertionMetricsSet

def getMetricsForAuction (m : MetricsComposition) : Metrics := m.diffInsertionMetrics

def gt (m₁ m₂ : MetricsComposition) : Bool :=
  m₁.getMetricsForAuction.utilityFunction > m₂.getMetricsForAuction.utilityFunction

def lt (m₁ m₂ : MetricsComposition) : Bool :=
  m₁.getMetricsForAuction.utilityFunction < m₂.getMetricsForAuction.utilityFunction

/-- Compositions are equal if their metrics for the auction have the same utility. -/
def beq (m₁ m₂ : MetricsComposition) : Bool :=
  m₁.getMetricsForAuction.utilityFunction = m₂.getMetricsForAuction.utilityFunction

end MetricsComposition

/-! ### Task management -/

/-- `AuctionBasedTaskManagement`, with states `σ` and insertion points `π`.

`canAddTask` is the check together with the insertion information it leaves
behind.  `tasks` is what an added task becomes a member of. -/
structure AuctionBasedTaskManagement (σ π : Type) where
  canAddTask : σ → ℕ → Option π → Option (MetricsComposition × π)
  addTask : σ → ℕ → Option π → σ × Bool
  tasks : σ → List ℕ
  mem_tasks_addTask : ∀ s task point, (addTask s task point).2 = true →
    ∀ t, t ∈ tasks (addTask s task point).1 ↔ t = task ∨ t ∈ tasks s

end Sola.Daisi
