import Sola.Daisi.TaskManagement
import Sola.Lib.Action

/-!
The layers of a precedence graph
(`daisi/src/cpps/logical/algorithms/assignment/layered_precedence_graph.cpp`).

A vertex is found by the uuid of its task, so the vertices are a list of
uuids together with what is stored for each of them.
-/

namespace Sola.Daisi

open Sola.Lib Action

inductive PrecedenceGraphLayer
  | kFree
  | kSecond
  | kHidden
  | kScheduled
  | kNone
deriving DecidableEq

/-- What a vertex stores next to its task. -/
structure LPCVertex where
  layer : PrecedenceGraphLayer := .kNone
  latestFinish : Option TimePoint := none
  earliestValidStart : Option TimePoint := none
  scheduled : Bool := false

/-- The tasks of a material flow and the edges between them. -/
structure PrecedenceGraph where
  tasks : List ℕ
  nodup : tasks.Nodup
  hasEdge : ℕ → ℕ → Bool
  abilityRequirement : ℕ → AmrStaticAbility

structure LayeredPrecedenceGraph where
  flow : PrecedenceGraph
  vertices : ℕ → LPCVertex

namespace LayeredPrecedenceGraph

abbrev Handler (α : Type) : Type := Action LayeredPrecedenceGraph α

/-- The graph of a flow before its layers are set. -/
def ofFlow (flow : PrecedenceGraph) : LayeredPrecedenceGraph := ⟨flow, fun _ => {}⟩

variable (g : LayeredPrecedenceGraph) (task : ℕ)

def tasks (g : LayeredPrecedenceGraph) : List ℕ := g.flow.tasks

def layer (g : LayeredPrecedenceGraph) (task : ℕ) : PrecedenceGraphLayer := (g.vertices task).layer

def scheduled (g : LayeredPrecedenceGraph) (task : ℕ) : Bool := (g.vertices task).scheduled

def getIncomingEdges : List ℕ :=
  g.tasks.filter fun parent => g.flow.hasEdge parent task

def modifyVertex (f : LPCVertex → LPCVertex) : Handler Unit :=
  Action.modify fun g =>
    { g with vertices := Function.update g.vertices task (f (g.vertices task)) }

def setLayer (layer : PrecedenceGraphLayer) : Handler Unit :=
  modifyVertex task fun vertex => { vertex with layer := layer }

/-! ### Layers -/

def initLayers : Handler Unit := do
  let g ← Action.get
  Action.forEach g.tasks fun task => do
    let g ← Action.get
    if (g.getIncomingEdges task).isEmpty then setLayer task .kFree
  let g ← Action.get
  let free := g.tasks.filter fun task => g.layer task = .kFree
  Action.forEach free fun freeTask =>
    Action.forEach g.tasks fun task => do
      let g ← Action.get
      if freeTask ≠ task ∧ g.flow.hasEdge freeTask task then
        if g.layer task = .kFree then
          Action.throw "Conceptionally, the algorithm should not allow this state."
        if g.layer task ≠ .kSecond then setLayer task .kSecond
  Action.forEach g.tasks fun task => do
    let g ← Action.get
    if g.layer task ≠ .kFree ∧ g.layer task ≠ .kSecond then setLayer task .kHidden

def updateLayersHiddenToSecond (task' : ℕ) : Handler Unit := do
  let g ← Action.get
  Action.forEach g.tasks fun task'' => do
    let g ← Action.get
    if g.layer task'' = .kHidden ∧ g.flow.hasEdge task' task'' ∧
        (g.getIncomingEdges task'').all (fun parent =>
          g.layer parent = .kScheduled || g.layer parent = .kFree) then
      setLayer task'' .kSecond

/-- The finish times of tasks; every one of them has to be known. -/
def latestFinishes (g : LayeredPrecedenceGraph) : List ℕ → Except String (List TimePoint)
  | [] => .ok []
  | task :: tasks => do
      match (g.vertices task).latestFinish with
      | none => .error "bad optional access"
      | some finish => do
          let finishes ← g.latestFinishes tasks
          return finish :: finishes

def updateLayersSecondToFree : Handler Unit := do
  let g ← Action.get
  Action.forEach g.tasks fun task' => do
    let g ← Action.get
    if g.layer task' = .kSecond ∧ g.flow.hasEdge task task' ∧
        (g.getIncomingEdges task').all (fun parent => g.layer parent = .kScheduled) then
      setLayer task' .kFree
      let finishes ← Action.lift (g.latestFinishes (g.getIncomingEdges task'))
      modifyVertex task' fun vertex => { vertex with earliestValidStart := finishes.max? }
      updateLayersHiddenToSecond task'

/-- All free tasks are scheduled. -/
def next : Handler Unit := do
  let g ← Action.get
  let free := g.tasks.filter fun task => g.layer task = .kFree
  Action.forEach free fun task => setLayer task .kScheduled
  Action.forEach free updateLayersSecondToFree

/-! ### Vertices -/

def getAuctionableTasks : List ℕ :=
  g.tasks.filter fun task => g.layer task = .kFree && !g.scheduled task

def areAllTasksScheduled : Bool :=
  g.tasks.all fun task => g.layer task = .kScheduled

def areAllFreeTasksScheduled : Bool :=
  g.tasks.all fun task => g.layer task ≠ .kFree || g.scheduled task

def getVertex : Handler LPCVertex := do
  let g ← Action.get
  if task ∈ g.tasks then return g.vertices task
  else Action.throw "Vertex with task uuid does not exist."

def isTaskFree : Handler Bool := do
  let vertex ← getVertex task
  return vertex.layer = .kFree

def isFreeTaskScheduled : Handler Bool := do
  let vertex ← getVertex task
  if vertex.layer ≠ .kFree then Action.throw "Task is not free"
  else return vertex.scheduled

def setEarliestValidStartTime (time : TimePoint) : Handler Unit := do
  let g ← Action.get
  if task ∉ g.tasks then
    Action.throw "Vertex for task uuid not found in LayeredPrecedenceGraph."
  else if g.layer task ≠ .kFree then
    Action.throw "Earliest start time of Task can only be set if the task is on the free layer."
  else modifyVertex task fun vertex => { vertex with earliestValidStart := some time }

def setLatestFinishTime (time : TimePoint) : Handler Unit := do
  let g ← Action.get
  if task ∉ g.tasks then
    Action.throw "Vertex for task uuid not found in LayeredPrecedenceGraph."
  else if g.layer task ≠ .kFree then
    Action.throw
      "Latest start time of Task can only be set if the task is on the free layer after its scheduling."
  else modifyVertex task fun vertex => { vertex with latestFinish := some time }

def setTaskScheduled : Handler Unit := do
  let g ← Action.get
  if task ∉ g.tasks then Action.throw "Vertex with task uuid does not exist."
  else if g.layer task ≠ .kFree then
    Action.throw "Only vertices from free layer can be set as scheduled. "
  else modifyVertex task fun vertex => { vertex with scheduled := true }

/-! ### Runs of the operations -/

section Primitives

/-- The graph with another vertex of a task. -/
def withVertex (f : LPCVertex → LPCVertex) : LayeredPrecedenceGraph :=
  { g with vertices := Function.update g.vertices task (f (g.vertices task)) }

variable {E : LayeredPrecedenceGraph → Prop} {g task} {t : ℕ}

theorem wp_modifyVertex {Q : Unit → LayeredPrecedenceGraph → Prop} {f : LPCVertex → LPCVertex} :
    wp (modifyVertex task f) Q E g ↔ Q () (g.withVertex task f) := Iff.rfl

theorem vertices_withVertex {f : LPCVertex → LPCVertex} :
    (g.withVertex task f).vertices t = if t = task then f (g.vertices t) else g.vertices t := by
  simp only [withVertex, Function.update_apply]
  grind

end Primitives

end LayeredPrecedenceGraph

end Sola.Daisi
