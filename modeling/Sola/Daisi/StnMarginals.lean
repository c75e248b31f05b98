import Mathlib.Algebra.Group.Prod
import Mathlib.Algebra.BigOperators.Group.List.Basic
import Sola.Daisi.SimpleTaskManagement
import Sola.Daisi.StnInsertion

/-!
The metrics of an insertion
(`updateCurrentOrdering` and `addBestOrdering` of `stn_task_management.cpp`).

The loop that should add the metrics of all tasks to the total overwrites the
total in every round, so what is left are the old total and the metrics of the
last task of the ordering.  The difference that is stored for the new task is
therefore what the last task costs, wherever the new one has been inserted.
-/

namespace Sola.Daisi

open Sola.Lib Action List

namespace StnTaskManagement

/-! ### Costs -/

/-- The metrics that are added up. -/
def costs (m : Metrics) : ℚ × ℚ × ℚ × ℚ × ℚ :=
  (m.emptyTravelTime, m.loadedTravelTime, m.actionTime, m.emptyTravelDistance,
    m.loadedTravelDistance)

def currentCosts (info : TaskInsertInfo) : ℚ × ℚ × ℚ × ℚ × ℚ :=
  costs info.metricsComposition.currentMetrics

/-- What all tasks of an ordering cost. -/
def costsOf (infos : List TaskInsertInfo) : ℚ × ℚ × ℚ × ℚ × ℚ := (infos.map currentCosts).sum

/-- What all tasks together cost more after an insertion. -/
def marginalCosts (s s' : StnTaskManagement) : ℚ × ℚ × ℚ × ℚ × ℚ :=
  costsOf s'.currentOrdering - costsOf s.currentOrdering

/-- The metrics stored for the insertion of the task are its marginal costs. -/
def DiffIsMarginal (task : Task) (s s' : StnTaskManagement) : Prop :=
  ∃ newest ∈ s'.currentOrdering, s'.newestTaskInsertInfo = some newest ∧ newest.task = task ∧
    costs newest.metricsComposition.diffInsertionMetrics = marginalCosts s s'

/-- The task can be inserted at a point that `addBestOrdering` looks at. -/
def Feasible (amr : AmrMobility) (task : Task) (s : StnTaskManagement) (p : StnInsertionPoint)
    (s' : StnTaskManagement) : Prop :=
  (∃ s₁ info points, prepareTask amr task s = (s₁, .ok (some info)) ∧
    s₁.calcInsertionPoints = .ok points ∧ p ∈ points) ∧
    addTask amr task (some p) s = (s', .ok true)

section Costs

variable {m m₁ m₂ : Metrics}

theorem costs_add (h : m₁.add m₂ = .ok m) : costs m = costs m₁ + costs m₂ := by
  obtain ⟨_, -, h⟩ := bind_eq_ok.mp h
  obtain ⟨_, -, h⟩ := bind_eq_ok.mp h
  obtain rfl := Except.ok.inj h
  rfl

theorem costs_sub (h : m₁.sub m₂ = .ok m) : costs m = costs m₁ - costs m₂ := by
  obtain ⟨_, -, h⟩ := bind_eq_ok.mp h
  obtain ⟨_, -, h⟩ := bind_eq_ok.mp h
  obtain rfl := Except.ok.inj h
  rfl

/-- Only the last task counts. -/
theorem totalMetrics_eq_ok {previous total total' : Metrics} {infos : List TaskInsertInfo}
    (hnonempty : infos ≠ []) (h : totalMetrics previous infos total = .ok total') :
    costs total' = costs previous + (infos.map currentCosts).getLastD 0 := by
  induction infos generalizing total with
  | nil => exact absurd rfl hnonempty
  | cons info infos ih =>
    obtain ⟨sum, hsum, h⟩ := bind_eq_ok.mp h
    cases infos with
    | nil =>
      obtain rfl := Except.ok.inj h
      exact costs_add hsum
    | cons next infos => exact ih (by simp) h

theorem costsOf_dropLast (infos : List TaskInsertInfo) :
    costsOf infos.dropLast + (infos.map currentCosts).getLastD 0 = costsOf infos := by
  rcases eq_nil_or_concat infos with rfl | ⟨infos, info, rfl⟩
  · exact add_zero _
  · simp [costsOf]

end Costs

/-! ### The newest task -/

section Newest

variable {amr : AmrMobility} {s s' : StnTaskManagement} {task : Task} {info : TaskInsertInfo}
  {p : StnInsertionPoint} {m : MetricsComposition}

/-- A task and whether the metrics of its insertion are set. -/
def mark (info : TaskInsertInfo) : Task × Bool :=
  (info.task, info.metricsComposition.hasDiffInsertionMetrics)

theorem map_mark_updatedInfos {k : ℕ} {infos infos' : List TaskInsertInfo}
    (h : s.updatedInfos amr k infos = .ok infos') : infos'.map mark = infos.map mark := by
  induction infos generalizing k infos' with
  | nil =>
    obtain rfl := Except.ok.inj h
    rfl
  | cons info infos ih =>
    obtain ⟨_, -, h⟩ := bind_eq_ok.mp h
    obtain ⟨rest, hrest, h⟩ := bind_eq_ok.mp h
    obtain rfl := Except.ok.inj h
    exact congrArg (mark info :: ·) (ih hrest)

theorem eq_of_countP_eq_one {α : Type} {q : α → Bool} {l : List α} (h : l.countP q = 1) {x y : α}
    (hx : x ∈ l ∧ q x = true) (hy : y ∈ l ∧ q y = true) : x = y := by
  rw [countP_eq_length_filter, length_eq_one_iff] at h
  obtain ⟨z, hz⟩ := h
  have hmem : ∀ w, w ∈ l ∧ q w = true → w = z :=
    fun w hw => mem_singleton.mp (hz ▸ mem_filter.mpr hw)
  rw [hmem x hx, hmem y hy]

/-- The metrics stored for the insertion of the task are those of the last task. -/
def StoresLast (task : Task) (s : StnTaskManagement) (m : MetricsComposition) : Prop :=
  ∃ newest ∈ s.currentOrdering, s.newestTaskInsertInfo = some newest ∧ newest.task = task ∧
    newest.metricsComposition = m ∧
    costs m.diffInsertionMetrics = (s.currentOrdering.map currentCosts).getLastD 0

theorem updateCurrentOrdering_newest (hmem : (task, false) ∈ s.currentOrdering.map mark)
    (h : updateCurrentOrdering amr s = (s', .ok ())) : ∃ m, StoresLast task s' m := by
  obtain ⟨infos, total, diff, infos', newest, hinfos, htotal, hcount, hdiff, hfix, rfl⟩ :=
    updateCurrentOrdering_eq_ok h
  have hperm : (sortByStart infos).Perm infos := perm_insertionSort _ _
  -- the new task is the only one that is not marked
  obtain ⟨i, hi, hmark⟩ : ∃ i ∈ sortByStart infos, mark i = (task, false) := by
    rw [← map_mark_updatedInfos hinfos] at hmem
    obtain ⟨i, hi, hmark⟩ := mem_map.mp hmem
    exact ⟨i, hperm.mem_iff.mpr hi, hmark⟩
  obtain ⟨htask, hunset⟩ := Prod.mk.inj hmark
  rcases fixNewTask_eq_ok hfix with ⟨hall, -⟩ | ⟨before, new, after, m, hsplit, hnew, hcurrent,
    rfl, rfl, rfl⟩
  · rw [hall i hi] at hunset
    cases hunset
  · have hnewMem : new ∈ sortByStart infos := by simp [hsplit]
    obtain rfl : i = new :=
      eq_of_countP_eq_one hcount ⟨hi, by simp [hunset]⟩ ⟨hnewMem, by simp [hnew]⟩
    refine ⟨m, _, by simp, rfl, htask, rfl, ?_⟩
    have hcosts : (before ++ { i with metricsComposition := m } :: after).map currentCosts =
        (sortByStart infos).map currentCosts := by
      simp [hsplit, currentCosts, hcurrent]
    simp only
    rw [hcosts, costs_sub hdiff, totalMetrics_eq_ok (ne_nil_of_mem hi) htotal,
      add_sub_cancel_left]

theorem insertAt_newest (hunset : info.metricsComposition.hasDiffInsertionMetrics = false)
    (h : insertAt amr p info s = (s', .ok (some m))) : StoresLast info.task s' m := by
  obtain ⟨s₁, hadd, ⟨-, hnone⟩ | ⟨hsolve, newest, hnewest, heq⟩⟩ := insertAt_eq_ok.mp h
  · cases hnone
  obtain rfl := Option.some.inj heq
  obtain ⟨-, ⟨-, hupdate⟩ | ⟨hfalse, -⟩⟩ := solve_eq_ok hsolve
  · obtain ⟨hle, hordering⟩ := addOrdering_eq_ok hadd
    have hmem : (info.task, false) ∈ s₁.currentOrdering.map mark := by
      rw [hordering]
      exact mem_map.mpr ⟨info, (mem_insertIdx hle).mpr (Or.inl rfl),
        by rw [mark, hunset]⟩
    obtain ⟨m, newest', hnewestMem, hnewest', htask, rfl, hcosts⟩ :=
      updateCurrentOrdering_newest (s := { s₁ with dGraph := s₁.network.solve.1 }) hmem hupdate
    obtain rfl := Option.some.inj (hnewest.symm.trans hnewest')
    exact ⟨newest, hnewestMem, hnewest, htask, rfl, hcosts⟩
  · cases hfalse

theorem StoresLast.costs_eq (h : StoresLast task s' m)
    (hsame : costsOf s'.currentOrdering.dropLast = costsOf s.currentOrdering) :
    costs m.diffInsertionMetrics = marginalCosts s s' := by
  obtain ⟨newest, -, -, -, -, hcosts⟩ := h
  rw [hcosts, marginalCosts, ← costsOf_dropLast s'.currentOrdering, hsame, add_sub_cancel_left]

theorem StoresLast.isMarginal_iff (h : StoresLast task s' m) :
    DiffIsMarginal task s s' ↔
      costsOf s'.currentOrdering.dropLast = costsOf s.currentOrdering := by
  have hequal := h.costs_eq (s := s)
  obtain ⟨newest, hmem, hnewest, htask, rfl, hcosts⟩ := h
  refine ⟨?_, fun hsame => ⟨newest, hmem, hnewest, htask, hequal hsame⟩⟩
  rintro ⟨newest', -, hnewest', -, hmarginal⟩
  obtain rfl := Option.some.inj (hnewest.symm.trans hnewest')
  have hsum := costsOf_dropLast s'.currentOrdering
  rw [← hcosts, hmarginal, marginalCosts] at hsum
  rw [eq_sub_of_add_eq hsum, sub_sub_cancel]

variable {point : Option StnInsertionPoint}

/-- A successful run ends with an insertion at some point, the best one if none is given. -/
theorem addTask_newest (h : addTask amr task point s = (s', .ok true)) :
    ∃ s₁ info p m s₂, prepareTask amr task s = (s₁, .ok (some info)) ∧
      insertAt amr p info s₁ = (s₂, .ok (some m)) ∧ StoresLast task s' m ∧
      s' = { s₂ with latestCalculatedInsertionInfo := some (m, p) } ∧
      (point = some p ∨ point = none ∧ ∃ points, s₁.calcInsertionPoints = .ok points ∧
        p ∈ points ∧ ∀ q ∈ points, ∀ n, (insertAt amr q info s₁).2 = .ok (some n) →
          utility n ≤ utility m) := by
  obtain ⟨s₁, info, s₂, latest, hprepare, hinsert, rfl⟩ := addTask_eq_true.mp h
  obtain ⟨-, rfl, hmetrics⟩ := prepareTask_info hprepare
  have hunset : info.metricsComposition.hasDiffInsertionMetrics = false := by
    rw [hmetrics]
    rfl
  cases point with
  | some p =>
    obtain ⟨s₃, metrics, hrun, hinsert⟩ := bind_run_eq_ok.mp hinsert
    obtain ⟨rfl, heq⟩ := pure_run_eq_ok.mp hinsert
    obtain ⟨m, rfl, rfl⟩ := Option.map_eq_some_iff.mp heq
    have hstores := insertAt_newest hunset hrun
    exact ⟨s₁, info, p, m, s₃, hprepare, hrun, hstores, rfl, Or.inl rfl⟩
  | none =>
    obtain ⟨points, best, hpoints, hbest, ⟨-, -, hnone⟩ | ⟨p, m, rfl, hrun, heq⟩⟩ :=
      addBestOrdering_eq_ok hinsert
    · cases hnone
    · obtain rfl := Option.some.inj heq
      obtain ⟨hmem, -, hall⟩ := bestPoint_eq_ok hbest
      have hstores := insertAt_newest hunset hrun
      exact ⟨s₁, info, p, m, s₂, hprepare, hrun, hstores, rfl,
        Or.inr ⟨rfl, points, hpoints, (hmem.resolve_left (by simp)).1, hall⟩⟩

end Newest

/-! ### Tasks along a line -/

/-- A vehicle at 0 that needs a second for every meter along a line. -/
def railCar : AmrMobility where
  position := (0, 0)
  pathDuration start path := |(path.getLastD start).1 - start.1|
  pathDistance start path := |(path.getLastD start).1 - start.1|
  loadTime := 0
  unloadTime := 0
  pathDuration_nonneg _ _ := abs_nonneg _
  loadTime_nonneg := SimpleTaskManagement.teleporter.loadTime_nonneg
  unloadTime_nonneg := SimpleTaskManagement.teleporter.unloadTime_nonneg

/-- A task that carries something one meter further. -/
def carryFrom (uuid : ℕ) (x : ℚ) : Task :=
  ⟨uuid, uuid, [⟨uuid, .transport [(x, 0)] (x + 1, 0)⟩], none, []⟩

def railCarOn : List Task → StnTaskManagement
  | [] => init
  | task :: tasks => (addTask railCar task none (railCarOn tasks)).1

end StnTaskManagement

end Sola.Daisi
