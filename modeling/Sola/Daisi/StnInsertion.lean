import Sola.Daisi.StnTaskManagement
import Sola.Lib.Throwing

/-!
What a run of `addTask` does.

A run prepares the task, which enters its orders and its precedences into the
network, and then inserts it into the ordering, at a given point or at the best
one.
-/

namespace Sola.Daisi

open Sola.Lib Action List SimpleTemporalNetwork

variable {p : StnInsertionPoint} {result : Option TaskInsertInfo}

namespace StnTaskManagement

/-! ### The parts of a run -/

/-- Everything up to the insertion.  There is no result if the task would have to start in the
past. -/
def prepareTask (amr : AmrMobility) (task : Task) : Handler (Option TaskInsertInfo) := do
  setLatest none
  if task.orders.isEmpty then Action.throw "Task must have at least one order"
  else
    let info ← addOrders amr none task.orders ⟨task, [], .ofMetrics {}⟩
    match info with
    | none => return none
    | some info =>
      let first ← Action.lift (firstOrder task)
      Action.forEach task.precedingTasks fun name => do
        let startVertex ← getVertexOfOrder first true
        addPrecedenceConstraintBetweenTask startVertex name
      return some info

/-- The insertion at the given point, or else at the best one. -/
def insertTask (amr : AmrMobility) (info : TaskInsertInfo) :
    Option StnInsertionPoint → Handler (Option (MetricsComposition × StnInsertionPoint))
  | some point => do
      let metrics ← insertAt amr point info
      return metrics.map (·, point)
  | none => addBestOrdering amr info

section Runs

variable {amr : AmrMobility} {s s' : StnTaskManagement} {task : Task} {info : TaskInsertInfo}
  {point : Option StnInsertionPoint}

theorem onNetwork_run {α : Type} {x : SimpleTemporalNetwork.Handler StnTaskManagementVertex α}
    {a : α} (h : onNetwork x s = (s', .ok a)) :
    ∃ g, x s.network = (g, .ok a) ∧ s' = { s with network := g } :=
  zoom_run_eq_ok.mp h

variable {order : TaskOrder} {isStart : Bool} {v : StnTaskManagementVertex}
  {previous : Option TaskOrder} {orders : List TaskOrder}

theorem vertexOf_eq_ok (h : s.vertexOf order isStart = .ok v) :
    v = (if isStart then .start order.uuid else .finish order.uuid) ∧
      v ∈ s.network.vertices := by
  unfold vertexOf at h
  simp only at h
  split_ifs at h with hstart hmem hmem
  · obtain rfl := Except.ok.inj h
    exact ⟨by rw [if_pos hstart], hmem⟩
  · obtain rfl := Except.ok.inj h
    exact ⟨by rw [if_neg hstart], hmem⟩

theorem getVertexOfOrder_run (h : getVertexOfOrder order isStart s = (s', .ok v)) :
    s' = s ∧ v = (if isStart then .start order.uuid else .finish order.uuid) ∧
      v ∈ s.network.vertices := by
  unfold getVertexOfOrder at h
  rw [get_bind_run] at h
  have hv : s.vertexOf order isStart = .ok v := congrArg Prod.snd h
  obtain ⟨hv, hmem⟩ := vertexOf_eq_ok hv
  exact ⟨(congrArg Prod.fst h).symm, hv, hmem⟩

/-- The earliest start matters for the first order of a task with a window. -/
theorem addEarliestStart_eq_ok {inTime : Bool}
    (h : addEarliestStart task previous v s = (s', .ok inTime)) :
    ((task.timeWindow = none ∨ previous ≠ none) ∧ s' = s ∧ inTime = true) ∨
      previous = none ∧ ∃ window earliest, task.timeWindow = some window ∧
        window.getAbsoluteEarliestStart = .ok earliest ∧
        ((earliest < s.timeNow ∧ s' = s ∧ inTime = false) ∨ s.timeNow ≤ earliest ∧
          onNetwork (addUnaryConstraint v (some (earliest - s.timeNow)) none)
            s = (s', .ok ()) ∧ inTime = true) := by
  unfold addEarliestStart at h
  cases htime : task.timeWindow with
  | none =>
    rw [htime] at h
    obtain ⟨rfl, rfl⟩ := pure_run_eq_ok.mp h
    exact Or.inl ⟨Or.inl rfl, rfl, rfl⟩
  | some window =>
    rw [htime] at h
    cases previous with
    | some p =>
      obtain ⟨rfl, rfl⟩ := pure_run_eq_ok.mp h
      exact Or.inl ⟨Or.inr (by simp), rfl, rfl⟩
    | none =>
      simp only [get_bind_run] at h
      obtain ⟨earliest, hearliest, h⟩ := lift_bind_run_eq_ok.mp h
      refine Or.inr ⟨rfl, window, earliest, rfl, hearliest, ?_⟩
      split_ifs at h with hpast
      · obtain ⟨rfl, rfl⟩ := pure_run_eq_ok.mp h
        exact Or.inl ⟨sub_neg.mp hpast, rfl, rfl⟩
      · obtain ⟨s₁, _, hadd, h⟩ := bind_run_eq_ok.mp h
        obtain ⟨rfl, rfl⟩ := pure_run_eq_ok.mp h
        exact Or.inr ⟨sub_nonneg.mp (not_lt.mp hpast), hadd, rfl⟩

/-- One turn of the loop: the task starts in the past, or the order is put into
the network and the loop goes on with the others. -/
theorem addOrders_cons_eq_ok
    (h : addOrders amr previous (order :: orders) info s = (s', .ok result)) :
    ∃ s₁ inTime, addEarliestStart info.task previous (.start order.uuid)
        { s with network :=
          (s.network.addVertex (.start order.uuid)).addVertex (.finish order.uuid) } =
            (s₁, .ok inTime) ∧
      ((inTime = false ∧ s' = s₁ ∧ result = none) ∨ inTime = true ∧
        ∃ s₂ s₃ duration s₄ location,
          addLatestFinish info.task orders (.finish order.uuid) s₁ = (s₂, .ok ()) ∧
          addSequence previous (.start order.uuid) s₂ = (s₃, .ok ()) ∧
          calcOrderDurationForInsert amr order info = .ok duration ∧
          onNetwork (addBinaryConstraint (.start order.uuid)
            (.finish order.uuid) (some duration) none) s₃ = (s₄, .ok ()) ∧
          nextEndLocation order info = .ok location ∧
          addOrders amr (some order) orders
            { info with endLocations := info.endLocations ++ [location] } s₄ =
              (s', .ok result)) := by
  unfold addOrders at h
  simp only [modify_bind_run] at h
  obtain ⟨s₁, inTime, hearliest, h⟩ := bind_run_eq_ok.mp h
  refine ⟨s₁, inTime, hearliest, ?_⟩
  cases inTime with
  | false =>
    obtain ⟨rfl, rfl⟩ := pure_run_eq_ok.mp h
    exact Or.inl ⟨rfl, rfl, rfl⟩
  | true =>
    obtain ⟨s₂, _, hlatest, h⟩ := bind_run_eq_ok.mp h
    obtain ⟨s₃, _, hsequence, h⟩ := bind_run_eq_ok.mp h
    obtain ⟨duration, hduration, h⟩ := lift_bind_run_eq_ok.mp h
    obtain ⟨s₄, _, hconstraint, h⟩ := bind_run_eq_ok.mp h
    obtain ⟨location, hlocation, h⟩ := lift_bind_run_eq_ok.mp h
    exact Or.inr ⟨rfl, s₂, s₃, duration, s₄, location, hlatest, hsequence, hduration,
      hconstraint, hlocation, h⟩

/-- The metrics of the insertion are set at the first task without them. -/
theorem fixNewTask_eq_ok {diff : Metrics} {infos infos' : List TaskInsertInfo}
    {newest : Option TaskInsertInfo} (h : fixNewTask diff infos = .ok (infos', newest)) :
    ((∀ i ∈ infos, i.metricsComposition.hasDiffInsertionMetrics = true) ∧ infos' = infos ∧
      newest = none) ∨
    ∃ before new after m, infos = before ++ new :: after ∧
      new.metricsComposition.hasDiffInsertionMetrics = false ∧
      m.currentMetrics = new.metricsComposition.currentMetrics ∧ m.diffInsertionMetrics = diff ∧
      infos' = before ++ { new with metricsComposition := m } :: after ∧
      newest = some { new with metricsComposition := m } := by
  induction infos generalizing infos' newest with
  | nil =>
    cases h
    exact Or.inl ⟨by simp, rfl, rfl⟩
  | cons i infos ih =>
    unfold fixNewTask at h
    split_ifs at h with hset
    · obtain ⟨⟨rest, newest'⟩, hrest, h⟩ := bind_eq_ok.mp h
      cases h
      rcases ih hrest with ⟨hall, rfl, rfl⟩ | ⟨before, new, after, m, rfl, hnew, hm, hdiff, rfl,
        rfl⟩
      · exact Or.inl ⟨forall_mem_cons.mpr ⟨hset, hall⟩, rfl, rfl⟩
      · exact Or.inr ⟨i :: before, new, after, m, rfl, hnew, hm, hdiff, rfl, rfl⟩
    · obtain ⟨m, hm, h⟩ := bind_eq_ok.mp h
      obtain ⟨m', hm', h⟩ := bind_eq_ok.mp h
      cases h
      unfold MetricsComposition.setDiffInsertionMetrics at hm
      unfold MetricsComposition.fixInsertionMetrics at hm'
      split_ifs at hm hm'
      cases hm
      cases hm'
      exact Or.inr ⟨[], i, infos,
        { i.metricsComposition with
          insertionMetrics := i.metricsComposition.currentMetrics, insertionMetricsSet := true
          diffInsertionMetrics := diff, diffInsertionMetricsSet := true },
        rfl, Bool.eq_false_iff.mpr hset, rfl, rfl, rfl, rfl⟩

theorem updateCurrentOrdering_eq_ok (h : updateCurrentOrdering amr s = (s', .ok ())) :
    ∃ infos total diff infos' newest, s.updatedInfos amr 0 s.currentOrdering = .ok infos ∧
      totalMetrics s.currentTotalMetrics (sortByStart infos) s.currentTotalMetrics = .ok total ∧
      (sortByStart infos).countP (fun info => !info.metricsComposition.hasDiffInsertionMetrics) =
        1 ∧
      total.sub s.currentTotalMetrics = .ok diff ∧
      fixNewTask diff (sortByStart infos) = .ok (infos', newest) ∧
      s' = { s with
        currentOrdering := infos'
        currentTotalMetrics := total
        newestTaskInsertInfo := newest } := by
  unfold updateCurrentOrdering at h
  rw [get_bind_run] at h
  obtain ⟨infos, hinfos, h⟩ := lift_bind_run_eq_ok.mp h
  obtain ⟨total, htotal, h⟩ := lift_bind_run_eq_ok.mp h
  split_ifs at h with hcount
  · cases h
  · obtain ⟨diff, hdiff, h⟩ := lift_bind_run_eq_ok.mp h
    obtain ⟨⟨infos', newest⟩, hfix, h⟩ := lift_bind_run_eq_ok.mp h
    exact ⟨infos, total, diff, infos', newest, hinfos, htotal, not_not.mp hcount, hdiff, hfix,
      (congrArg Prod.fst h).symm⟩

theorem solve_eq_ok {success : Bool} (h : StnTaskManagement.solve amr s = (s', .ok success)) :
    s.network.solve = (s.network.solve.1, success) ∧
      ((success = true ∧
        updateCurrentOrdering amr { s with dGraph := s.network.solve.1 } = (s', .ok ())) ∨
      success = false ∧ s' = { s with dGraph := s.network.solve.1 }) := by
  unfold StnTaskManagement.solve at h
  rw [get_bind_run] at h
  simp only [modify_bind_run] at h
  split_ifs at h with hsuccess
  · obtain ⟨s₁, _, hupdate, h⟩ := bind_run_eq_ok.mp h
    obtain ⟨rfl, rfl⟩ := pure_run_eq_ok.mp h
    exact ⟨Prod.ext rfl hsuccess, Or.inl ⟨rfl, hupdate⟩⟩
  · obtain ⟨rfl, rfl⟩ := pure_run_eq_ok.mp h
    exact ⟨Prod.ext rfl (Bool.eq_false_iff.mpr hsuccess), Or.inr ⟨rfl, rfl⟩⟩

theorem insertAt_eq_ok {result : Option MetricsComposition} :
    insertAt amr p info s = (s', .ok result) ↔
      ∃ s₁, addOrderingConstraintBetweenTasks amr p info s = (s₁, .ok ()) ∧
        ((StnTaskManagement.solve amr s₁ = (s', .ok false) ∧ result = none) ∨
          StnTaskManagement.solve amr s₁ = (s', .ok true) ∧
            ∃ newest, s'.newestTaskInsertInfo = some newest ∧
              result = some newest.metricsComposition) := by
  unfold insertAt
  rw [bind_run_eq_ok]
  constructor
  · rintro ⟨s₁, _, hadd, h⟩
    obtain ⟨s₂, success, hsolve, h⟩ := bind_run_eq_ok.mp h
    cases success with
    | false =>
      obtain ⟨rfl, rfl⟩ := pure_run_eq_ok.mp h
      exact ⟨s₁, hadd, Or.inl ⟨hsolve, rfl⟩⟩
    | true =>
      simp only [if_true, get_bind_run] at h
      cases hnewest : s₂.newestTaskInsertInfo with
      | none =>
        rw [hnewest] at h
        cases h
      | some newest =>
        rw [hnewest] at h
        obtain ⟨rfl, rfl⟩ := pure_run_eq_ok.mp h
        exact ⟨s₁, hadd, Or.inr ⟨hsolve, newest, hnewest, rfl⟩⟩
  · rintro ⟨s₁, hadd, ⟨hsolve, rfl⟩ | ⟨hsolve, newest, hnewest, rfl⟩⟩
    · exact ⟨s₁, (), hadd, bind_run_eq_ok.mpr ⟨s', false, hsolve, rfl⟩⟩
    · refine ⟨s₁, (), hadd, bind_run_eq_ok.mpr ⟨s', true, hsolve, ?_⟩⟩
      simp only [if_true, get_bind_run, hnewest]
      rfl

/-- The order of metrics compositions. -/
def utility (m : MetricsComposition) : ℚ := m.getMetricsForAuction.utilityFunction

/-- The best point after one more has been tried. -/
def nextBest (p : StnInsertionPoint) :
    Option MetricsComposition → Option (StnInsertionPoint × MetricsComposition) →
      Option (StnInsertionPoint × MetricsComposition)
  | none, best => best
  | some m, none => some (p, m)
  | some m, some (q, n) => if n.lt m then some (p, m) else some (q, n)

section Best

variable {best : Option (StnInsertionPoint × MetricsComposition)} {p q : StnInsertionPoint}
  {m : MetricsComposition} {result : Option MetricsComposition} {points : List StnInsertionPoint}

theorem bestPoint_cons : bestPoint amr info s (p :: points) best =
    (insertAt amr p info s).2 >>= fun result =>
      bestPoint amr info s points (nextBest p result best) := by
  refine bind_congr fun result => ?_
  cases result with
  | none => rfl
  | some m =>
    cases best with
    | none => rfl
    | some old => rfl

theorem nextBest_cases (h : nextBest p result best = some (q, m)) :
    best = some (q, m) ∨ q = p ∧ result = some m := by
  cases result with
  | none => exact Or.inl h
  | some n =>
    cases best with
    | none =>
      obtain ⟨rfl, rfl⟩ := Prod.mk.inj (Option.some.inj h)
      exact Or.inr ⟨rfl, rfl⟩
    | some old =>
      rw [nextBest] at h
      split_ifs at h
      · obtain ⟨rfl, rfl⟩ := Prod.mk.inj (Option.some.inj h)
        exact Or.inr ⟨rfl, rfl⟩
      · exact Or.inl h

/-- It is as good as the old one and as the new one. -/
theorem utility_le_nextBest (hm : (∃ q, best = some (q, m)) ∨ result = some m) :
    ∃ q n, nextBest p result best = some (q, n) ∧ utility m ≤ utility n := by
  cases result with
  | none =>
    obtain ⟨q, rfl⟩ := hm.resolve_right (by simp)
    exact ⟨q, m, rfl, le_rfl⟩
  | some n =>
    cases best with
    | none =>
      obtain rfl := Option.some.inj (hm.resolve_left (by simp))
      exact ⟨p, n, rfl, le_rfl⟩
    | some old =>
      have hlt : old.2.lt n = true ↔ utility old.2 < utility n := decide_eq_true_iff
      have hm : m = old.2 ∨ m = n := by
        rcases hm with ⟨q, heq⟩ | heq
        · exact Or.inl (congrArg Prod.snd (Option.some.inj heq)).symm
        · exact Or.inr (Option.some.inj heq).symm
      rw [nextBest]
      split_ifs with hbetter
      · refine ⟨p, n, rfl, ?_⟩
        rcases hm with rfl | rfl
        · exact (hlt.mp hbetter).le
        · exact le_rfl
      · refine ⟨old.1, old.2, rfl, ?_⟩
        rcases hm with rfl | rfl
        · exact le_rfl
        · exact not_lt.mp fun hless => hbetter (hlt.mpr hless)

/-- The best point is one of those that were tried, and no other one is better. -/
theorem bestPoint_eq_ok (h : bestPoint amr info s points best = .ok (some (p, m))) :
    (best = some (p, m) ∨ p ∈ points ∧ (insertAt amr p info s).2 = .ok (some m)) ∧
      (∀ q n, best = some (q, n) → utility n ≤ utility m) ∧
      ∀ q ∈ points, ∀ n, (insertAt amr q info s).2 = .ok (some n) → utility n ≤ utility m := by
  induction points generalizing best with
  | nil =>
    obtain rfl := Except.ok.inj h
    refine ⟨Or.inl rfl, fun q n hbest => ?_, by simp⟩
    obtain ⟨rfl, rfl⟩ := Prod.mk.inj (Option.some.inj hbest)
    exact le_rfl
  | cons q points ih =>
    rw [bestPoint_cons] at h
    obtain ⟨result, hq, h⟩ := bind_eq_ok.mp h
    obtain ⟨hmem, hbetter, hall⟩ := ih h
    have hle : ∀ n, (∃ q', best = some (q', n)) ∨ result = some n → utility n ≤ utility m := by
      intro n hn
      obtain ⟨q', n', heq, hle⟩ := utility_le_nextBest (p := q) hn
      exact hle.trans (hbetter q' n' heq)
    refine ⟨?_, fun q' n heq => hle n (Or.inl ⟨q', heq⟩), fun q' hq' n hn => ?_⟩
    · rcases hmem with hold | ⟨hmem, hrun⟩
      · rcases nextBest_cases hold with hold | ⟨rfl, rfl⟩
        · exact Or.inl hold
        · exact Or.inr ⟨mem_cons_self, hq⟩
      · exact Or.inr ⟨mem_cons_of_mem _ hmem, hrun⟩
    · rcases mem_cons.mp hq' with rfl | hq'
      · exact hle n (Or.inr (Except.ok.inj (hq.symm.trans hn)))
      · exact hall q' hq' n hn

end Best

/-- The best point is the one at which the task is inserted. -/
theorem addBestOrdering_eq_ok {result : Option (MetricsComposition × StnInsertionPoint)}
    (h : addBestOrdering amr info s = (s', .ok result)) :
    ∃ points best, s.calcInsertionPoints = .ok points ∧
      bestPoint amr info s points none = .ok best ∧
      ((best = none ∧ s' = s ∧ result = none) ∨
        ∃ p m, best = some (p, m) ∧ insertAt amr p info s = (s', .ok (some m)) ∧
          result = some (m, p)) := by
  unfold addBestOrdering at h
  rw [get_bind_run] at h
  obtain ⟨points, hpoints, h⟩ := lift_bind_run_eq_ok.mp h
  obtain ⟨best, hbest, h⟩ := lift_bind_run_eq_ok.mp h
  refine ⟨points, best, hpoints, hbest, ?_⟩
  cases best with
  | none =>
    obtain ⟨rfl, rfl⟩ := pure_run_eq_ok.mp h
    exact Or.inl ⟨rfl, rfl, rfl⟩
  | some pair =>
    obtain ⟨p, m⟩ := pair
    obtain ⟨s₁, metrics, hinsert, h⟩ := bind_run_eq_ok.mp h
    cases metrics with
    | none => cases h
    | some metrics =>
      obtain ⟨rfl, rfl⟩ := pure_run_eq_ok.mp h
      -- the run is the one on the copy
      have hcopy := (bestPoint_eq_ok hbest).1.resolve_left (by simp)
      rw [hinsert] at hcopy
      obtain rfl := Option.some.inj (Except.ok.inj hcopy.2)
      exact Or.inr ⟨p, metrics, rfl, hinsert, rfl⟩

theorem addTask_eq : addTask amr task point = (do
    let info ← prepareTask amr task
    match info with
    | none => return false
    | some info =>
      let result ← insertTask amr info point
      match result with
      | none => return false
      | some latest =>
        setLatest (some latest)
        return true) := by
  unfold addTask prepareTask
  simp only [bind_assoc]
  refine bind_congr fun _ => ?_
  split_ifs
  · rfl
  simp only [bind_assoc]
  refine bind_congr fun info => ?_
  cases info with
  | none => rfl
  | some info =>
    simp only [bind_assoc]
    refine bind_congr fun first => bind_congr fun _ => ?_
    cases point with
    | none => rfl
    | some p =>
      simp only [insertTask, bind_assoc, pure_bind]
      refine bind_congr fun metrics => ?_
      cases metrics with
      | none => rfl
      | some metrics => rfl

theorem addTask_eq_true : addTask amr task point s = (s', .ok true) ↔
    ∃ s₁ info s₂ latest, prepareTask amr task s = (s₁, .ok (some info)) ∧
      insertTask amr info point s₁ = (s₂, .ok (some latest)) ∧
      s' = { s₂ with latestCalculatedInsertionInfo := some latest } := by
  rw [addTask_eq, bind_run_eq_ok]
  constructor
  · rintro ⟨s₁, info, hprepare, h⟩
    cases info with
    | none => cases h
    | some info =>
      obtain ⟨s₂, result, hinsert, h⟩ := bind_run_eq_ok.mp h
      cases result with
      | none => cases h
      | some latest => exact ⟨s₁, info, s₂, latest, hprepare, hinsert, (congrArg Prod.fst h).symm⟩
  · rintro ⟨s₁, info, s₂, latest, hprepare, hinsert, rfl⟩
    exact ⟨s₁, some info, hprepare, bind_run_eq_ok.mpr ⟨s₂, some latest, hinsert, rfl⟩⟩

theorem addTask_eq_false : addTask amr task point s = (s', .ok false) ↔
    prepareTask amr task s = (s', .ok none) ∨
      ∃ s₁ info, prepareTask amr task s = (s₁, .ok (some info)) ∧
        insertTask amr info point s₁ = (s', .ok none) := by
  rw [addTask_eq, bind_run_eq_ok]
  constructor
  · rintro ⟨s₁, info, hprepare, h⟩
    cases info with
    | none =>
      obtain ⟨rfl, -⟩ := pure_run_eq_ok.mp h
      exact Or.inl hprepare
    | some info =>
      obtain ⟨s₂, result, hinsert, h⟩ := bind_run_eq_ok.mp h
      cases result with
      | none =>
        obtain ⟨rfl, -⟩ := pure_run_eq_ok.mp h
        exact Or.inr ⟨s₁, info, hprepare, hinsert⟩
      | some latest => cases h
  · rintro (hprepare | ⟨s₁, info, hprepare, hinsert⟩)
    · exact ⟨s', none, hprepare, rfl⟩
    · exact ⟨s₁, some info, hprepare, bind_run_eq_ok.mpr ⟨s', none, hinsert, rfl⟩⟩

end Runs

end StnTaskManagement

/-! ### Networks grow -/

namespace SimpleTemporalNetwork

variable {V : Type} [DecidableEq V]

def numberOfWeights (g : SimpleTemporalNetwork V) (u v : V) : ℕ :=
  ((g.edge u v).map StnTaskManagementEdge.getNumberOfWeights).getD 0

/-- Vertices are appended and no weights are lost. -/
structure Grown (g g' : SimpleTemporalNetwork V) : Prop where
  vertices : g.vertices <+: g'.vertices
  weights : ∀ u v, g.numberOfWeights u v ≤ g'.numberOfWeights u v

section Grown

variable {g₀ g : SimpleTemporalNetwork V} {u v : V} {e : StnTaskManagementEdge}
  {lowerBound upperBound : Option ℚ}

theorem Grown.refl (g : SimpleTemporalNetwork V) : Grown g g :=
  ⟨prefix_rfl, fun _ _ => le_rfl⟩

theorem Grown.trans {g' : SimpleTemporalNetwork V} (h : Grown g₀ g) (h' : Grown g g') :
    Grown g₀ g' :=
  ⟨h.vertices.trans h'.vertices, fun u v => (h.weights u v).trans (h'.weights u v)⟩

theorem Grown.addVertex (h : Grown g₀ g) (v : V) : Grown g₀ (g.addVertex v) := by
  refine ⟨?_, fun u u' => ?_⟩
  · unfold SimpleTemporalNetwork.addVertex
    split_ifs
    · exact h.vertices
    · exact h.vertices.trans (prefix_append _ _)
  · rw [numberOfWeights, numberOfWeights, edge_addVertex]
    exact h.weights u u'

theorem Grown.of_edge {g' : SimpleTemporalNetwork V} (h : Grown g₀ g)
    (hvertices : g'.vertices = g.vertices)
    (hweights : ∀ u ∈ g.vertices, ∀ v ∈ g.vertices, ∀ e, g.edge u v = some e →
      ∃ e', g'.edge u v = some e' ∧ e.weights.length ≤ e'.weights.length) : Grown g₀ g' := by
  refine ⟨hvertices ▸ h.vertices, fun u v => ?_⟩
  refine (h.weights u v).trans ?_
  cases he : g.edge u v with
  | none => simp [numberOfWeights, he]
  | some e =>
    obtain ⟨e', he', hle⟩ := hweights u (mem_of_edge he).1 v (mem_of_edge he).2 e he
    simp only [numberOfWeights, he, he', Option.map_some, Option.getD_some]
    exact hle

theorem Grown.addEdge (h : Grown g₀ g)
    (hle : ∀ e', g.edge u v = some e' → e'.weights.length ≤ e.weights.length) :
    Grown g₀ (g.addEdge u v e) := by
  refine h.of_edge rfl fun u' hu v' hv e' he' => ?_
  have hedge : (g.addEdge u v e).edge u' v' = if u' = u ∧ v' = v then some e else g.edge u' v' := by
    simp only [edge, SimpleTemporalNetwork.addEdge, if_pos (And.intro hu hv), idxOf_inj hu,
      idxOf_inj hv]
  rw [hedge]
  split_ifs with heq
  · obtain ⟨rfl, rfl⟩ := heq
    exact ⟨e, rfl, hle e' he'⟩
  · exact ⟨e', he', le_rfl⟩

theorem preserves_addBound {positive : Bool} {w : ℚ} :
    Preserves (Grown g₀) (addBound u v positive w) := by
  intro g h
  unfold addBound
  rw [get_bind_run]
  cases hadd : ((g.edge u v).getD ⟨positive, []⟩).addWeight w with
  | error e => exact h
  | ok e =>
    obtain ⟨rfl, -⟩ := addWeight_eq_ok hadd
    refine h.addEdge fun e' he' => ?_
    simp [he']

theorem preserves_updateLastBound {w : ℚ} : Preserves (Grown g₀) (updateLastBound u v w) := by
  intro g h
  unfold updateLastBound
  rw [get_bind_run]
  cases he : g.edge u v with
  | none => exact h
  | some e =>
    cases hadd : e.removeLastWeight.addWeight w with
    | error e =>
      simp only [hadd]
      exact h
    | ok e₁ =>
      obtain ⟨rfl, -⟩ := addWeight_eq_ok hadd
      simp only [hadd]
      refine h.addEdge fun e' he' => ?_
      obtain rfl := Option.some.inj (he.symm.trans he')
      simp only [StnTaskManagementEdge.removeLastWeight, length_append,
        length_dropLast, length_singleton]
      omega

/-- The bounds that there are, one after the other. -/
theorem preserves_bounds {x y : ℚ → Handler V Unit} (hx : ∀ bound, Preserves (Grown g₀) (x bound))
    (hy : ∀ bound, Preserves (Grown g₀) (y bound)) : Preserves (Grown g₀) (do
      match upperBound with
      | none => pure ()
      | some bound => x bound
      match lowerBound with
      | none => pure ()
      | some bound => y bound) := by
  cases upperBound <;> cases lowerBound
  · exact fun _ h => h
  · exact hy _
  · exact (hx _).bind fun _ _ h => h
  · exact (hx _).bind fun _ => hy _

theorem preserves_addBinaryConstraint :
    Preserves (Grown g₀) (addBinaryConstraint u v lowerBound upperBound) := by
  refine Preserves.bind (fun _ h => h) fun g => ?_
  split_ifs
  · exact preserves_bounds (fun _ => preserves_addBound) fun _ => preserves_addBound
  · exact fun _ h => h

theorem preserves_updateLastBinaryConstraint :
    Preserves (Grown g₀) (updateLastBinaryConstraint u v lowerBound upperBound) := by
  refine Preserves.bind (fun _ h => h) fun g => ?_
  split_ifs
  · exact preserves_bounds (fun _ => preserves_updateLastBound) fun _ => preserves_updateLastBound
  · exact fun _ h => h

theorem preserves_getOrigin : Preserves (Grown g₀) (getOrigin : Handler V V) := by
  refine Preserves.bind (fun _ h => h) fun g => ?_
  split
  · exact fun _ h => h
  · exact fun _ h => h

theorem preserves_addUnaryConstraint :
    Preserves (Grown g₀) (addUnaryConstraint v lowerBound upperBound) :=
  preserves_getOrigin.bind fun _ => preserves_addBinaryConstraint

end Grown

end SimpleTemporalNetwork

namespace StnTaskManagement

/-- The property does not mind if the network grows. -/
def AllowsGrowth (I : StnTaskManagement → Prop) : Prop :=
  ∀ s g, I s → s.network.Grown g → I { s with network := g }

variable {info : TaskInsertInfo} {previous : Option TaskOrder} {orders : List TaskOrder}
  {task : Task}

section Grown

variable {amr : AmrMobility} {I : StnTaskManagement → Prop}

theorem preserves_getVertexOfOrder {order : TaskOrder} {isStart : Bool} :
    Preserves I (getVertexOfOrder order isStart) :=
  fun _ h => h

variable (hI : AllowsGrowth I) {v : StnTaskManagementVertex}
include hI

theorem AllowsGrowth.preserves_onNetwork {α : Type}
    {x : SimpleTemporalNetwork.Handler StnTaskManagementVertex α}
    (hx : ∀ g, Preserves (Grown g) x) :
    Preserves I (onNetwork x) :=
  fun s h => hI s _ h (hx s.network s.network (.refl _))

theorem AllowsGrowth.preserves_addBinary {u v : StnTaskManagementVertex} {lower upper : Option ℚ} :
    Preserves I
      (onNetwork (addBinaryConstraint u v lower upper)) :=
  hI.preserves_onNetwork fun _ => preserves_addBinaryConstraint

theorem AllowsGrowth.preserves_addEarliestStart :
    Preserves I (addEarliestStart task previous v) := by
  unfold addEarliestStart
  split
  · refine Preserves.bind (fun _ h => h) fun s => Preserves.bind (fun _ h => h) fun earliest => ?_
    split_ifs
    · exact fun _ h => h
    · exact .bind (hI.preserves_onNetwork fun _ =>
        preserves_addUnaryConstraint) fun _ _ h => h
  · exact fun _ h => h

theorem AllowsGrowth.preserves_addLatestFinish : Preserves I (addLatestFinish task orders v) := by
  unfold addLatestFinish
  split
  · exact Preserves.bind (fun _ h => h) fun s => Preserves.bind (fun _ h => h) fun latest =>
      hI.preserves_onNetwork fun _ => preserves_addUnaryConstraint
  · exact fun _ h => h

theorem AllowsGrowth.preserves_addSequence : Preserves I (addSequence previous v) := by
  unfold addSequence
  split
  · exact fun _ h => h
  · exact preserves_getVertexOfOrder.bind fun _ => hI.preserves_addBinary

theorem AllowsGrowth.preserves_addOrders : Preserves I (addOrders amr previous orders info) := by
  induction orders generalizing previous info with
  | nil => exact fun _ h => h
  | cons order orders ih =>
    refine Preserves.bind (fun s h => hI s _ h (((Grown.refl _).addVertex
      _).addVertex _)) fun _ => ?_
    refine hI.preserves_addEarliestStart.bind fun inTime => ?_
    split_ifs
    · exact fun _ h => h
    · refine hI.preserves_addLatestFinish.bind fun _ => hI.preserves_addSequence.bind fun _ => ?_
      exact Preserves.bind (fun _ h => h) fun _ => hI.preserves_addBinary.bind fun _ =>
        Preserves.bind (fun _ h => h) fun _ => ih

theorem AllowsGrowth.preserves_precedence {name : ℕ} :
    Preserves I (addPrecedenceConstraintBetweenTask v name) := by
  refine Preserves.bind (fun _ h => h) fun s => ?_
  split
  · exact fun _ h => h
  · exact Preserves.bind (fun _ h => h) fun _ => preserves_getVertexOfOrder.bind fun _ =>
      hI.preserves_addBinary

theorem AllowsGrowth.preserves_prepareTask
    (hlatest : ∀ s, I s → I { s with latestCalculatedInsertionInfo := none }) :
    Preserves I (prepareTask amr task) := by
  refine Preserves.bind hlatest fun _ => ?_
  split_ifs
  · exact fun _ h => h
  · refine hI.preserves_addOrders.bind fun info => ?_
    split
    · exact fun _ h => h
    · refine Preserves.bind (fun _ h => h) fun first => ?_
      exact (preserves_forEach (fun _ => preserves_getVertexOfOrder.bind fun _ =>
        hI.preserves_precedence) _).bind fun _ _ h => h

theorem AllowsGrowth.preserves_updateGetToStartDuration {k : ℕ} :
    Preserves I (updateGetToStartDurationConstraint amr k) := by
  refine Preserves.bind (fun _ h => h) fun s => Preserves.bind (fun _ h => h) fun duration => ?_
  split
  · exact fun _ h => h
  · refine Preserves.bind (fun _ h => h) fun first => ?_
    have hupdate : ∀ previousFinish, Preserves I (do
        let thisStart ← getVertexOfOrder first true
        onNetwork (updateLastBinaryConstraint previousFinish thisStart
          (some duration) none)) :=
      fun _ => preserves_getVertexOfOrder.bind fun _ =>
        hI.preserves_onNetwork fun _ => preserves_updateLastBinaryConstraint
    split_ifs
    · exact (hI.preserves_onNetwork fun _ => preserves_getOrigin).bind hupdate
    · split
      · exact fun _ h => h
      · exact Preserves.bind (fun _ h => h) fun _ => preserves_getVertexOfOrder.bind hupdate

/-- The task is in the ordering, and then the network grows. -/
theorem AllowsGrowth.addOrdering {s : StnTaskManagement}
    (hle : p.newIndex ≤ s.currentOrdering.length)
    (h : I { s with currentOrdering := s.currentOrdering.insertIdx p.newIndex info }) :
    I (addOrderingConstraintBetweenTasks amr p info s).1 := by
  unfold addOrderingConstraintBetweenTasks
  rw [get_bind_run, if_neg (not_lt.mpr hle), modify_bind_run]
  refine Preserves.bind (fun _ h => h) (fun first => ?_) _ h
  refine preserves_getVertexOfOrder.bind fun _ => hI.preserves_addBinary.bind fun _ => ?_
  refine hI.preserves_updateGetToStartDuration.bind fun _ => ?_
  split
  · exact fun _ h => h
  · exact Preserves.bind (fun _ h => h) fun _ => preserves_getVertexOfOrder.bind fun _ =>
      hI.preserves_addBinary.bind fun _ => hI.preserves_updateGetToStartDuration

end Grown

section Kept

variable {amr : AmrMobility} {s s' : StnTaskManagement} {task : Task} {info info' : TaskInsertInfo}

theorem addOrdering_eq_ok (h : addOrderingConstraintBetweenTasks amr p info s = (s', .ok ())) :
    p.newIndex ≤ s.currentOrdering.length ∧
      s'.currentOrdering = s.currentOrdering.insertIdx p.newIndex info := by
  by_cases hle : p.newIndex ≤ s.currentOrdering.length
  · refine ⟨hle, ?_⟩
    have hordering : (addOrderingConstraintBetweenTasks amr p info s).1.currentOrdering =
        s.currentOrdering.insertIdx p.newIndex info :=
      AllowsGrowth.addOrdering (I := fun s₁ =>
        s₁.currentOrdering = s.currentOrdering.insertIdx p.newIndex info) (fun _ _ h _ => h) hle rfl
    rwa [h] at hordering
  · unfold addOrderingConstraintBetweenTasks at h
    rw [get_bind_run, if_pos (not_le.mp hle)] at h
    cases h

theorem addOrders_info (h : addOrders amr previous orders info s = (s', .ok (some info'))) :
    info'.task = info.task ∧ info'.metricsComposition = info.metricsComposition := by
  induction orders generalizing previous info s with
  | nil =>
    obtain ⟨-, heq⟩ := pure_run_eq_ok.mp h
    obtain rfl := Option.some.inj heq
    exact ⟨rfl, rfl⟩
  | cons order orders ih =>
    obtain ⟨_, _, -, ⟨-, -, hnone⟩ | ⟨-, _, _, _, _, _, -, -, -, -, -, hrest⟩⟩ :=
      addOrders_cons_eq_ok h
    · cases hnone
    · obtain ⟨htask, hmetrics⟩ := ih hrest
      exact ⟨htask, hmetrics⟩

/-- The preparation keeps the ordering and knows nothing about the metrics. -/
theorem prepareTask_info (h : prepareTask amr task s = (s', .ok (some info))) :
    s'.currentOrdering = s.currentOrdering ∧ info.task = task ∧
      info.metricsComposition = .ofMetrics {} := by
  refine ⟨AllowsGrowth.preserves_prepareTask (I := fun s₁ =>
    s₁.currentOrdering = s.currentOrdering) (fun _ _ h _ => h) (fun _ h => h) |>.of_run rfl h, ?_⟩
  unfold prepareTask at h
  rw [setLatest, modify_bind_run] at h
  split_ifs at h
  · cases h
  obtain ⟨s₁, result, horders, h⟩ := bind_run_eq_ok.mp h
  cases result with
  | none => cases h
  | some info' =>
    obtain ⟨_, -, h⟩ := lift_bind_run_eq_ok.mp h
    obtain ⟨_, _, -, h⟩ := bind_run_eq_ok.mp h
    obtain ⟨-, heq⟩ := pure_run_eq_ok.mp h
    obtain rfl := Option.some.inj heq
    exact addOrders_info horders

end Kept

/-- The network has grown from the given one. -/
def GrownFrom (g : SimpleTemporalNetwork StnTaskManagementVertex) (s : StnTaskManagement) : Prop :=
  SimpleTemporalNetwork.Grown g s.network

section GrownFrom

variable {amr : AmrMobility} {g : SimpleTemporalNetwork StnTaskManagementVertex}

theorem GrownFrom.refl (s : StnTaskManagement) : GrownFrom s.network s :=
  Grown.refl _

theorem grownFrom_allowsGrowth : AllowsGrowth (GrownFrom g) :=
  fun _ _ h hg => Grown.trans h hg

theorem preserves_addOrdering :
    Preserves (GrownFrom g) (addOrderingConstraintBetweenTasks amr p info) := by
  intro s h
  by_cases hle : p.newIndex ≤ s.currentOrdering.length
  · exact grownFrom_allowsGrowth.addOrdering hle h
  · unfold addOrderingConstraintBetweenTasks
    rw [get_bind_run, if_pos (not_le.mp hle)]
    exact h

theorem preserves_updateCurrentOrdering : Preserves (GrownFrom g) (updateCurrentOrdering amr) := by
  refine Preserves.bind (fun _ h => h) fun s => Preserves.bind (fun _ h => h) fun infos =>
    Preserves.bind (fun _ h => h) fun total => ?_
  split_ifs
  · exact fun _ h => h
  · exact Preserves.bind (fun _ h => h) fun _ => Preserves.bind (fun _ h => h) fun _ _ h => h

theorem preserves_solve : Preserves (GrownFrom g) (StnTaskManagement.solve amr) := by
  refine Preserves.bind (fun _ h => h) fun s => Preserves.bind (fun _ h => h) fun _ => ?_
  split_ifs
  · exact preserves_updateCurrentOrdering.bind fun _ _ h => h
  · exact fun _ h => h

theorem preserves_insertAt : Preserves (GrownFrom g) (insertAt amr p info) := by
  refine preserves_addOrdering.bind fun _ => preserves_solve.bind fun success => ?_
  split_ifs
  · refine Preserves.bind (fun _ h => h) fun s => ?_
    split
    · exact fun _ h => h
    · exact fun _ h => h
  · exact fun _ h => h

theorem preserves_insertTask {point : Option StnInsertionPoint} :
    Preserves (GrownFrom g) (insertTask amr info point) := by
  cases point with
  | some p => exact preserves_insertAt.bind fun _ _ h => h
  | none =>
    refine Preserves.bind (fun _ h => h) fun s => Preserves.bind (fun _ h => h) fun points =>
      Preserves.bind (fun _ h => h) fun best => ?_
    split
    · exact fun _ h => h
    · refine preserves_insertAt.bind fun metrics => ?_
      split
      · exact fun _ h => h
      · exact fun _ h => h

theorem preserves_addTask {point : Option StnInsertionPoint} :
    Preserves (GrownFrom g) (addTask amr task point) := by
  rw [addTask_eq]
  refine (grownFrom_allowsGrowth.preserves_prepareTask fun _ h => h).bind fun info => ?_
  split
  · exact fun _ h => h
  · refine preserves_insertTask.bind fun result => ?_
    split
    · exact fun _ h => h
    · exact Preserves.bind (fun _ h => h) fun _ _ h => h

end GrownFrom

/-! ### Rejected tasks -/

/-- Nothing can be told from the second state that could not be told from the first. -/
structure NoTrace (amr : AmrMobility) (s s' : StnTaskManagement) : Prop where
  vertices : s'.network.vertices = s.network.vertices
  edges : ∀ u v, s'.network.edge u v = s.network.edge u v
  ordering : s'.currentOrdering = s.currentOrdering
  total : s'.currentTotalMetrics = s.currentTotalMetrics
  addTask : ∀ task point, (addTask amr task point s').2 = (addTask amr task point s).2
  canAddTask : ∀ task point, (canAddTask amr task point s').2 = (canAddTask amr task point s).2

/-- The task would have to start in the past. -/
def StartsInPast (s : StnTaskManagement) (task : Task) : Prop :=
  ∃ window earliest, task.timeWindow = some window ∧
    window.getAbsoluteEarliestStart = .ok earliest ∧ earliest < s.timeNow

section Rejected

variable {amr : AmrMobility} {s s' : StnTaskManagement} {task : Task} {info : TaskInsertInfo}
  {orders : List TaskOrder} {order first : TaskOrder}

/-- Only the first order can be too late. -/
theorem addOrders_ne_none {p : TaskOrder} :
    addOrders amr (some p) orders info s ≠ (s', .ok none) := by
  induction orders generalizing p info s with
  | nil => exact fun h => nomatch h
  | cons order orders ih =>
    intro h
    obtain ⟨s₁, inTime, hearliest, ⟨rfl, -⟩ | ⟨-, _, _, _, _, _, -, -, -, -, -, h⟩⟩ :=
      addOrders_cons_eq_ok h
    · rcases addEarliestStart_eq_ok hearliest with ⟨-, -, hin⟩ | ⟨hnone, -⟩
      · cases hin
      · cases hnone
    · exact ih h

theorem numberOfWeights_push {g : SimpleTemporalNetwork StnTaskManagementVertex}
    {u v : StnTaskManagementVertex} {positive : Bool} {w : ℚ} (hu : u ∈ g.vertices)
    (hv : v ∈ g.vertices) :
    (g.push u v positive w).numberOfWeights u v = g.numberOfWeights u v + 1 := by
  rw [numberOfWeights, edge_push hu hv,
    if_pos ⟨rfl, rfl⟩, numberOfWeights]
  cases g.edge u v with
  | none => rfl
  | some e => simp [StnTaskManagementEdge.getNumberOfWeights]

/-- The two ways in which the orders end: the first one is too late, or there is one more weight
between its vertices. -/
theorem addOrders_first (h : addOrders amr none (order :: orders) info s = (s', .ok result)) :
    (result = none ∧ s.StartsInPast info.task ∧
      s' = { s with network :=
        (s.network.addVertex (.start order.uuid)).addVertex (.finish order.uuid) }) ∨
    result.isSome = true ∧ ¬ s.StartsInPast info.task ∧
      s.network.numberOfWeights (.finish order.uuid) (.start order.uuid) <
        s'.network.numberOfWeights (.finish order.uuid) (.start order.uuid) := by
  obtain ⟨s₁, inTime, hearliest, ⟨rfl, rfl, rfl⟩ | ⟨rfl, s₂, s₃, duration, s₄, location, hlatest,
    hsequence, -, hconstraint, -, hrest⟩⟩ := addOrders_cons_eq_ok h
  · rcases addEarliestStart_eq_ok hearliest with ⟨-, -, hin⟩ | ⟨-, window, earliest, hwindow,
      habsolute, ⟨hlt, rfl, -⟩ | ⟨-, -, hin⟩⟩
    · cases hin
    · exact Or.inl ⟨rfl, ⟨window, earliest, hwindow, habsolute, hlt⟩, rfl⟩
    · cases hin
  · refine Or.inr ⟨?_, ?_, ?_⟩
    · cases result with
      | none => exact absurd hrest addOrders_ne_none
      | some info => rfl
    · rintro ⟨window, earliest, hwindow, habsolute, hlt⟩
      rcases addEarliestStart_eq_ok hearliest with ⟨hno | hno, -⟩ | ⟨-, window', earliest',
        hwindow', habsolute', ⟨-, -, hin⟩ | ⟨hle, -⟩⟩
      · cases hno.symm.trans hwindow
      · exact hno rfl
      · cases hin
      · obtain rfl := Option.some.inj (hwindow.symm.trans hwindow')
        obtain rfl := Except.ok.inj (habsolute.symm.trans habsolute')
        exact hlt.not_ge hle
    · have hgrown : GrownFrom s.network { s with network :=
          (s.network.addVertex (.start order.uuid)).addVertex (.finish order.uuid) } :=
        ((Grown.refl s.network).addVertex _).addVertex _
      have hI : AllowsGrowth (GrownFrom s.network) := grownFrom_allowsGrowth
      have hgrown₃ := hI.preserves_addSequence.of_run (hI.preserves_addLatestFinish.of_run
        (hI.preserves_addEarliestStart.of_run hgrown hearliest) hlatest) hsequence
      obtain ⟨g, hg, rfl⟩ := onNetwork_run hconstraint
      obtain ⟨hu, hv, rfl, -⟩ := SimpleTemporalNetwork.addBinaryConstraint_lower_run hg
      have hgrown' := grownFrom_allowsGrowth.preserves_addOrders.of_run (GrownFrom.refl _) hrest
      calc
        s.network.numberOfWeights (.finish order.uuid) (.start order.uuid)
            ≤ s₃.network.numberOfWeights (.finish order.uuid) (.start order.uuid) :=
          hgrown₃.weights _ _
        _ < (s₃.network.push (.finish order.uuid) (.start order.uuid) false
              (-duration)).numberOfWeights (.finish order.uuid) (.start order.uuid) := by
          rw [numberOfWeights_push hv hu]
          exact Nat.lt_succ_self _
        _ ≤ _ := hgrown'.weights _ _

/-- After a preparation with a result there is one more weight. -/
theorem prepareTask_eq_ok (hfirst : task.orders.head? = some first)
    (h : prepareTask amr task s = (s', .ok result)) :
    (result = none ∧ s.StartsInPast task ∧
      s' = { s with
        latestCalculatedInsertionInfo := none
        network := (s.network.addVertex (.start first.uuid)).addVertex (.finish first.uuid) }) ∨
    result.isSome = true ∧ ¬ s.StartsInPast task ∧
      s.network.numberOfWeights (.finish first.uuid) (.start first.uuid) <
        s'.network.numberOfWeights (.finish first.uuid) (.start first.uuid) := by
  obtain ⟨orders, horders⟩ := head?_eq_some_iff.mp hfirst
  unfold prepareTask at h
  rw [setLatest, modify_bind_run, horders, isEmpty_cons, if_neg Bool.false_ne_true] at h
  obtain ⟨s₁, info, hrun, h⟩ := bind_run_eq_ok.mp h
  rcases addOrders_first hrun with ⟨rfl, hpast, rfl⟩ | ⟨hsome, hpast, hlt⟩
  · obtain ⟨rfl, rfl⟩ := pure_run_eq_ok.mp h
    exact Or.inl ⟨rfl, hpast, rfl⟩
  · obtain ⟨info, rfl⟩ := Option.isSome_iff_exists.mp hsome
    obtain ⟨_, -, h⟩ := lift_bind_run_eq_ok.mp h
    obtain ⟨s₂, _, hprecedences, h⟩ := bind_run_eq_ok.mp h
    obtain ⟨rfl, rfl⟩ := pure_run_eq_ok.mp h
    have hgrown := (preserves_forEach (fun _ => preserves_getVertexOfOrder.bind fun _ =>
      grownFrom_allowsGrowth.preserves_precedence) _).of_run (GrownFrom.refl _) hprecedences
    exact Or.inr ⟨rfl, hpast, hlt.trans_le (hgrown.weights _ _)⟩

theorem noTrace_setLatest (latest : Option (MetricsComposition × StnInsertionPoint)) :
    NoTrace amr s { s with latestCalculatedInsertionInfo := latest } where
  vertices := rfl
  edges _ _ := rfl
  ordering := rfl
  total := rfl
  addTask _ _ := rfl
  canAddTask _ _ := rfl

/-- A rejected task leaves no trace exactly if it would have to start in the past and the
vertices of its first order were there before. -/
theorem noTrace_iff_of_rejected {point : Option StnInsertionPoint}
    (hfirst : task.orders.head? = some first) (h : addTask amr task point s = (s', .ok false)) :
    NoTrace amr s s' ↔ s.StartsInPast task ∧
      .start first.uuid ∈ s.network.vertices ∧ .finish first.uuid ∈ s.network.vertices := by
  rcases addTask_eq_false.mp h with hprepare | ⟨s₁, info, hprepare, hinsert⟩
  · obtain ⟨-, hpast, rfl⟩ | ⟨hnone, -⟩ := prepareTask_eq_ok hfirst hprepare
    · constructor
      · intro hno
        refine ⟨hpast, ?_, ?_⟩
        · rw [← hno.vertices, mem_addVertex,
            mem_addVertex]
          exact Or.inl (Or.inr rfl)
        · rw [← hno.vertices, mem_addVertex]
          exact Or.inr rfl
      · rintro ⟨-, hstart, hfinish⟩
        have hnetwork : (s.network.addVertex (.start first.uuid)).addVertex (.finish first.uuid) =
            s.network := by
          rw [addVertex.eq_def s.network, if_pos hstart,
            SimpleTemporalNetwork.addVertex, if_pos hfinish]
        rw [hnetwork]
        exact noTrace_setLatest none
    · cases hnone
  · -- the weight that the first order has added is still there
    obtain ⟨hnone, -⟩ | ⟨-, hpast, hlt⟩ := prepareTask_eq_ok hfirst hprepare
    · cases hnone
    · have hgrown := preserves_insertTask.of_run (GrownFrom.refl _) hinsert
      refine iff_of_false (fun hno => ?_) fun hboth => hpast hboth.1
      refine (hlt.trans_le (hgrown.weights _ _)).ne' ?_
      rw [numberOfWeights, hno.edges, numberOfWeights]

end Rejected

/-- A vehicle that takes ten seconds for every way. -/
def shuttle : AmrMobility where
  position := (0, 0)
  pathDuration _ _ := 10
  pathDistance _ _ := 1
  loadTime := 5
  unloadTime := 5
  pathDuration_nonneg _ _ := by decide
  loadTime_nonneg := by decide
  unloadTime_nonneg := by decide

/-- A task that may start after 50 seconds and has to be finished after 75. -/
def boxTask : Task := ⟨0, 0, [⟨0, .transport [(1, 0)] (2, 0)⟩], some ⟨50, 75, some 0⟩, []⟩

def palletTask : Task := ⟨1, 1, [⟨1, .transport [(3, 0)] (4, 0)⟩], none, []⟩

def boxAdded : StnTaskManagement := (addTask shuttle boxTask none init).1

/-- The box is still known when it is too late for it. -/
theorem noTrace_of_lateBox :
    (addTask shuttle boxTask none (setCurrentTime 60 boxAdded).1).2 = .ok false ∧
      NoTrace shuttle (setCurrentTime 60 boxAdded).1
        (addTask shuttle boxTask none (setCurrentTime 60 boxAdded).1).1 := by
  have hrejected : (addTask shuttle boxTask none (setCurrentTime 60 boxAdded).1).2 = .ok false := by
    decide +kernel
  refine ⟨hrejected, (noTrace_iff_of_rejected rfl (Prod.ext rfl hrejected)).mpr
    ⟨⟨_, 50, rfl, by decide +kernel, by decide +kernel⟩, by decide +kernel, by decide +kernel⟩⟩

/-- A task whose window is too short for it. -/
def tightTask : Task := ⟨2, 2, [⟨2, .transport [(1, 0)] (2, 0)⟩], some ⟨50, 60, some 0⟩, []⟩

/-- After the short window has been rejected nothing else is accepted. -/
theorem tightTask_leavesTrace :
    (addTask shuttle tightTask none init).2 = .ok false ∧
      (addTask shuttle tightTask none init).1.network.vertices =
        [.origin, .start 2, .finish 2] ∧
      (addTask shuttle palletTask none init).2 = .ok true ∧
      (addTask shuttle palletTask none (addTask shuttle tightTask none init).1).2 =
        .ok false := by
  decide +kernel

end StnTaskManagement

end Sola.Daisi
