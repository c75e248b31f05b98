import Mathlib.Tactic.Linarith
import Mathlib.Tactic.Ring
import Sola.Daisi.StnInsertion
import Sola.Lib.Transitions

/-!
The schedules that the task management of a vehicle comes up with
(`daisi/src/cpps/logical/task_management/stn_task_management.cpp`).

The start times in the ordering are distances in the network.  Every task has
its constraints there: what its orders take, when it may start and has to
finish, and how long the vehicle takes from the task before.  A distance is
never longer than a way, so the start times respect all of them.

This holds as long as the constraints stay what they are.  When time goes on,
the bounds relative to the origin are moved into the future instead of towards
the origin, and when a task is started the ones after it lose the way to the
origin.
-/

namespace Sola.Daisi

open Sola.Lib Action SimpleTemporalNetwork List Except

namespace StnTaskManagement

/-! ### What a schedule has to satisfy -/

/-- What the given orders of a task take one after another. -/
def ordersDuration (amr : AmrMobility) : List TaskOrder → TaskInsertInfo → Except String ℚ
  | [], _ => .ok 0
  | order :: orders, info => do
      let duration ← calcOrderDurationForInsert amr order info
      let location ← nextEndLocation order info
      let rest ← ordersDuration amr orders
        { info with endLocations := info.endLocations ++ [location] }
      return duration + rest

def taskDuration (amr : AmrMobility) (task : Task) : Except String ℚ :=
  ordersDuration amr task.orders ⟨task, [], .ofMetrics {}⟩

/-- When the last order of a task is finished. -/
def finishTime (s : StnTaskManagement) (info : TaskInsertInfo) : TimePoint :=
  match info.task.orders.getLast? with
  | none => ⊥
  | some last =>
    timeOf (s.network.distance s.dGraph (.finish last.uuid) .origin) + (s.timeNow : ℚ)

/-- The task at index `k` is executed from `starts k` to `ends k`. -/
structure Executable (amr : AmrMobility) (s : StnTaskManagement) (starts ends : ℕ → ℚ) (k : ℕ)
    (info : TaskInsertInfo) : Prop where
  start : startTime info = (starts k : ℚ)
  finish : s.finishTime info = (ends k : ℚ)
  now : s.timeNow ≤ starts k
  duration : ∃ d, taskDuration amr info.task = .ok d ∧ starts k + d ≤ ends k
  travel : ∃ d, s.calcGetToStartDuration amr k = .ok d ∧
    (if k = 0 then s.timeNow else ends (k - 1)) + d ≤ starts k
  window : ∀ w, info.task.timeWindow = some w → ∃ earliest latest,
    w.getAbsoluteEarliestStart = .ok earliest ∧ w.getAbsoluteLatestFinish = .ok latest ∧
      earliest ≤ starts k ∧ ends k ≤ latest

/-- All tasks of the ordering can be executed at the times it has for them. -/
def IsExecutable (amr : AmrMobility) (s : StnTaskManagement) : Prop :=
  ∃ starts ends, ∀ k info, s.currentOrdering[k]? = some info →
    Executable amr s starts ends k info

/-! ### Calls -/

inductive Event
  | addTask (task : Task) (insertionPoint : Option StnInsertionPoint)
  | canAddTask (task : Task) (insertionPoint : Option StnInsertionPoint)
  | setCurrentTime (now : ℚ)
  | setNextTask

/-- The state after a call that returns. -/
def returned {α : Type} : StnTaskManagement × Except String α → Option StnTaskManagement
  | (s, .ok _) => some s
  | (_, .error _) => none

def step (amr : AmrMobility) (s : StnTaskManagement) : Event → Option StnTaskManagement
  | .addTask task point => returned (addTask amr task point s)
  | .canAddTask task point => returned (canAddTask amr task point s)
  | .setCurrentTime now => returned (StnTaskManagement.setCurrentTime now s)
  | .setNextTask => returned (StnTaskManagement.setNextTask s)

/-- The task and its orders have not been given to `addTask` before. -/
structure NewTask (s : StnTaskManagement) (task : Task) : Prop where
  distinct : (task.orders.map TaskOrder.uuid).Nodup
  finish : ∀ order ∈ task.orders,
    StnTaskManagementVertex.finish order.uuid ∉ s.network.vertices
  uuid : ∀ info ∈ s.currentOrdering, info.task.uuid ≠ task.uuid

/-- All tasks are added at one time, at insertion points that are still there,
and none is started. -/
def Allowed (s : StnTaskManagement) : Event → Prop
  | .addTask task point => NewTask s task ∧
      ∀ p, point = some p → ∃ points, s.calcInsertionPoints = .ok points ∧ p ∈ points
  | .canAddTask _ _ => True
  | .setCurrentTime _ => s.network = .ofOrigin .origin
  | .setNextTask => s.currentOrdering = []

/-! ### The orders of a task -/

/-- Every order takes its time, and starts after the one before it. -/
def Linked (g : SimpleTemporalNetwork StnTaskManagementVertex) :
    Option TaskOrder → List TaskOrder → ℚ → Prop
  | _, [], total => total = 0
  | previous, order :: orders, total => ∃ duration rest, total = duration + rest ∧
      0 ≤ duration ∧ g.Bounded (.finish order.uuid) (.start order.uuid) (-duration) ∧
      (∀ p, previous = some p → g.Bounded (.start order.uuid) (.finish p.uuid) 0) ∧
      Linked g (some order) orders rest

section Linked

variable {g g' : SimpleTemporalNetwork StnTaskManagementVertex} {orders : List TaskOrder}
  {total : ℚ}

theorem Linked.mono (hg : Extends g g') {previous : Option TaskOrder}
    (h : Linked g previous orders total) : Linked g' previous orders total := by
  induction orders generalizing previous total with
  | nil => exact h
  | cons order orders ih =>
    obtain ⟨duration, rest, htotal, hpos, hduration, hprevious, hrest⟩ := h
    exact ⟨duration, rest, htotal, hpos, hg.bounded _ _ _ hduration,
      fun p hp => hg.bounded _ _ _ (hprevious p hp), ih hrest⟩

/-- Orders after a given one start after it has finished, and they end after all
that they take. -/
theorem Linked.after {p : TaskOrder} {base : StnTaskManagementVertex} {d : ℚ}
    (h : Linked g (some p) orders total) (hd : 0 ≤ d)
    (hbase : g.Path (.finish p.uuid) base (-d)) : 0 ≤ d + total ∧
      (∀ order ∈ orders, ∃ w ≤ 0, g.Path (.start order.uuid) base w) ∧
      ∀ last, (p :: orders).getLast? = some last →
        g.Path (.finish last.uuid) base (-(d + total)) := by
  induction orders generalizing p d total with
  | nil =>
    obtain rfl : total = 0 := h
    rw [add_zero]
    refine ⟨hd, by simp, fun last hlast => ?_⟩
    obtain rfl : p = last := by simpa using hlast
    exact hbase
  | cons order orders ih =>
    obtain ⟨duration, rest, rfl, hpos, hduration, hprevious, hrest⟩ := h
    have hstart : g.Path (.start order.uuid) base (0 + -d) :=
      (Path.edge (hprevious p rfl)).trans hbase
    have hsum : -duration + (0 + -d) = -(d + duration) := by ring
    obtain ⟨hnonneg, hstarts, hlast⟩ :=
      ih hrest (add_nonneg hd hpos) (hsum ▸ (Path.edge hduration).trans hstart)
    rw [add_assoc] at hnonneg hlast
    refine ⟨hnonneg, fun o ho => ?_, fun last h => hlast last (by simpa using h)⟩
    rcases mem_cons.mp ho with rfl | ho
    · exact ⟨0 + -d, by linarith, hstart⟩
    · exact hstarts o ho

/-- The orders of a task all start after the first one, and the last one ends
after all that they take. -/
theorem Linked.first {first : TaskOrder} (h : Linked g none (first :: orders) total) : 0 ≤ total ∧
      (∀ order ∈ orders, ∃ w ≤ 0, g.Path (.start order.uuid) (.start first.uuid) w) ∧
      ∀ last, (first :: orders).getLast? = some last →
        g.Path (.finish last.uuid) (.start first.uuid) (-total) := by
  obtain ⟨duration, rest, rfl, hpos, hduration, -, hrest⟩ := h
  exact hrest.after hpos (.edge hduration)

end Linked

/-! ### Adding the orders -/

/-- The window bounds the start of the order. -/
def EarliestBounded (g : SimpleTemporalNetwork StnTaskManagementVertex) (now : ℚ)
    (w : TimeWindow) (order : ℕ) : Prop :=
  ∃ earliest, w.getAbsoluteEarliestStart = .ok earliest ∧
    g.Bounded (.start order) .origin (-(earliest - now))

/-- The window bounds the finish of the order. -/
def LatestBounded (g : SimpleTemporalNetwork StnTaskManagementVertex) (now : ℚ)
    (w : TimeWindow) (order : ℕ) : Prop :=
  ∃ latest, w.getAbsoluteLatestFinish = .ok latest ∧
    g.Bounded .origin (.finish order) (latest - now)

section Bounded

variable {g g' : SimpleTemporalNetwork StnTaskManagementVertex} {now : ℚ} {w : TimeWindow}
  {order : ℕ}

theorem EarliestBounded.mono (hg : Extends g g') :
    EarliestBounded g now w order → EarliestBounded g' now w order :=
  fun ⟨earliest, heq, hbound⟩ => ⟨earliest, heq, hg.bounded _ _ _ hbound⟩

theorem LatestBounded.mono (hg : Extends g g') :
    LatestBounded g now w order → LatestBounded g' now w order :=
  fun ⟨latest, heq, hbound⟩ => ⟨latest, heq, hg.bounded _ _ _ hbound⟩

end Bounded

section Runs

variable {s s' : StnTaskManagement}

variable {v : StnTaskManagementVertex} {task : Task} {previous : Option TaskOrder}

variable (hsigned : Signed .origin s.network)
include hsigned

theorem addEarliestStart_run {order : ℕ} {b : Bool}
    (h : addEarliestStart task previous (.start order) s = (s', .ok b)) :
    ∃ g, s' = { s with network := g } ∧ MoreLower .origin s.network g ∧
      (b = true → ∀ w, task.timeWindow = some w → previous = none →
        EarliestBounded g s.timeNow w order) := by
  rcases addEarliestStart_eq_ok h with ⟨hno, rfl, rfl⟩ | ⟨rfl, window, earliest, hwindow,
    hearliest, ⟨-, rfl, rfl⟩ | ⟨-, hadd, rfl⟩⟩
  · refine ⟨_, rfl, .refl hsigned, fun _ w hw hprevious => ?_⟩
    rcases hno with hno | hno
    · cases hno.symm.trans hw
    · exact absurd hprevious hno
  · exact ⟨_, rfl, .refl hsigned, by simp⟩
  · obtain ⟨g, hg, rfl⟩ := onNetwork_run hadd
    rw [addUnaryConstraint_eq hsigned] at hg
    obtain ⟨hmore, hbound, -⟩ := addBinaryConstraint_lower hsigned (by simp) hg
    refine ⟨g, rfl, hmore, fun _ w hw _ => ?_⟩
    obtain rfl := Option.some.inj (hwindow.symm.trans hw)
    exact ⟨earliest, hearliest, hbound⟩

theorem addLatestFinish_run {orders : List TaskOrder} {order : ℕ}
    (hnew : s.network.edge .origin (.finish order) = none)
    (h : addLatestFinish task orders (.finish order) s = (s', .ok ())) :
    ∃ g, s' = { s with network := g } ∧ Signed .origin g ∧ Extends s.network g ∧
      g.vertices = s.network.vertices ∧
      ∀ w, task.timeWindow = some w → orders = [] → LatestBounded g s.timeNow w order := by
  unfold addLatestFinish at h
  cases htime : task.timeWindow with
  | none =>
    rw [htime] at h
    cases h
    exact ⟨s.network, rfl, hsigned, .refl _, rfl, by simp⟩
  | some w =>
    cases orders with
    | cons o os =>
      rw [htime] at h
      cases h
      exact ⟨s.network, rfl, hsigned, .refl _, rfl, by simp⟩
    | nil =>
      rw [htime] at h
      simp only [get_bind_run] at h
      obtain ⟨latest, hlatest, h⟩ := lift_bind_run_eq_ok.mp h
      obtain ⟨g, hg, rfl⟩ := onNetwork_run h
      rw [addUnaryConstraint_eq hsigned] at hg
      obtain ⟨-, hmem, rfl⟩ := addBinaryConstraint_upper_run hg
      refine ⟨_, rfl, hsigned.push_upper hmem hnew, extends_push_upper hsigned hmem hnew, rfl,
        fun w' hw' _ => ?_⟩
      obtain rfl := Option.some.inj hw'
      exact ⟨latest, hlatest, bounded_push_upper hsigned hmem hnew⟩

theorem addSequence_run {order : ℕ} (h : addSequence previous (.start order) s = (s', .ok ())) :
    ∃ g, s' = { s with network := g } ∧ MoreLower .origin s.network g ∧
      ∀ p, previous = some p → g.Bounded (.start order) (.finish p.uuid) 0 := by
  unfold addSequence at h
  cases previous with
  | none =>
    cases h
    exact ⟨s.network, rfl, .refl hsigned, by simp⟩
  | some p =>
    obtain ⟨s₁, v, hv, h⟩ := bind_run_eq_ok.mp h
    obtain ⟨rfl, rfl, -⟩ := getVertexOfOrder_run hv
    obtain ⟨g, hg, rfl⟩ := onNetwork_run h
    obtain ⟨hmore, hbound, -⟩ := addBinaryConstraint_lower hsigned (by simp) hg
    refine ⟨g, rfl, hmore, fun p' hp' => ?_⟩
    obtain rfl := Option.some.inj hp'
    rw [← neg_zero]
    exact hbound

end Runs

/-- What is in the network about the window of a task with the given orders left. -/
def WindowBounded (g : SimpleTemporalNetwork StnTaskManagementVertex) (now : ℚ)
    (previous : Option TaskOrder) (orders : List TaskOrder) (w : TimeWindow) : Prop :=
  (previous = none → ∀ first, orders.head? = some first → ∃ earliest,
      w.getAbsoluteEarliestStart = .ok earliest ∧
        g.Bounded (.start first.uuid) .origin (-(earliest - now))) ∧
    ∀ last, orders.getLast? = some last → ∃ latest, w.getAbsoluteLatestFinish = .ok latest ∧
      g.Bounded .origin (.finish last.uuid) (latest - now)

/-- The orders are vertices of the network with all their constraints. -/
structure OrdersPlanned (amr : AmrMobility) (g : SimpleTemporalNetwork StnTaskManagementVertex)
    (now : ℚ) (previous : Option TaskOrder) (orders : List TaskOrder) (info : TaskInsertInfo) :
    Prop where
  mem : ∀ order ∈ orders, .start order.uuid ∈ g.vertices ∧ .finish order.uuid ∈ g.vertices
  linked : ∃ total, ordersDuration amr orders info = .ok total ∧ Linked g previous orders total
  window : ∀ w, info.task.timeWindow = some w → WindowBounded g now previous orders w

variable {amr : AmrMobility} {g g' : SimpleTemporalNetwork StnTaskManagementVertex}
  {previous : Option TaskOrder} {orders : List TaskOrder} {info : TaskInsertInfo}
  {order : TaskOrder} {s s' : StnTaskManagement} {result : Option TaskInsertInfo}
  {points : List StnInsertionPoint} {point : StnInsertionPoint} {start finish : ℚ}

theorem OrdersPlanned.mono (hg : Extends g g') {now : ℚ}
    (h : OrdersPlanned amr g now previous orders info) :
    OrdersPlanned amr g' now previous orders info := by
  refine ⟨fun o ho => ?_, ?_, fun w hw => ⟨fun hnone first hfirst => ?_, fun last hlast => ?_⟩⟩
  · exact ⟨hg.vertices _ (h.mem o ho).1, hg.vertices _ (h.mem o ho).2⟩
  · obtain ⟨total, htotal, hlinked⟩ := h.linked
    exact ⟨total, htotal, hlinked.mono hg⟩
  · exact EarliestBounded.mono hg ((h.window w hw).1 hnone first hfirst)
  · exact LatestBounded.mono hg ((h.window w hw).2 last hlast)

/-- The constraints of one order that has the given orders of its task behind it. -/
structure OrderPlanned (g : SimpleTemporalNetwork StnTaskManagementVertex) (now : ℚ) (task : Task)
    (previous : Option TaskOrder) (order : TaskOrder) (orders : List TaskOrder) (duration : ℚ) :
    Prop where
  mem : .start order.uuid ∈ g.vertices ∧ .finish order.uuid ∈ g.vertices
  nonneg : 0 ≤ duration
  duration : g.Bounded (.finish order.uuid) (.start order.uuid) (-duration)
  sequence : ∀ p, previous = some p → g.Bounded (.start order.uuid) (.finish p.uuid) 0
  earliest : ∀ w, task.timeWindow = some w → previous = none → ∃ earliest,
    w.getAbsoluteEarliestStart = .ok earliest ∧
      g.Bounded (.start order.uuid) .origin (-(earliest - now))
  latest : ∀ w, task.timeWindow = some w → orders = [] → ∃ latest,
    w.getAbsoluteLatestFinish = .ok latest ∧
      g.Bounded .origin (.finish order.uuid) (latest - now)

theorem OrdersPlanned.cons (hg : Extends g g') {now : ℚ} {duration : ℚ} {location : Position}
    (hduration : calcOrderDurationForInsert amr order info = .ok duration)
    (hlocation : nextEndLocation order info = .ok location)
    (horder : OrderPlanned g now info.task previous order orders duration)
    (horders : OrdersPlanned amr g' now (some order) orders
      { info with endLocations := info.endLocations ++ [location] }) :
    OrdersPlanned amr g' now previous (order :: orders) info := by
  refine ⟨fun o ho => ?_, ?_, fun w hw => ⟨fun hnone first hfirst => ?_, fun last hlast => ?_⟩⟩
  · rcases mem_cons.mp ho with rfl | ho
    · exact ⟨hg.vertices _ horder.mem.1, hg.vertices _ horder.mem.2⟩
    · exact horders.mem o ho
  · obtain ⟨rest, hrest, hlinked⟩ := horders.linked
    refine ⟨duration + rest, ?_, duration, rest, rfl, horder.nonneg,
      hg.bounded _ _ _ horder.duration,
      fun p hp => hg.bounded _ _ _ (horder.sequence p hp), hlinked⟩
    simp only [ordersDuration, hduration, hlocation, hrest, bind, Except.bind, pure, Except.pure]
  · obtain rfl : order = first := by simpa using hfirst
    exact EarliestBounded.mono hg (horder.earliest w hw hnone)
  · cases orders with
    | nil =>
      obtain rfl : order = last := by simpa using hlast
      exact LatestBounded.mono hg (horder.latest w hw rfl)
    | cons o os => exact (horders.window w hw).2 last (by simpa using hlast)

/-- One turn of the loop: the task starts in the past, or the order is put into
the network and the loop goes on with the others. -/
theorem addOrders_cons_run (hsigned : Signed .origin s.network)
    (hfresh : StnTaskManagementVertex.finish order.uuid ∉ s.network.vertices)
    (h : addOrders amr previous (order :: orders) info s = (s', .ok result)) :
    ∃ g, Signed .origin g ∧ Extends s.network g ∧
      ((s' = { s with network := g } ∧ result = none) ∨
        (∀ v ∈ g.vertices,
          v ∈ s.network.vertices ∨ v = .start order.uuid ∨ v = .finish order.uuid) ∧
        ∃ duration location, calcOrderDurationForInsert amr order info = .ok duration ∧
          nextEndLocation order info = .ok location ∧
          OrderPlanned g s.timeNow info.task previous order orders duration ∧
          addOrders amr (some order) orders
            { info with endLocations := info.endLocations ++ [location] }
            { s with network := g } = (s', .ok result)) := by
  obtain ⟨s₂, inTime, hearliest, hcases⟩ := addOrders_cons_eq_ok h
  -- the vertices of the order
  obtain ⟨g₁, hg₁⟩ : ∃ g, (s.network.addVertex (.start order.uuid)).addVertex
    (.finish order.uuid) = g := ⟨_, rfl⟩
  have hsigned₁ : Signed .origin g₁ := hg₁ ▸ (hsigned.addVertex _).addVertex _
  have hkept₁ : Extends s.network g₁ :=
    hg₁ ▸ (extends_addVertex _ _).trans (extends_addVertex _ _)
  have hmem₁ : ∀ v, v ∈ g₁.vertices ↔
      (v ∈ s.network.vertices ∨ v = .start order.uuid) ∨ v = .finish order.uuid := by
    intro v
    rw [← hg₁, mem_addVertex, mem_addVertex]
  have hnew₁ : g₁.edge .origin (.finish order.uuid) = none := by
    rw [← hg₁, edge_addVertex, edge_addVertex, edge, if_neg]
    exact fun hmem => hfresh hmem.2
  rw [hg₁] at hearliest
  obtain ⟨g₂, rfl, hmore₂, hwindow₂⟩ := addEarliestStart_run hsigned₁ hearliest
  obtain ⟨-, rfl, rfl⟩ | ⟨rfl, s₃, s₄, duration, s₅, location, hlatest, hsequence, hduration,
    hconstraint, hlocation, h⟩ := hcases
  · exact ⟨g₂, hmore₂.signed, hkept₁.trans hmore₂.kept, Or.inl ⟨rfl, rfl⟩⟩
  · have hnew₂ : g₂.edge .origin (.finish order.uuid) = none := (hmore₂.upper _).trans hnew₁
    obtain ⟨g₃, rfl, hsigned₃, hkept₃, hvertices₃, hwindow₃⟩ :=
      addLatestFinish_run hmore₂.signed hnew₂ hlatest
    obtain ⟨g₄, rfl, hmore₄, hprevious⟩ := addSequence_run hsigned₃ hsequence
    obtain ⟨g₅, hrun₅, rfl⟩ := onNetwork_run hconstraint
    obtain ⟨hmore₅, hbound₅, hpos⟩ := addBinaryConstraint_lower hmore₄.signed (by simp) hrun₅
    have hvertices₅ : g₅.vertices = g₁.vertices := by
      rw [hmore₅.vertices, hmore₄.vertices, hvertices₃, hmore₂.vertices]
    have hkept₃' : Extends g₃ g₅ := hmore₄.kept.trans hmore₅.kept
    have hkept₂ : Extends g₂ g₅ := hkept₃.trans hkept₃'
    refine ⟨g₅, hmore₅.signed, (hkept₁.trans hmore₂.kept).trans hkept₂, Or.inr
      ⟨fun v hv => ?_, duration, location, hduration, hlocation, ?_, h⟩⟩
    · rwa [hvertices₅, hmem₁, or_assoc] at hv
    · refine ⟨⟨?_, ?_⟩, hpos, hbound₅, fun p hp => hmore₅.kept.bounded _ _ _ (hprevious p hp),
        fun w hw hnone => ?_, fun w hw hnil => ?_⟩
      · rw [hvertices₅, hmem₁]
        exact Or.inl (Or.inr rfl)
      · rw [hvertices₅, hmem₁]
        exact Or.inr rfl
      · exact (hwindow₂ rfl w hw hnone).mono hkept₂
      · exact (hwindow₃ w hw hnil).mono hkept₃'

theorem addOrders_run (hsigned : Signed .origin s.network)
    (hdistinct : (orders.map TaskOrder.uuid).Nodup) (hfresh : ∀ order ∈ orders,
      StnTaskManagementVertex.finish order.uuid ∉ s.network.vertices)
    (h : addOrders amr previous orders info s = (s', .ok result)) :
    ∃ g, s' = { s with network := g } ∧ Signed .origin g ∧ Extends s.network g ∧
      ∀ info', result = some info' → info'.task = info.task ∧
        OrdersPlanned amr g s.timeNow previous orders info := by
  induction orders generalizing previous info s with
  | nil =>
    obtain rfl : s' = s := (congrArg Prod.fst h).symm
    obtain rfl : some info = result := ok.inj (congrArg Prod.snd h)
    refine ⟨s'.network, rfl, hsigned, .refl _, fun info' hinfo => ?_⟩
    obtain rfl := Option.some.inj hinfo
    exact ⟨rfl, by simp, ⟨0, rfl, rfl⟩, fun w _ => ⟨by simp, by simp⟩⟩
  | cons order orders ih =>
    rw [map_cons, nodup_cons] at hdistinct
    obtain ⟨g₁, hsigned₁, hkept₁, ⟨rfl, rfl⟩ | ⟨hmem, duration, location, hduration, hlocation,
      horder, hrest⟩⟩ := addOrders_cons_run hsigned (hfresh order (by simp)) h
    · exact ⟨g₁, rfl, hsigned₁, hkept₁, by simp⟩
    · -- the other orders are still new
      have hfresh₁ : ∀ o ∈ orders,
          StnTaskManagementVertex.finish o.uuid ∉ g₁.vertices := by
        intro o ho hmem'
        rcases hmem _ hmem' with hold | hstart | hfinish
        · exact hfresh o (by simp [ho]) hold
        · cases hstart
        · have heq := StnTaskManagementVertex.finish.inj hfinish
          exact hdistinct.1 (heq ▸ mem_map_of_mem ho)
      obtain ⟨g, rfl, hsigned', hkept', hplanned⟩ := ih hsigned₁ hdistinct.2 hfresh₁ hrest
      refine ⟨g, rfl, hsigned', hkept₁.trans hkept', fun info' hinfo => ?_⟩
      obtain ⟨htask, horders⟩ := hplanned info' hinfo
      exact ⟨htask, .cons hkept' hduration hlocation horder horders⟩

/-! ### The ordering -/

/-- What the constraints of a task depend on. -/
def planOf (info : TaskInsertInfo) : Task × List Position :=
  (info.task, info.endLocations)

/-- Where the way to the task at an index begins. -/
def previousVertex (ordering : List TaskInsertInfo) : ℕ → Option StnTaskManagementVertex
  | 0 => some .origin
  | k + 1 => (ordering[k]?).bind fun info =>
    info.task.orders.getLast?.map fun last => .finish last.uuid

/-- All constraints of a task apart from the way to it. -/
structure Planned (amr : AmrMobility) (g : SimpleTemporalNetwork StnTaskManagementVertex)
    (now : ℚ) (task : Task) : Prop where
  nonempty : task.orders ≠ []
  orders : OrdersPlanned amr g now none task.orders ⟨task, [], .ofMetrics {}⟩

/-- The way to the task at an index is a constraint of the network. -/
def Connected (amr : AmrMobility) (s : StnTaskManagement) (k : ℕ) (task : Task) : Prop :=
  ∃ d first previous, s.calcGetToStartDuration amr k = .ok d ∧ 0 ≤ d ∧
    task.orders.head? = some first ∧ previousVertex s.currentOrdering k = some previous ∧
    s.network.Bounded (.start first.uuid) previous (-d)

/-- The ordering and the network go together. -/
structure Consistent (amr : AmrMobility) (s : StnTaskManagement) : Prop where
  signed : Signed .origin s.network
  planned : ∀ info ∈ s.currentOrdering, Planned amr s.network s.timeNow info.task
  connected : ∀ k info, s.currentOrdering[k]? = some info → Connected amr s k info.task
  distinct : (s.currentOrdering.map fun info => info.task.uuid).Nodup

section Ordering

variable {amr : AmrMobility} {s s' : StnTaskManagement} {task : Task} {order : TaskOrder}
  {k k' : ℕ}

theorem firstOrder_eq_ok (h : firstOrder task = .ok order) : task.orders.head? = some order := by
  unfold firstOrder at h
  split at h
  · rename_i o ho
    rw [ho, ok.inj h]
  · cases h

theorem lastOrder_eq_ok (h : lastOrder task = .ok order) : task.orders.getLast? = some order := by
  unfold lastOrder at h
  split at h
  · rename_i o ho
    rw [ho, ok.inj h]
  · cases h

theorem endLocation_congr {info info' : TaskInsertInfo} (h : planOf info' = planOf info) :
    endLocation info' = endLocation info := by
  have hlocations : info'.endLocations = info.endLocations := congrArg Prod.snd h
  rw [endLocation, endLocation, hlocations]

/-- The tasks at `k` and before it are the same as those at `k'` and before it. -/
structure SamePlace (s s' : StnTaskManagement) (k k' : ℕ) : Prop where
  currentTask : s'.currentTask = s.currentTask
  endLocation : s'.currentTaskEndLocation = s.currentTaskEndLocation
  zero : k' = 0 ↔ k = 0
  this : (s'.currentOrdering[k']?).map planOf =
    (s.currentOrdering[k]?).map planOf
  before : k ≠ 0 → (s'.currentOrdering[k' - 1]?).map planOf =
    (s.currentOrdering[k - 1]?).map planOf

theorem planOf_cases {new old : Option TaskInsertInfo} (h : new.map planOf = old.map planOf) :
    (new = none ∧ old = none) ∨
      ∃ info' info, new = some info' ∧ old = some info ∧ planOf info' = planOf info := by
  cases new <;> cases old <;> simp_all

theorem SamePlace.getLastPositionBefore (h : SamePlace s s' k k') :
    s'.getLastPositionBefore amr k' = s.getLastPositionBefore amr k := by
  unfold StnTaskManagement.getLastPositionBefore
  by_cases hk : k = 0
  · rw [if_pos (h.zero.mpr hk), if_pos hk, hasTasks, hasTasks, h.currentTask, h.endLocation]
  · rw [if_neg (fun hk' => hk (h.zero.mp hk')), if_neg hk]
    rcases planOf_cases (h.before hk) with ⟨hnew, hold⟩ | ⟨info', info, hnew, hold, hplan⟩
    · rw [hnew, hold]
    · rw [hnew, hold]
      exact endLocation_congr hplan

theorem SamePlace.calcGetToStartDuration (h : SamePlace s s' k k') :
    s'.calcGetToStartDuration amr k' = s.calcGetToStartDuration amr k := by
  unfold StnTaskManagement.calcGetToStartDuration
  rw [h.getLastPositionBefore]
  refine bind_congr fun last => ?_
  rcases planOf_cases h.this with ⟨hnew, hold⟩ | ⟨info', info, hnew, hold, hplan⟩
  · rw [hnew, hold]
  · have htask : info'.task = info.task := congrArg Prod.fst hplan
    rw [hnew, hold]
    simp only [htask]

theorem SamePlace.previousVertex (h : SamePlace s s' k k') :
    previousVertex s'.currentOrdering k' = previousVertex s.currentOrdering k := by
  cases k with
  | zero => rw [h.zero.mpr rfl]; rfl
  | succ k =>
    obtain ⟨l, rfl⟩ : ∃ l, k' = l + 1 :=
      ⟨k' - 1, by have := h.zero; omega⟩
    have hbefore := h.before (by omega)
    simp only [Nat.add_sub_cancel] at hbefore
    simp only [StnTaskManagement.previousVertex]
    rcases planOf_cases hbefore with ⟨hnew, hold⟩ | ⟨info', info, hnew, hold, hplan⟩
    · rw [hnew, hold]
    · have htask : info'.task = info.task := congrArg Prod.fst hplan
      rw [hnew, hold, Option.bind_some, Option.bind_some, htask]

theorem Connected.of_samePlace (h : Connected amr s k task) (hplace : SamePlace s s' k k')
    (hg : Extends s.network s'.network) : Connected amr s' k' task := by
  obtain ⟨d, first, previous, hd, hpos, hfirst, hprevious, hbound⟩ := h
  exact ⟨d, first, previous, hplace.calcGetToStartDuration.trans hd, hpos, hfirst,
    hplace.previousVertex.trans hprevious, hg.bounded _ _ _ hbound⟩

end Ordering

/-! ### Insertion points -/

/-- The point is between two neighbors of the ordering. -/
structure IsPoint (ordering : List TaskInsertInfo) (point : StnInsertionPoint) : Prop where
  previous : previousVertex ordering point.newIndex = some point.previousFinish
  next : point.nextStart = (ordering[point.newIndex]?).bind fun info =>
    info.task.orders.head?.map fun first => .start first.uuid

theorem isPoint_of_mem_from {before infos : List TaskInsertInfo}
    (h : s.calcInsertionPointsFrom (before.length + 1) infos = .ok points)
    (hpoint : point ∈ points) : IsPoint (before ++ infos) point := by
  induction infos generalizing before points with
  | nil =>
    obtain rfl := ok.inj h
    cases hpoint
  | cons info infos ih =>
    cases infos with
    | nil =>
      simp only [calcInsertionPointsFrom] at h
      obtain ⟨last, hlast, h⟩ := bind_eq_ok.mp h
      obtain ⟨v, hv, h⟩ := bind_eq_ok.mp h
      obtain rfl := ok.inj h
      obtain rfl := mem_singleton.mp hpoint
      obtain ⟨rfl, -⟩ := vertexOf_eq_ok hv
      refine ⟨?_, by simp⟩
      simp [previousVertex, lastOrder_eq_ok hlast]
    | cons next infos =>
      simp only [calcInsertionPointsFrom] at h
      obtain ⟨last, hlast, h⟩ := bind_eq_ok.mp h
      obtain ⟨v, hv, h⟩ := bind_eq_ok.mp h
      obtain ⟨first, hfirst, h⟩ := bind_eq_ok.mp h
      obtain ⟨v', hv', h⟩ := bind_eq_ok.mp h
      obtain ⟨points', hrest, h⟩ := bind_eq_ok.mp h
      obtain rfl := ok.inj h
      obtain ⟨rfl, -⟩ := vertexOf_eq_ok hv
      obtain ⟨rfl, -⟩ := vertexOf_eq_ok hv'
      rcases mem_cons.mp hpoint with rfl | hpoint
      · refine ⟨?_, ?_⟩
        · simp [previousVertex, lastOrder_eq_ok hlast]
        · simp [firstOrder_eq_ok hfirst]
      · have hlength : before.length + 1 + 1 = (before ++ [info]).length + 1 := by simp
        rw [hlength] at hrest
        have hmem := ih hrest hpoint
        rwa [append_assoc, singleton_append] at hmem

theorem isPoint_of_mem (h : s.calcInsertionPoints = .ok points) (hpoint : point ∈ points) :
    IsPoint s.currentOrdering point := by
  unfold calcInsertionPoints at h
  cases hordering : s.currentOrdering with
  | nil =>
    rw [hordering] at h
    obtain rfl := ok.inj h
    obtain rfl := mem_singleton.mp hpoint
    exact ⟨rfl, rfl⟩
  | cons info infos =>
    rw [hordering] at h
    obtain ⟨first, hfirst, h⟩ := bind_eq_ok.mp h
    obtain ⟨v, hv, h⟩ := bind_eq_ok.mp h
    obtain ⟨points', hrest, h⟩ := bind_eq_ok.mp h
    obtain rfl := ok.inj h
    obtain ⟨rfl, -⟩ := vertexOf_eq_ok hv
    rcases mem_cons.mp hpoint with rfl | hpoint
    · exact ⟨rfl, by simp [firstOrder_eq_ok hfirst]⟩
    · have hpoint' : IsPoint ([] ++ info :: infos) point := isPoint_of_mem_from hrest hpoint
      exact hpoint'

/-! ### Insertion -/

section Insertion

variable {amr : AmrMobility} {s s' : StnTaskManagement} {k : ℕ} {point : StnInsertionPoint}

/-- The update is that of the way to the task at the index. -/
theorem updateGetToStartDurationConstraint_run (hsigned : Signed .origin s.network)
    (h : updateGetToStartDurationConstraint amr k s = (s', .ok ())) :
    ∃ d info first previous g, s.calcGetToStartDuration amr k = .ok d ∧
      s.currentOrdering[k]? = some info ∧ info.task.orders.head? = some first ∧
      previousVertex s.currentOrdering k = some previous ∧
      updateLastBinaryConstraint previous (.start first.uuid) (some d) none s.network =
        (g, .ok ()) ∧ s' = { s with network := g } := by
  unfold updateGetToStartDurationConstraint at h
  rw [get_bind_run] at h
  obtain ⟨d, hd, h⟩ := lift_bind_run_eq_ok.mp h
  cases hinfo : s.currentOrdering[k]? with
  | none =>
    rw [hinfo] at h
    cases h
  | some info =>
    rw [hinfo] at h
    obtain ⟨first, hfirst, h⟩ := lift_bind_run_eq_ok.mp h
    obtain ⟨previous, hvertex, h⟩ : ∃ previous,
        previousVertex s.currentOrdering k = some previous ∧
        (do
          let thisStart ← getVertexOfOrder first true
          onNetwork (updateLastBinaryConstraint previous thisStart (some d) none)) s =
          (s', .ok ()) := by
      cases k with
      | zero =>
        rw [if_pos rfl] at h
        obtain ⟨s₁, v, hv, h⟩ := bind_run_eq_ok.mp h
        obtain ⟨g, hg, rfl⟩ := onNetwork_run hv
        rw [getOrigin_run hsigned.head] at hg
        cases hg
        exact ⟨.origin, rfl, h⟩
      | succ k =>
        rw [if_neg (Nat.succ_ne_zero k), Nat.add_sub_cancel] at h
        cases hbefore : s.currentOrdering[k]? with
        | none =>
          rw [hbefore] at h
          cases h
        | some before =>
          rw [hbefore] at h
          obtain ⟨last, hlast, h⟩ := lift_bind_run_eq_ok.mp h
          obtain ⟨s₁, v, hv, h⟩ := bind_run_eq_ok.mp h
          obtain ⟨rfl, rfl, -⟩ := getVertexOfOrder_run hv
          refine ⟨_, ?_, h⟩
          simp [previousVertex, hbefore, lastOrder_eq_ok hlast]
    obtain ⟨s₂, v, hv, h⟩ := bind_run_eq_ok.mp h
    obtain ⟨rfl, rfl, -⟩ := getVertexOfOrder_run hv
    obtain ⟨g, hg, rfl⟩ := onNetwork_run h
    exact ⟨d, info, first, previous, g, hd, rfl, firstOrder_eq_ok hfirst, hvertex, hg, rfl⟩

/-- A constraint for the way to a task is added and gets its duration. -/
theorem addWay_run {s₁ s₂ : StnTaskManagement} (hsigned : Signed .origin s.network)
    {info : TaskInsertInfo} {first : TaskOrder} {previous : StnTaskManagementVertex}
    (hinfo : s.currentOrdering[k]? = some info) (hfirst : info.task.orders.head? = some first)
    (hprevious : previousVertex s.currentOrdering k = some previous)
    (hadd : onNetwork (addBinaryConstraint previous (.start first.uuid) (some 0) none) s =
      (s₁, .ok ())) (hupdate : updateGetToStartDurationConstraint amr k s₁ = (s₂, .ok ())) :
    ∃ g, s₂ = { s with network := g } ∧ MoreLower .origin s.network g ∧
      Connected amr s₂ k info.task := by
  obtain ⟨g₁, hg₁, rfl⟩ := onNetwork_run hadd
  have hsigned₁ := (addBinaryConstraint_lower hsigned (by simp) hg₁).1.signed
  obtain ⟨d, info', first', previous', g, hd, hinfo', hfirst', hprevious', hg, rfl⟩ :=
    updateGetToStartDurationConstraint_run hsigned₁ hupdate
  obtain rfl := Option.some.inj (hinfo.symm.trans hinfo')
  obtain rfl := Option.some.inj (hfirst.symm.trans hfirst')
  obtain rfl := Option.some.inj (hprevious.symm.trans hprevious')
  obtain ⟨hmore, hbound, hpos⟩ := updateLastBinaryConstraint_lower hsigned (by simp) hg₁ hg
  exact ⟨g, rfl, hmore, d, first, previous, hd, hpos, hfirst, hprevious, hbound⟩

variable {g : SimpleTemporalNetwork StnTaskManagementVertex} {info : TaskInsertInfo} {j : ℕ}

theorem samePlace_insert_before (hk : k < j) :
    SamePlace s { s with
      currentOrdering := s.currentOrdering.insertIdx j info, network := g } k k := by
  refine ⟨rfl, rfl, Iff.rfl, ?_, fun _ => ?_⟩
  · simp only [getElem?_insertIdx_of_lt hk]
  · simp only [getElem?_insertIdx_of_lt (show k - 1 < j by omega)]

theorem samePlace_insert_behind (hk : j < k) :
    SamePlace s { s with
      currentOrdering := s.currentOrdering.insertIdx j info, network := g } k (k + 1) := by
  refine ⟨rfl, rfl, by omega, ?_, fun _ => ?_⟩
  · simp only [getElem?_insertIdx_of_gt (show j < k + 1 by omega), Nat.add_sub_cancel]
  · simp only [Nat.add_sub_cancel, getElem?_insertIdx_of_gt hk]

/-- The insertion puts the task between its neighbors and adds the ways to it and
from it. -/
theorem addOrderingConstraintBetweenTasks_run (hsigned : Signed .origin s.network)
    (hnonempty : ∀ i ∈ s.currentOrdering, i.task.orders ≠ [])
    (hpoint : IsPoint s.currentOrdering point)
    (h : addOrderingConstraintBetweenTasks amr point info s = (s', .ok ())) :
    point.newIndex ≤ s.currentOrdering.length ∧
    ∃ g, s' = { s with
        currentOrdering := s.currentOrdering.insertIdx point.newIndex info, network := g } ∧
      MoreLower .origin s.network g ∧ Connected amr s' point.newIndex info.task ∧
      ∀ next, s.currentOrdering[point.newIndex]? = some next →
        Connected amr s' (point.newIndex + 1) next.task := by
  unfold addOrderingConstraintBetweenTasks at h
  rw [get_bind_run] at h
  split_ifs at h with hlength
  · cases h
  have hle : point.newIndex ≤ s.currentOrdering.length := not_lt.mp hlength
  refine ⟨hle, ?_⟩
  rw [modify_bind_run] at h
  -- the neighbors in the new ordering
  have hthis : (s.currentOrdering.insertIdx point.newIndex info)[point.newIndex]? =
      some info := getElem?_insertIdx_self.trans (if_pos hle)
  have hprevious : previousVertex (s.currentOrdering.insertIdx point.newIndex info)
      point.newIndex = some point.previousFinish := by
    rw [← hpoint.previous]
    cases hindex : point.newIndex with
    | zero => rfl
    | succ k => simp only [previousVertex, getElem?_insertIdx_of_lt (Nat.lt_succ_self k)]
  obtain ⟨first, hfirst, h⟩ := lift_bind_run_eq_ok.mp h
  obtain ⟨s₁, v, hv, h⟩ := bind_run_eq_ok.mp h
  obtain ⟨rfl, rfl, -⟩ := getVertexOfOrder_run hv
  obtain ⟨s₂, _, hadd, h⟩ := bind_run_eq_ok.mp h
  obtain ⟨s₃, _, hupdate, h⟩ := bind_run_eq_ok.mp h
  obtain ⟨g, rfl, hmore, hconnected⟩ :=
    addWay_run (s := { s with
      currentOrdering := s.currentOrdering.insertIdx point.newIndex info })
      hsigned hthis (firstOrder_eq_ok hfirst) hprevious hadd hupdate
  cases hnext : point.nextStart with
  | none =>
    rw [hnext] at h
    obtain rfl := congrArg Prod.fst h
    refine ⟨g, rfl, hmore, hconnected, fun next hnextInfo => ?_⟩
    -- a task after the point would have a start
    have hpointNext := hpoint.next
    rw [hnext, hnextInfo, Option.bind_some] at hpointNext
    obtain ⟨order, orders, horders⟩ :=
      exists_cons_of_ne_nil (hnonempty next (mem_of_getElem? hnextInfo))
    rw [horders] at hpointNext
    cases hpointNext
  | some nextStart =>
    rw [hnext] at h
    obtain ⟨last, hlast, h⟩ := lift_bind_run_eq_ok.mp h
    obtain ⟨s₄, v, hv, h⟩ := bind_run_eq_ok.mp h
    obtain ⟨rfl, rfl, -⟩ := getVertexOfOrder_run hv
    obtain ⟨s₅, _, hadd', hupdate'⟩ := bind_run_eq_ok.mp h
    have hpointNext := hpoint.next
    rw [hnext] at hpointNext
    obtain ⟨next, hnextInfo, hnextStart⟩ := Option.bind_eq_some_iff.mp hpointNext.symm
    obtain ⟨nextFirst, hnextFirst, rfl⟩ := Option.map_eq_some_iff.mp hnextStart
    have hnextThis : (s.currentOrdering.insertIdx point.newIndex info)[point.newIndex + 1]? =
        some next := by
      rw [getElem?_insertIdx_of_gt (show point.newIndex < point.newIndex + 1 by omega),
        Nat.add_sub_cancel, hnextInfo]
    have hnextPrevious : previousVertex (s.currentOrdering.insertIdx point.newIndex info)
        (point.newIndex + 1) = some (.finish last.uuid) := by
      simp [previousVertex, hthis, lastOrder_eq_ok hlast]
    obtain ⟨g', rfl, hmore', hconnected'⟩ :=
      addWay_run (s := { s with
        currentOrdering := s.currentOrdering.insertIdx point.newIndex info, network := g })
        hmore.signed hnextThis hnextFirst hnextPrevious hadd' hupdate'
    refine ⟨g', rfl, hmore.trans hmore', ?_, fun next' hnext' => ?_⟩
    · exact hconnected.of_samePlace ⟨rfl, rfl, Iff.rfl, rfl, fun _ => rfl⟩ hmore'.kept
    · obtain rfl := Option.some.inj (hnextInfo.symm.trans hnext')
      exact hconnected'

/-- An insertion at a point between two neighbors keeps the ordering and the
network together. -/
theorem Consistent.insert (hs : Consistent amr s) (hpoint : IsPoint s.currentOrdering point)
    (hinfo : Planned amr s.network s.timeNow info.task)
    (huuid : ∀ i ∈ s.currentOrdering, i.task.uuid ≠ info.task.uuid)
    (h : addOrderingConstraintBetweenTasks amr point info s = (s', .ok ())) :
    Consistent amr s' := by
  obtain ⟨hle, g, rfl, hmore, hthis, hnext⟩ := addOrderingConstraintBetweenTasks_run hs.signed
    (fun i hi => (hs.planned i hi).nonempty) hpoint h
  have hmem : ∀ i, i ∈ s.currentOrdering.insertIdx point.newIndex info ↔
      i = info ∨ i ∈ s.currentOrdering := fun i => mem_insertIdx hle
  refine ⟨hmore.signed, fun i hi => ?_, fun k i hi => ?_, ?_⟩
  · rcases (hmem i).mp hi with rfl | hi
    · exact ⟨hinfo.nonempty, hinfo.orders.mono hmore.kept⟩
    · exact ⟨(hs.planned i hi).nonempty, (hs.planned i hi).orders.mono hmore.kept⟩
  · have hget : (s.currentOrdering.insertIdx point.newIndex info)[k]? = some i := hi
    rcases lt_trichotomy k point.newIndex with hlt | rfl | hgt
    · rw [getElem?_insertIdx_of_lt hlt] at hget
      exact (hs.connected k i hget).of_samePlace (samePlace_insert_before hlt) hmore.kept
    · rw [getElem?_insertIdx_self, if_pos hle] at hget
      obtain rfl := Option.some.inj hget
      exact hthis
    · rw [getElem?_insertIdx_of_gt hgt] at hget
      obtain ⟨k', rfl⟩ : ∃ k', k = k' + 1 := ⟨k - 1, by omega⟩
      rw [Nat.add_sub_cancel] at hget
      rcases (Nat.lt_succ_iff.mp hgt).eq_or_lt with rfl | hbehind
      · exact hnext i hget
      · exact (hs.connected k' i hget).of_samePlace (samePlace_insert_behind hbehind) hmore.kept
  · have hperm : (s.currentOrdering.insertIdx point.newIndex info).Perm
        (info :: s.currentOrdering) := perm_insertIdx _ _ hle
    refine (hperm.map fun i => i.task.uuid).nodup_iff.mpr ?_
    rw [map_cons, nodup_cons]
    refine ⟨fun hmem => ?_, hs.distinct⟩
    obtain ⟨i, hi, heq⟩ := mem_map.mp hmem
    exact huuid i hi heq

end Insertion

/-! ### Times -/

/-- The first order of a task starts and the last one finishes at the given times. -/
structure Timed (s : StnTaskManagement) (task : Task) (start finish : ℚ) : Prop where
  start : ∀ first, task.orders.head? = some first →
    s.network.distance s.dGraph (.start first.uuid) .origin = ((s.timeNow - start : ℚ) : WithTop ℚ)
  finish : ∀ last, task.orders.getLast? = some last →
    s.network.distance s.dGraph (.finish last.uuid) .origin =
      ((s.timeNow - finish : ℚ) : WithTop ℚ)

section Times

variable {amr : AmrMobility} {s : StnTaskManagement}
  (hsolve : s.network.solve = (s.dGraph, true))
include hsolve

/-- A way to a vertex whose distance is known. -/
theorem exists_distance_of_path {u v : StnTaskManagementVertex} {w q : ℚ}
    (hsigned : Signed .origin s.network) (hpath : s.network.Path u v w)
    (hv : s.network.distance s.dGraph v .origin = (q : WithTop ℚ)) :
    ∃ r : ℚ, s.network.distance s.dGraph u .origin = (r : WithTop ℚ) ∧ r ≤ w + q := by
  refine WithTop.le_coe_iff.mp ?_
  calc s.network.distance s.dGraph u .origin
      ≤ s.network.distance s.dGraph u v + s.network.distance s.dGraph v .origin :=
        distance_triangle hsolve hpath.mem.1 hpath.mem.2 hsigned.mem
    _ ≤ (w : WithTop ℚ) + (q : WithTop ℚ) := add_le_add (hpath.distance_le hsolve) hv.le
    _ = ((w + q : ℚ) : WithTop ℚ) := (WithTop.coe_add w q).symm

variable {task : Task} {info : TaskInsertInfo} {starts ends : ℕ → ℚ}

/-- The last finish is after the first start and all that the orders take. -/
theorem Planned.exists_timed (h : Planned amr s.network s.timeNow task)
    (hsigned : Signed .origin s.network) {first : TaskOrder} {q : ℚ}
    (hfirst : task.orders.head? = some first)
    (hq : s.network.distance s.dGraph (.start first.uuid) .origin = (q : WithTop ℚ)) :
    ∃ finish, Timed s task (s.timeNow - q) finish ∧
      ∃ total, taskDuration amr task = .ok total ∧ 0 ≤ total ∧
        s.timeNow - q + total ≤ finish := by
  obtain ⟨total, htotal, hlinked⟩ := h.orders.linked
  obtain ⟨order, orders, horders⟩ := exists_cons_of_ne_nil h.nonempty
  rw [horders] at hlinked
  obtain rfl : order = first := by simpa [horders] using hfirst
  obtain ⟨hpos, -, hpath⟩ := hlinked.first
  have hlast : task.orders.getLast? = some (task.orders.getLast h.nonempty) :=
    getLast?_eq_getLast_of_ne_nil h.nonempty
  obtain ⟨r, hr, hle⟩ := exists_distance_of_path hsolve hsigned
    (hpath _ (by rw [← horders]; exact hlast)) hq
  refine ⟨s.timeNow - r, ⟨fun first' hfirst' => ?_, fun last' hlast' => ?_⟩, total, htotal, hpos,
    by linarith⟩
  · obtain rfl := Option.some.inj (hfirst.symm.trans hfirst')
    rw [hq, sub_sub_cancel]
  · obtain rfl := Option.some.inj (hlast.symm.trans hlast')
    rw [hr, sub_sub_cancel]

/-- Every task of the ordering has finite times that are not in the past. -/
theorem Consistent.exists_timed (hs : Consistent amr s) {k : ℕ}
    (hinfo : s.currentOrdering[k]? = some info) :
    ∃ start finish, Timed s info.task start finish ∧ s.timeNow ≤ start ∧
      ∃ total, taskDuration amr info.task = .ok total ∧ 0 ≤ total ∧ start + total ≤ finish := by
  induction k generalizing info with
  | zero =>
    obtain ⟨d, first, previous, -, hpos, hfirst, hprevious, hbound⟩ := hs.connected _ _ hinfo
    obtain rfl : .origin = previous := Option.some.inj hprevious
    obtain ⟨q, hq, hle⟩ := exists_distance_of_path hsolve hs.signed (.edge hbound)
      (distance_self hsolve hs.signed.mem)
    obtain ⟨finish, htimed, hduration⟩ := (hs.planned info
      (mem_of_getElem? hinfo)).exists_timed hsolve hs.signed hfirst hq
    exact ⟨s.timeNow - q, finish, htimed, by linarith, hduration⟩
  | succ k ih =>
    obtain ⟨d, first, previous, -, hpos, hfirst, hprevious, hbound⟩ := hs.connected _ _ hinfo
    obtain ⟨before, hbefore, hvertex⟩ := Option.bind_eq_some_iff.mp hprevious
    obtain ⟨last, hlast, rfl⟩ := Option.map_eq_some_iff.mp hvertex
    obtain ⟨start', finish', htimed', hnow, total, -, htotal, hle'⟩ := ih hbefore
    obtain ⟨q, hq, hle⟩ := exists_distance_of_path hsolve hs.signed (.edge hbound)
      (htimed'.finish last hlast)
    obtain ⟨finish, htimed, hduration⟩ := (hs.planned info
      (mem_of_getElem? hinfo)).exists_timed hsolve hs.signed hfirst hq
    exact ⟨s.timeNow - q, finish, htimed, by linarith, hduration⟩

/-- What follows for the task at index `k` from its constraints. -/
structure Scheduled (amr : AmrMobility) (s : StnTaskManagement) (starts ends : ℕ → ℚ) (k : ℕ)
    (task : Task) : Prop where
  timed : Timed s task (starts k) (ends k)
  now : s.timeNow ≤ starts k
  duration : ∃ d, taskDuration amr task = .ok d ∧ 0 ≤ d ∧ starts k + d ≤ ends k
  travel : ∃ d, s.calcGetToStartDuration amr k = .ok d ∧ 0 ≤ d ∧
    (if k = 0 then s.timeNow else ends (k - 1)) + d ≤ starts k
  window : ∀ w, task.timeWindow = some w → ∃ earliest latest,
    w.getAbsoluteEarliestStart = .ok earliest ∧ w.getAbsoluteLatestFinish = .ok latest ∧
      earliest ≤ starts k ∧ ends k ≤ latest

/-- The way to a task is part of its start time. -/
theorem Consistent.travel_le (hs : Consistent amr s)
    (htimed : ∀ k info, s.currentOrdering[k]? = some info →
      Timed s info.task (starts k) (ends k)) {k : ℕ} (hinfo : s.currentOrdering[k]? = some info) :
    ∃ d, s.calcGetToStartDuration amr k = .ok d ∧ 0 ≤ d ∧
      (if k = 0 then s.timeNow else ends (k - 1)) + d ≤ starts k := by
  obtain ⟨d, first, previous, hd, hpos, hfirst, hprevious, hbound⟩ := hs.connected k info hinfo
  have hstart := (htimed k info hinfo).start first hfirst
  refine ⟨d, hd, hpos, ?_⟩
  cases k with
  | zero =>
    obtain rfl : .origin = previous := Option.some.inj hprevious
    obtain ⟨q, hq, hle⟩ := exists_distance_of_path hsolve hs.signed (.edge hbound)
      (distance_self hsolve hs.signed.mem)
    have heq : s.timeNow - starts 0 = q := WithTop.coe_injective (hstart.symm.trans hq)
    rw [if_pos rfl]
    linarith
  | succ k =>
    obtain ⟨before, hbefore, hvertex⟩ := Option.bind_eq_some_iff.mp hprevious
    obtain ⟨last, hlast, rfl⟩ := Option.map_eq_some_iff.mp hvertex
    obtain ⟨q, hq, hle⟩ := exists_distance_of_path hsolve hs.signed (.edge hbound)
      ((htimed k before hbefore).finish last hlast)
    have heq : s.timeNow - starts (k + 1) = q := WithTop.coe_injective (hstart.symm.trans hq)
    rw [if_neg (Nat.succ_ne_zero k), Nat.add_sub_cancel]
    linarith

/-- The bounds of a window hold for the times. -/
theorem Planned.window_le (h : Planned amr s.network s.timeNow task)
    (hsigned : Signed .origin s.network) (htimed : Timed s task start finish) {w : TimeWindow}
    (hw : task.timeWindow = some w) : ∃ earliest latest,
      w.getAbsoluteEarliestStart = .ok earliest ∧ w.getAbsoluteLatestFinish = .ok latest ∧
        earliest ≤ start ∧ finish ≤ latest := by
  obtain ⟨first, orders, horders⟩ := exists_cons_of_ne_nil h.nonempty
  have hfirst : task.orders.head? = some first := by rw [horders]; rfl
  have hlast := getLast?_eq_getLast_of_ne_nil h.nonempty
  obtain ⟨hlower, hupper⟩ := h.orders.window w hw
  obtain ⟨earliest, hearliest, hbound⟩ := hlower rfl first hfirst
  obtain ⟨latest, hlatest, hbound'⟩ := hupper _ hlast
  refine ⟨earliest, latest, hearliest, hlatest, ?_, ?_⟩
  · obtain ⟨q, hq, hle⟩ := exists_distance_of_path hsolve hsigned (.edge hbound)
      (distance_self hsolve hsigned.mem)
    have heq : s.timeNow - start = q :=
      WithTop.coe_injective ((htimed.start first hfirst).symm.trans hq)
    linarith
  · -- from the origin to the finish and back the way is not negative
    obtain ⟨q, hq, hle⟩ := exists_distance_of_path hsolve hsigned (.edge hbound')
      (htimed.finish _ hlast)
    have hzero : q = 0 := by
      have hself := distance_self hsolve hsigned.mem
      exact WithTop.coe_injective (hq.symm.trans hself)
    linarith

theorem Consistent.exists_schedule (hs : Consistent amr s) :
    ∃ starts ends, ∀ k info, s.currentOrdering[k]? = some info →
      Scheduled amr s starts ends k info.task := by
  have hall : ∀ k : ℕ, ∃ times : ℚ × ℚ, ∀ info : TaskInsertInfo,
      s.currentOrdering[k]? = some info →
      Timed s info.task times.1 times.2 ∧ s.timeNow ≤ times.1 ∧
        ∃ d, taskDuration amr info.task = .ok d ∧ 0 ≤ d ∧ times.1 + d ≤ times.2 := by
    intro k
    cases hinfo : s.currentOrdering[k]? with
    | none => exact ⟨(0, 0), fun info h => by cases h⟩
    | some info =>
      obtain ⟨start, finish, htimed, hnow, hduration⟩ := hs.exists_timed hsolve hinfo
      refine ⟨(start, finish), fun info' h => ?_⟩
      obtain rfl := Option.some.inj h
      exact ⟨htimed, hnow, hduration⟩
  choose times htimes using hall
  refine ⟨fun k => (times k).1, fun k => (times k).2, fun k info hinfo => ?_⟩
  obtain ⟨htimed, hnow, hduration⟩ := htimes k info hinfo
  exact ⟨htimed, hnow, hduration,
    hs.travel_le hsolve (fun k info hinfo => (htimes k info hinfo).1) hinfo,
    fun w hw => (hs.planned info (mem_of_getElem? hinfo)).window_le hsolve hs.signed htimed
      hw⟩

omit hsolve in
/-- A later task starts later. -/
theorem starts_le_starts
    (h : ∀ k info, s.currentOrdering[k]? = some info → Scheduled amr s starts ends k info.task)
    {i j : ℕ} (hij : i ≤ j) (hj : j < s.currentOrdering.length) : starts i ≤ starts j := by
  induction hij with
  | refl => exact le_rfl
  | @step j hij ih =>
    have hi := ih (by omega)
    obtain ⟨d, -, hd, hduration⟩ := (h j _ (getElem?_eq_getElem (by omega))).duration
    obtain ⟨t, -, ht, htravel⟩ := (h (j + 1) _ (getElem?_eq_getElem hj)).travel
    rw [if_neg (Nat.succ_ne_zero j), Nat.add_sub_cancel] at htravel
    linarith

end Times

/-! ### The times in the ordering -/

theorem timeOf_le {x y : WithTop ℚ} (h : x ≤ y) : timeOf y ≤ timeOf x := by
  cases y with
  | top => exact bot_le
  | coe q =>
    obtain ⟨r, rfl, hle⟩ := WithTop.le_coe_iff.mp h
    exact WithBot.coe_le_coe.mpr (neg_le_neg hle)

section Updated

variable {amr : AmrMobility} {s s' : StnTaskManagement}

theorem orderStart_eq_ok (hsigned : Signed .origin s.network) {order : TaskOrder} {t : TimePoint}
    (h : s.orderStart order = .ok t) :
    t = timeOf (s.network.distance s.dGraph (.start order.uuid) .origin) +
      (s.timeNow : ℚ) := by
  obtain ⟨v, hv, ht⟩ := bind_eq_ok.mp h
  obtain ⟨rfl, -⟩ := vertexOf_eq_ok hv
  have horigin : s.network.vertices.idxOf .origin = 0 := by
    obtain ⟨vs, hvs⟩ := head?_eq_some_iff.mp hsigned.head
    rw [hvs, idxOf_cons_self]
  rw [← ok.inj ht, distance, horigin]
  rfl

variable {info info' : TaskInsertInfo} {k : ℕ} {metrics : Metrics}
  {infos infos' : List TaskInsertInfo} {R : TaskInsertInfo → TaskInsertInfo → Prop}

theorem ordersMetrics_eq_ok {orders : List TaskOrder} {metrics' : Metrics}
    {starts : List TimePoint}
    (h : s.ordersMetrics amr info k orders metrics = .ok (starts, metrics')) :
    Forall₂ (fun order t => s.orderStart order = .ok t) orders starts := by
  induction orders generalizing metrics starts with
  | nil =>
    cases h
    exact .nil
  | cons order orders ih =>
    obtain ⟨start, hstart, h⟩ := bind_eq_ok.mp h
    obtain ⟨m, -, h⟩ := bind_eq_ok.mp h
    obtain ⟨⟨starts', m'⟩, hrest, h⟩ := bind_eq_ok.mp h
    cases h
    exact .cons hstart (ih hrest)

/-- The least start is the one of the first order. -/
theorem currentMetricsOf_eq_ok (hsigned : Signed .origin s.network)
    (hsolve : s.network.solve = (s.dGraph, true))
    (hplanned : Planned amr s.network s.timeNow info.task)
    (h : s.currentMetricsOf amr k info = .ok metrics) {first : TaskOrder}
    (hfirst : info.task.orders.head? = some first) : metrics.executionStartTime =
      some (timeOf (s.network.distance s.dGraph (.start first.uuid) .origin) +
        (s.timeNow : ℚ)) := by
  obtain ⟨⟨starts, m⟩, hstarts, h⟩ := bind_eq_ok.mp h
  have hforall := ordersMetrics_eq_ok hstarts
  cases hmin : starts.min? with
  | none =>
    simp only [hmin] at h
    cases h
  | some start =>
    simp only [hmin] at h
    obtain ⟨startUp, -, h⟩ := bind_eq_ok.mp h
    cases h
    refine congrArg some ?_
    obtain ⟨hmem, hle⟩ := min?_eq_some_iff.mp hmin
    obtain ⟨order, orders, horders⟩ := exists_cons_of_ne_nil hplanned.nonempty
    obtain rfl : order = first := by simpa [horders] using hfirst
    obtain ⟨total, -, hlinked⟩ := hplanned.orders.linked
    rw [horders] at hforall hlinked
    obtain ⟨t, rest, ht, hrest, rfl⟩ := forall₂_cons_left_iff.mp hforall
    have htime := orderStart_eq_ok hsigned ht
    refine le_antisymm (htime ▸ hle t (by simp)) ?_
    rcases mem_cons.mp hmem with rfl | hmem
    · exact htime.ge
    · -- a later order starts later
      obtain ⟨o, ho, hstart⟩ : ∃ o ∈ orders, s.orderStart o = .ok start := by
        obtain ⟨i, hi, rfl⟩ := mem_iff_getElem.mp hmem
        have hlength := hrest.length_eq
        exact ⟨orders[i], getElem_mem _, (forall₂_iff_get.mp hrest).2 i
          (by omega) hi⟩
      obtain ⟨w, hw, hpath⟩ := hlinked.first.2.1 o ho
      rw [orderStart_eq_ok hsigned hstart]
      refine add_le_add (timeOf_le ?_) le_rfl
      calc s.network.distance s.dGraph (.start o.uuid) .origin
          ≤ s.network.distance s.dGraph (.start o.uuid) (.start order.uuid) +
              s.network.distance s.dGraph (.start order.uuid) .origin :=
            distance_triangle hsolve hpath.mem.1 hpath.mem.2 hsigned.mem
        _ ≤ 0 + s.network.distance s.dGraph (.start order.uuid) .origin :=
            add_le_add ((hpath.distance_le hsolve).trans (WithTop.coe_le_coe.mpr hw)) le_rfl
        _ = s.network.distance s.dGraph (.start order.uuid) .origin := zero_add _

/-- The task is the same and has the time of its first order. -/
structure Updated (s : StnTaskManagement) (info info' : TaskInsertInfo) : Prop where
  plan : planOf info' = planOf info
  start : ∀ first, info.task.orders.head? = some first → startTime info' =
    timeOf (s.network.distance s.dGraph (.start first.uuid) .origin) + (s.timeNow : ℚ)

theorem updatedInfos_eq_ok (hsigned : Signed .origin s.network)
    (hsolve : s.network.solve = (s.dGraph, true))
    (hplanned : ∀ info ∈ infos, Planned amr s.network s.timeNow info.task)
    (h : s.updatedInfos amr k infos = .ok infos') : Forall₂ (Updated s) infos infos' := by
  induction infos generalizing k infos' with
  | nil =>
    cases h
    exact .nil
  | cons info infos ih =>
    obtain ⟨metrics, hmetrics, h⟩ := bind_eq_ok.mp h
    obtain ⟨rest, hrest, h⟩ := bind_eq_ok.mp h
    cases h
    refine .cons ⟨rfl, fun first hfirst => ?_⟩
      (ih (fun i hi => hplanned i (mem_cons_of_mem _ hi)) hrest)
    have hstart := currentMetricsOf_eq_ok hsigned hsolve
      (hplanned info mem_cons_self) hmetrics hfirst
    simp only [startTime, MetricsComposition.updateCurrentMetrics, hstart, Option.getD_some]

theorem forall₂_fixNewTask {diff : Metrics} {newest : Option TaskInsertInfo}
    (h : fixNewTask diff infos = .ok (infos', newest)) :
    Forall₂ (fun info info' => planOf info' = planOf info ∧
      startTime info' = startTime info) infos infos' := by
  have hsame : ∀ infos : List TaskInsertInfo, Forall₂ (fun info info' =>
      planOf info' = planOf info ∧ startTime info' = startTime info) infos infos :=
    fun infos => forall₂_same.mpr fun _ _ => ⟨rfl, rfl⟩
  rcases fixNewTask_eq_ok h with ⟨-, rfl, -⟩ | ⟨before, new, after, m, rfl, -, hm, -, rfl, -⟩
  · exact hsame _
  · refine rel_append (hsame before) (.cons ⟨rfl, ?_⟩ (hsame after))
    rw [startTime, startTime, hm]

/-- Tasks with different uuids have their own start times in the mapping. -/
theorem startTimeMapping_eq (hdistinct : (infos.map fun info => info.task.uuid).Nodup)
    (hinfo : info ∈ infos) : startTimeMapping infos info.task.uuid = startTime info := by
  obtain ⟨found, hfound⟩ : ∃ found,
      infos.reverse.find? (fun i => i.task.uuid = info.task.uuid) = some found := by
    rw [← Option.isSome_iff_exists, find?_isSome]
    exact ⟨info, mem_reverse.mpr hinfo, by simp⟩
  have huuid : found.task.uuid = info.task.uuid := by simpa using find?_some hfound
  have hmem : found ∈ infos := mem_reverse.mp (mem_of_find?_eq_some hfound)
  obtain rfl := inj_on_of_nodup_map hdistinct hmem hinfo huuid
  rw [startTimeMapping, findRev?_eq_find?_reverse, hfound]

/-- Sorting changes nothing if the start times ascend. -/
theorem sortByStart_eq (hdistinct : (infos.map fun info => info.task.uuid).Nodup)
    (hsorted : infos.Pairwise fun i₁ i₂ => startTime i₁ ≤ startTime i₂) :
    sortByStart infos = infos := by
  refine Pairwise.insertionSort_eq (hsorted.imp_of_mem fun h₁ h₂ hle => ?_)
  rw [startTimeMapping_eq hdistinct h₁, startTimeMapping_eq hdistinct h₂]
  exact hle

theorem map_planOf_eq (hR : ∀ info info', R info info' → planOf info' = planOf info)
    (h : Forall₂ R infos infos') : infos'.map planOf = infos.map planOf := by
  induction h with
  | nil => rfl
  | cons hinfo _ ih => rw [map_cons, map_cons, hR _ _ hinfo, ih]

/-- The same tasks in the same order. -/
theorem Consistent.of_plans (hs : Consistent amr s) (hnetwork : s'.network = s.network)
    (htime : s'.timeNow = s.timeNow) (htask : s'.currentTask = s.currentTask)
    (hlocation : s'.currentTaskEndLocation = s.currentTaskEndLocation)
    (hplans : s'.currentOrdering.map planOf = s.currentOrdering.map planOf) :
    Consistent amr s' := by
  have hget : ∀ k : ℕ, (s'.currentOrdering[k]?).map planOf =
      (s.currentOrdering[k]?).map planOf := by
    intro k
    rw [← getElem?_map, hplans, getElem?_map]
  refine ⟨hnetwork ▸ hs.signed, fun info' hinfo' => ?_, fun k info' hinfo' => ?_, ?_⟩
  · have hmem : planOf info' ∈ s.currentOrdering.map planOf :=
      hplans ▸ mem_map_of_mem hinfo'
    obtain ⟨info, hinfo, hplan⟩ := mem_map.mp hmem
    have heq : info'.task = info.task := (congrArg Prod.fst hplan).symm
    rw [hnetwork, htime, heq]
    exact hs.planned info hinfo
  · have hold := hget k
    rw [hinfo', Option.map_some] at hold
    obtain ⟨info, hinfo, hplan⟩ := Option.map_eq_some_iff.mp hold.symm
    have heq : info'.task = info.task := (congrArg Prod.fst hplan).symm
    rw [heq]
    exact (hs.connected k info hinfo).of_samePlace
      ⟨htask, hlocation, Iff.rfl, hget k, fun _ => hget (k - 1)⟩ (hnetwork ▸ .refl _)
  · have huuids : ∀ infos : List TaskInsertInfo, infos.map (fun info => info.task.uuid) =
        (infos.map planOf).map fun plan => plan.1.uuid := fun infos => by
      rw [map_map]
      rfl
    rw [huuids, hplans, ← huuids]
    exact hs.distinct

/-- The task that an updated task comes from. -/
theorem exists_getElem?_of_forall₂ (h : Forall₂ R infos infos')
    (hinfo' : infos'[k]? = some info') : ∃ info, infos[k]? = some info ∧ R info info' := by
  obtain ⟨hk, rfl⟩ := List.getElem?_eq_some_iff.mp hinfo'
  have hlength := h.length_eq
  exact ⟨infos[k], getElem?_eq_getElem _, (forall₂_iff_get.mp h).2 k (by omega) hk⟩

theorem timeOf_sub_add (now t : ℚ) :
    timeOf ((now - t : ℚ) : WithTop ℚ) + (now : ℚ) = (t : TimePoint) := by
  have heq : -(now - t) + now = t := by ring
  calc timeOf ((now - t : ℚ) : WithTop ℚ) + (now : ℚ)
      = ((-(now - t) + now : ℚ) : TimePoint) := rfl
    _ = (t : TimePoint) := by rw [heq]

/-- The start time of an updated task by a schedule. -/
theorem Updated.startTime_eq (h : Updated s info info') (hnonempty : info.task.orders ≠ [])
    (htimed : Timed s info.task start finish) : startTime info' = (start : TimePoint) := by
  obtain ⟨first, orders, horders⟩ := exists_cons_of_ne_nil hnonempty
  have hfirst : info.task.orders.head? = some first := by rw [horders]; rfl
  rw [h.start first hfirst, htimed.start first hfirst, timeOf_sub_add]

/-- The updated tasks are in order already. -/
theorem sortByStart_updated (hs : Consistent amr s) (hsolve : s.network.solve = (s.dGraph, true))
    (h : Forall₂ (Updated s) s.currentOrdering infos) : sortByStart infos = infos := by
  obtain ⟨starts, ends, hschedule⟩ := hs.exists_schedule hsolve
  have hlength := h.length_eq
  have hstart : ∀ k info', infos[k]? = some info' → startTime info' = (starts k : TimePoint) := by
    intro k info' hinfo'
    obtain ⟨info, hinfo, hupdated⟩ := exists_getElem?_of_forall₂ h hinfo'
    exact hupdated.startTime_eq (hs.planned info (mem_of_getElem? hinfo)).nonempty
      (hschedule k info hinfo).timed
  have hplans := map_planOf_eq (fun info info' (hu : Updated s info info') => hu.plan) h
  refine sortByStart_eq ?_ (pairwise_iff_getElem.mpr fun i j hi hj hij => ?_)
  · have hmap : infos.map (fun info => info.task.uuid) =
        s.currentOrdering.map fun info => info.task.uuid := by
      have huuids := congrArg (map fun plan : Task × List Position => plan.1.uuid) hplans
      rwa [map_map, map_map] at huuids
    rw [hmap]
    exact hs.distinct
  · rw [hstart i _ (getElem?_eq_getElem hi), hstart j _ (getElem?_eq_getElem hj)]
    exact WithBot.coe_le_coe.mpr (starts_le_starts hschedule hij.le (by omega))

theorem updateCurrentOrdering_run (hs : Consistent amr s)
    (hsolve : s.network.solve = (s.dGraph, true))
    (h : updateCurrentOrdering amr s = (s', .ok ())) :
    ∃ infos total newest, s' = { s with
        currentOrdering := infos, currentTotalMetrics := total, newestTaskInsertInfo := newest } ∧
      Forall₂ (Updated s) s.currentOrdering infos := by
  obtain ⟨infos, total, diff, infos', newest, hinfos, -, -, -, hfix, rfl⟩ :=
    updateCurrentOrdering_eq_ok h
  have hupdated := updatedInfos_eq_ok hs.signed hsolve hs.planned hinfos
  rw [sortByStart_updated hs hsolve hupdated] at hfix
  refine ⟨infos', total, newest, rfl, ?_⟩
  -- the metrics of the insertion do not touch the start times
  have hfixed := forall₂_fixNewTask hfix
  refine forall₂_iff_get.mpr ⟨hupdated.length_eq.trans hfixed.length_eq, ?_⟩
  intro k hk hk'
  obtain ⟨info, hinfo, hplan, hstart⟩ :=
    exists_getElem?_of_forall₂ hfixed (getElem?_eq_getElem hk')
  obtain ⟨old, hold, hu⟩ := exists_getElem?_of_forall₂ hupdated hinfo
  obtain rfl := Option.some.inj ((getElem?_eq_getElem hk).symm.trans hold)
  exact ⟨hplan.trans hu.plan, fun first hfirst => hstart.trans (hu.start first hfirst)⟩

/-- After the network has been solved the times in the ordering are those of the
network. -/
def Fresh (s : StnTaskManagement) : Prop :=
  s.network.solve = (s.dGraph, true) ∧ ∀ info ∈ s.currentOrdering, Updated s info info

theorem solve_run (hs : Consistent amr s) {success : Bool}
    (h : StnTaskManagement.solve amr s = (s', .ok success)) :
    (Consistent amr s' ∧ (success = true → Fresh s')) ∧ s'.network = s.network ∧
      s'.currentOrdering.map planOf = s.currentOrdering.map planOf := by
  have hs' : Consistent amr { s with dGraph := s.network.solve.1 } :=
    hs.of_plans rfl rfl rfl rfl rfl
  obtain ⟨hsolve, ⟨rfl, hupdate⟩ | ⟨rfl, rfl⟩⟩ := solve_eq_ok h
  · obtain ⟨infos, total, newest, rfl, hupdated⟩ := updateCurrentOrdering_run hs' hsolve hupdate
    have hplans := map_planOf_eq (fun info info' (hu : Updated _ info info') => hu.plan) hupdated
    refine ⟨⟨hs'.of_plans rfl rfl rfl rfl hplans,
      fun _ => ⟨hsolve, fun info' hinfo' => ⟨rfl, ?_⟩⟩⟩, rfl, hplans⟩
    obtain ⟨k, hk⟩ := mem_iff_getElem?.mp hinfo'
    obtain ⟨info, -, hu⟩ := exists_getElem?_of_forall₂ hupdated hk
    have htask : info'.task = info.task := congrArg Prod.fst hu.plan
    rw [htask]
    exact hu.start
  · exact ⟨⟨hs', by simp⟩, rfl, rfl⟩

/-- The times in the ordering are those of the network. -/
theorem Fresh.times_eq (hfresh : Fresh s) {info : TaskInsertInfo} (hinfo : info ∈ s.currentOrdering)
    (hnonempty : info.task.orders ≠ []) (htimed : Timed s info.task start finish) :
    startTime info = (start : ℚ) ∧ s.finishTime info = (finish : ℚ) := by
  refine ⟨(hfresh.2 info hinfo).startTime_eq hnonempty htimed, ?_⟩
  have hlast := getLast?_eq_getLast_of_ne_nil hnonempty
  rw [finishTime, hlast]
  simp only [htimed.finish _ hlast, timeOf_sub_add]

/-- The times of a consistent and fresh state are executable. -/
theorem Consistent.isExecutable (hs : Consistent amr s) (hfresh : Fresh s) :
    IsExecutable amr s := by
  obtain ⟨starts, ends, hschedule⟩ := hs.exists_schedule hfresh.1
  refine ⟨starts, ends, fun k info hinfo => ?_⟩
  have hmem := mem_of_getElem? hinfo
  obtain ⟨htimed, hnow, ⟨d, hd, -, hle⟩, ⟨t, ht, -, htravel⟩, hwindow⟩ := hschedule k info hinfo
  obtain ⟨hstart, hfinish⟩ := hfresh.times_eq hmem (hs.planned info hmem).nonempty htimed
  exact ⟨hstart, hfinish, hnow, ⟨d, hd, hle⟩, ⟨t, ht, htravel⟩, hwindow⟩

end Updated

/-! ### Adding a task -/

section AddTask

variable {amr : AmrMobility} {s s' : StnTaskManagement}

/-- More constraints do no harm. -/
theorem Consistent.of_extends (hs : Consistent amr s)
    {g : SimpleTemporalNetwork StnTaskManagementVertex} (hsigned : Signed .origin g)
    (hkept : Extends s.network g) : Consistent amr { s with network := g } := by
  refine ⟨hsigned, fun info hinfo => ?_, fun k info hinfo => ?_, hs.distinct⟩
  · exact ⟨(hs.planned info hinfo).nonempty, (hs.planned info hinfo).orders.mono hkept⟩
  · exact (hs.connected k info hinfo).of_samePlace ⟨rfl, rfl, Iff.rfl, rfl, fun _ => rfl⟩ hkept

variable {point : StnInsertionPoint} {info : TaskInsertInfo}

/-- The constraints are kept and the task has been put into the ordering. -/
def Inserted (info : TaskInsertInfo) (s s' : StnTaskManagement) : Prop :=
  Extends s.network s'.network ∧ ∃ k, k ≤ s.currentOrdering.length ∧
    s'.currentOrdering.map planOf = (s.currentOrdering.insertIdx k info).map planOf

theorem insertAt_run (hs : Consistent amr s) (hpoint : IsPoint s.currentOrdering point)
    (hinfo : Planned amr s.network s.timeNow info.task)
    (huuid : ∀ i ∈ s.currentOrdering, i.task.uuid ≠ info.task.uuid)
    {result : Option MetricsComposition} (h : insertAt amr point info s = (s', .ok result)) :
    Consistent amr s' ∧ (result.isSome = true → Fresh s' ∧ Inserted info s s') := by
  obtain ⟨s₁, hadd, hsolve⟩ := insertAt_eq_ok.mp h
  have hs₁ := hs.insert hpoint hinfo huuid hadd
  obtain ⟨hle, g, rfl, hmore, -⟩ := addOrderingConstraintBetweenTasks_run hs.signed
    (fun i hi => (hs.planned i hi).nonempty) hpoint hadd
  obtain ⟨hsolve, rfl⟩ | ⟨hsolve, newest, -, rfl⟩ := hsolve
  · exact ⟨(solve_run hs₁ hsolve).1.1, by simp⟩
  · obtain ⟨⟨hs', hfresh⟩, hnetwork, hplans⟩ := solve_run hs₁ hsolve
    exact ⟨hs', fun _ => ⟨hfresh rfl, hnetwork ▸ hmore.kept, point.newIndex, hle, hplans⟩⟩

theorem addBestOrdering_run (hs : Consistent amr s)
    (hinfo : Planned amr s.network s.timeNow info.task)
    (huuid : ∀ i ∈ s.currentOrdering, i.task.uuid ≠ info.task.uuid)
    {result : Option (MetricsComposition × StnInsertionPoint)}
    (h : addBestOrdering amr info s = (s', .ok result)) :
    Consistent amr s' ∧ (result.isSome = true → Fresh s' ∧ Inserted info s s') := by
  obtain ⟨points, best, hpoints, hbest, ⟨-, rfl, rfl⟩ | ⟨p, m, rfl, hinsert, rfl⟩⟩ :=
    addBestOrdering_eq_ok h
  · exact ⟨hs, by simp⟩
  · have hmem := ((bestPoint_eq_ok hbest).1.resolve_left (by simp)).1
    exact insertAt_run hs (isPoint_of_mem hpoints hmem) hinfo huuid hinsert

/-- The first order of the task starts after the last one of the task with the given name. -/
def Precedes (s : StnTaskManagement) (g : SimpleTemporalNetwork StnTaskManagementVertex)
    (first : TaskOrder) (name : ℕ) : Prop :=
  ∀ info, s.currentOrdering.find? (fun info => info.task.name = name) = some info →
    ∀ last, info.task.orders.getLast? = some last →
      g.Bounded (.start first.uuid) (.finish last.uuid) 0

theorem addPrecedenceConstraintBetweenTask_run (hsigned : Signed .origin s.network)
    {first : TaskOrder} {name : ℕ}
    (h : addPrecedenceConstraintBetweenTask (.start first.uuid) name s = (s', .ok ())) :
    ∃ g, s' = { s with network := g } ∧ MoreLower .origin s.network g ∧
      Precedes s g first name := by
  unfold addPrecedenceConstraintBetweenTask at h
  rw [get_bind_run] at h
  cases hfind : s.currentOrdering.find? fun info => info.task.name = name with
  | none =>
    rw [hfind] at h
    obtain ⟨rfl, -⟩ := pure_run_eq_ok.mp h
    exact ⟨s.network, rfl, .refl hsigned, fun info hinfo => by cases hfind.symm.trans hinfo⟩
  | some info =>
    rw [hfind] at h
    obtain ⟨last, hlast, h⟩ := lift_bind_run_eq_ok.mp h
    obtain ⟨s₁, v, hv, h⟩ := bind_run_eq_ok.mp h
    obtain ⟨rfl, rfl, -⟩ := getVertexOfOrder_run hv
    obtain ⟨g, hg, rfl⟩ := onNetwork_run h
    obtain ⟨hmore, hbound, -⟩ := addBinaryConstraint_lower hsigned (by simp) hg
    refine ⟨g, rfl, hmore, fun info' hinfo last' hlast' => ?_⟩
    obtain rfl := Option.some.inj (hfind.symm.trans hinfo)
    obtain rfl := Option.some.inj ((lastOrder_eq_ok hlast).symm.trans hlast')
    rw [← neg_zero]
    exact hbound

theorem precedences_run (hsigned : Signed .origin s.network) {first : TaskOrder} {names : List ℕ}
    (h : (forEach names fun name => do
      let startVertex ← getVertexOfOrder first true
      addPrecedenceConstraintBetweenTask startVertex name) s = (s', .ok ())) :
    ∃ g, s' = { s with network := g } ∧ MoreLower .origin s.network g ∧
      ∀ name ∈ names, Precedes s g first name := by
  induction names generalizing s with
  | nil =>
    obtain ⟨rfl, -⟩ := pure_run_eq_ok.mp h
    exact ⟨s.network, rfl, .refl hsigned, by simp⟩
  | cons name names ih =>
    rw [forEach_cons] at h
    obtain ⟨s₁, _, hname, h⟩ := bind_run_eq_ok.mp h
    obtain ⟨s₂, v, hv, hname⟩ := bind_run_eq_ok.mp hname
    obtain ⟨rfl, rfl, -⟩ := getVertexOfOrder_run hv
    obtain ⟨g, rfl, hmore, hprecedes⟩ := addPrecedenceConstraintBetweenTask_run hsigned hname
    obtain ⟨g', rfl, hmore', hall⟩ := ih hmore.signed h
    refine ⟨g', rfl, hmore.trans hmore', forall_mem_cons.mpr ⟨?_, hall⟩⟩
    intro info hinfo last hlast
    exact hmore'.kept.bounded _ _ _ (hprecedes info hinfo last hlast)

theorem Consistent.setLatest (hs : Consistent amr s)
    (latest : Option (MetricsComposition × StnInsertionPoint)) :
    Consistent amr { s with latestCalculatedInsertionInfo := latest } :=
  hs.of_plans rfl rfl rfl rfl rfl

theorem Fresh.setLatest (h : Fresh s)
    (latest : Option (MetricsComposition × StnInsertionPoint)) :
    Fresh { s with latestCalculatedInsertionInfo := latest } :=
  ⟨h.1, fun info hinfo => ⟨rfl, (h.2 info hinfo).start⟩⟩

/-- The preparation makes a plan for the task. -/
theorem prepareTask_run (hs : Consistent amr s) {task : Task} (hnew : NewTask s task)
    {result : Option TaskInsertInfo} (h : prepareTask amr task s = (s', .ok result)) :
    Consistent amr s' ∧ s'.currentOrdering = s.currentOrdering ∧
      ∀ info, result = some info → info.task = task ∧
        Planned amr s'.network s'.timeNow info.task ∧
        ∀ first, task.orders.head? = some first →
          ∀ name ∈ task.precedingTasks, Precedes s s'.network first name := by
  unfold prepareTask at h
  rw [StnTaskManagement.setLatest, modify_bind_run] at h
  split_ifs at h with hempty
  · cases h
  obtain ⟨s₁, result', horders, h⟩ := bind_run_eq_ok.mp h
  obtain ⟨g, rfl, hsigned, hkept, hplanned⟩ :=
    addOrders_run (s := { s with latestCalculatedInsertionInfo := none }) hs.signed hnew.distinct
      hnew.finish horders
  have hs₁ := (hs.setLatest none).of_extends hsigned hkept
  cases result' with
  | none =>
    obtain ⟨rfl, rfl⟩ := pure_run_eq_ok.mp h
    exact ⟨hs₁, rfl, by simp⟩
  | some info =>
    obtain ⟨htask, hordersPlanned⟩ := hplanned info rfl
    obtain ⟨first, hfirst, h⟩ := lift_bind_run_eq_ok.mp h
    obtain ⟨s₂, _, hprecedences, h⟩ := bind_run_eq_ok.mp h
    obtain ⟨g₂, rfl, hmore, hprecedes⟩ := precedences_run hsigned hprecedences
    obtain ⟨rfl, rfl⟩ := pure_run_eq_ok.mp h
    refine ⟨hs₁.of_extends hmore.signed hmore.kept, rfl, fun info' hinfo => ?_⟩
    obtain rfl := Option.some.inj hinfo
    rw [htask]
    refine ⟨rfl, ⟨by simpa using hempty, hordersPlanned.mono hmore.kept⟩, fun first' h' => ?_⟩
    obtain rfl := Option.some.inj ((firstOrder_eq_ok hfirst).symm.trans h')
    exact hprecedes

theorem insertTask_run (hs : Consistent amr s) {point : Option StnInsertionPoint}
    (hpoint : ∀ p, point = some p → IsPoint s.currentOrdering p)
    (hinfo : Planned amr s.network s.timeNow info.task)
    (huuid : ∀ i ∈ s.currentOrdering, i.task.uuid ≠ info.task.uuid)
    {result : Option (MetricsComposition × StnInsertionPoint)}
    (h : insertTask amr info point s = (s', .ok result)) :
    Consistent amr s' ∧ (result.isSome = true → Fresh s' ∧ Inserted info s s') := by
  cases point with
  | none => exact addBestOrdering_run hs hinfo huuid h
  | some p =>
    obtain ⟨s₁, metrics, hinsert, h⟩ := bind_run_eq_ok.mp h
    obtain ⟨rfl, rfl⟩ := pure_run_eq_ok.mp h
    rw [Option.isSome_map]
    exact insertAt_run hs (hpoint p rfl) hinfo huuid hinsert

/-- What `addTask` keeps, and what it achieves if it returns true. -/
theorem addTask_run (hs : Consistent amr s) {task : Task} {point : Option StnInsertionPoint}
    (hallowed : Allowed s (.addTask task point)) {added : Bool}
    (h : addTask amr task point s = (s', .ok added)) :
    Consistent amr s' ∧ (added = true → Fresh s' ∧ ∃ s₁ info,
      prepareTask amr task s = (s₁, .ok (some info)) ∧ Inserted info s₁ s') := by
  obtain ⟨hnew, hpoint⟩ := hallowed
  -- what the insertion needs
  have hrest : ∀ s₁ info s₂ result, prepareTask amr task s = (s₁, .ok (some info)) →
      insertTask amr info point s₁ = (s₂, .ok result) →
      Consistent amr s₂ ∧ (result.isSome = true → Fresh s₂ ∧ Inserted info s₁ s₂) := by
    intro s₁ info s₂ result hprepare hinsert
    obtain ⟨hs₁, hordering, hinfo⟩ := prepareTask_run hs hnew hprepare
    obtain ⟨htask, hplanned, -⟩ := hinfo info rfl
    refine insertTask_run hs₁ (fun p hp => ?_) hplanned ?_ hinsert
    · obtain ⟨points, hpoints, hmem⟩ := hpoint p hp
      rw [hordering]
      exact isPoint_of_mem hpoints hmem
    · rw [hordering, htask]
      exact hnew.uuid
  cases added with
  | false =>
    rcases addTask_eq_false.mp h with hprepare | ⟨s₁, info, hprepare, hinsert⟩
    · exact ⟨(prepareTask_run hs hnew hprepare).1, by simp⟩
    · exact ⟨(hrest s₁ info s' none hprepare hinsert).1, by simp⟩
  | true =>
    obtain ⟨s₁, info, s₂, latest, hprepare, hinsert, rfl⟩ := addTask_eq_true.mp h
    obtain ⟨hs₂, hrun⟩ := hrest s₁ info s₂ _ hprepare hinsert
    obtain ⟨hfresh, hinserted⟩ := hrun rfl
    exact ⟨hs₂.setLatest _, fun _ => ⟨hfresh.setLatest _, s₁, info, hprepare, hinserted⟩⟩

end AddTask

/-! ### Sequences of calls -/

section Calls

variable {amr : AmrMobility} {s s' : StnTaskManagement}

theorem returned_eq_some {α : Type} {r : StnTaskManagement × Except String α}
    (h : returned r = some s') : ∃ x, r = (s', .ok x) := by
  obtain ⟨s₁, x | x⟩ := r
  · cases h
  · obtain rfl := Option.some.inj h
    exact ⟨x, rfl⟩

/-- The copy is thrown away, only the latest insertion info is kept. -/
theorem canAddTask_run {task : Task} {point : Option StnInsertionPoint} {can : Bool}
    (h : canAddTask amr task point s = (s', .ok can)) :
    ∃ latest, s' = { s with latestCalculatedInsertionInfo := latest } := by
  unfold canAddTask at h
  simp only [StnTaskManagement.setLatest, modify_bind_run, get_bind_run] at h
  obtain ⟨added, -, h⟩ := lift_bind_run_eq_ok.mp h
  cases added with
  | true => exact ⟨_, (congrArg Prod.fst h).symm⟩
  | false => exact ⟨none, (congrArg Prod.fst h).symm⟩

/-- Without tasks there is nothing to move. -/
theorem updateOriginConstraints_ofOrigin (timeDifference : ℚ) :
    updateOriginConstraints timeDifference (.ofOrigin .origin) = (.ofOrigin .origin, .ok ()) := by
  unfold updateOriginConstraints
  rw [get_bind_run]
  split_ifs
  · rfl
  · rfl

theorem setCurrentTime_run (hnetwork : s.network = .ofOrigin .origin) {now : ℚ}
    (h : setCurrentTime now s = (s', .ok ())) : s' = { s with timeNow := now } := by
  unfold setCurrentTime at h
  rw [get_bind_run] at h
  split_ifs at h
  · cases h
  · obtain ⟨s₁, _, hupdate, h⟩ := bind_run_eq_ok.mp h
    obtain ⟨g, hg, rfl⟩ := onNetwork_run hupdate
    rw [hnetwork, updateOriginConstraints_ofOrigin] at hg
    obtain rfl : .ofOrigin .origin = g := congrArg Prod.fst hg
    rw [← hnetwork] at h
    exact (congrArg Prod.fst h).symm

theorem setNextTask_run (hempty : s.currentOrdering = []) {started : Bool}
    (h : setNextTask s = (s', .ok started)) : s' = { s with currentTask := none } := by
  unfold setNextTask at h
  rw [get_bind_run, hempty] at h
  exact (congrArg Prod.fst h).symm

theorem Consistent.of_nil (hsigned : Signed .origin s.network) (hempty : s.currentOrdering = []) :
    Consistent amr s where
  signed := hsigned
  planned := by simp [hempty]
  connected := by simp [hempty]
  distinct := by simp [hempty]

theorem consistent_init : Consistent amr init :=
  .of_nil ⟨rfl, fun u v e he => by simp [init, edge, ofOrigin] at he⟩ rfl

/-- In a network without tasks there are no tasks in the ordering. -/
theorem Consistent.currentOrdering_eq_nil (hs : Consistent amr s)
    (hnetwork : s.network = .ofOrigin .origin) : s.currentOrdering = [] := by
  cases hordering : s.currentOrdering with
  | nil => rfl
  | cons info infos =>
    obtain ⟨d, first, previous, -, -, -, -, hbounded⟩ := hs.connected 0 info (by simp [hordering])
    obtain ⟨e, he, -⟩ := hbounded
    have hmem := (mem_of_edge he).1
    rw [hnetwork] at hmem
    cases mem_singleton.mp hmem

theorem Consistent.step (hs : Consistent amr s) {e : Event} (hallowed : Allowed s e)
    (h : step amr s e = some s') : Consistent amr s' := by
  cases e with
  | addTask task point =>
    obtain ⟨added, h⟩ := returned_eq_some h
    exact (addTask_run hs hallowed h).1
  | canAddTask task point =>
    obtain ⟨can, h⟩ := returned_eq_some h
    obtain ⟨latest, rfl⟩ := canAddTask_run h
    exact hs.setLatest latest
  | setCurrentTime now =>
    obtain ⟨_, h⟩ := returned_eq_some h
    obtain rfl := setCurrentTime_run hallowed h
    exact .of_nil hs.signed (hs.currentOrdering_eq_nil hallowed)
  | setNextTask =>
    obtain ⟨started, h⟩ := returned_eq_some h
    obtain rfl := setNextTask_run hallowed h
    exact .of_nil hs.signed hallowed

theorem returned_fst {α : Type} {r : StnTaskManagement × Except String α} {x : α}
    (h : r.2 = .ok x) : returned r = some r.1 := by
  obtain ⟨s₁, x' | x'⟩ := r
  · cases h
  · rfl

/-- A task that ends after its time window. -/
def EndsLate (amr : AmrMobility) (info : TaskInsertInfo) (start duration latest : ℚ) : Prop :=
  startTime info = (start : ℚ) ∧ taskDuration amr info.task = .ok duration ∧
    info.task.timeWindow.map TimeWindow.getAbsoluteLatestFinish = some (.ok latest) ∧
    latest < start + duration

instance (amr : AmrMobility) (info : TaskInsertInfo) (start duration latest : ℚ) :
    Decidable (EndsLate amr info start duration latest) :=
  inferInstanceAs (Decidable (_ ∧ _ ∧ _ ∧ _))

theorem EndsLate.not_isExecutable {k : ℕ} {start duration latest : ℚ}
    (h : (s.currentOrdering[k]?.any fun info => EndsLate amr info start duration latest) = true) :
    ¬ IsExecutable amr s := by
  rintro ⟨starts, ends, hexecutable⟩
  obtain ⟨info, hinfo, hlate⟩ := (Option.any_eq_true _ _).mp h
  obtain ⟨hstart, hduration, hwindow, hlate⟩ := of_decide_eq_true hlate
  have hk := hexecutable k info hinfo
  obtain ⟨window, hwindow, hlatest⟩ := Option.map_eq_some_iff.mp hwindow
  obtain ⟨d, hd, hends⟩ := hk.duration
  obtain ⟨earliest, latest', -, hlatest', -, hle⟩ := hk.window window hwindow
  obtain rfl : start = starts k := WithBot.coe_injective (hstart.symm.trans hk.start)
  obtain rfl : duration = d := ok.inj (hduration.symm.trans hd)
  obtain rfl : latest = latest' := ok.inj (hlatest.symm.trans hlatest')
  linarith

/-- The box is added, and then thirty seconds pass. -/
def boxWaiting : StnTaskManagement := (setCurrentTime 30 boxAdded).1

end Calls

end StnTaskManagement

end Sola.Daisi
