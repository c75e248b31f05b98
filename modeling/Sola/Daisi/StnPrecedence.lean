import Sola.Daisi.StnSchedules

/-!
Precedences between the tasks of one vehicle
(`addPrecedenceConstraintBetweenTask` of `stn_task_management.cpp`).

A task knows the uuids of the tasks that have to be finished before it starts.
The ordering is searched for a task whose name is that uuid, so the constraint
is there only for tasks that are named like their uuids.
-/

namespace Sola.Daisi

open Sola.Lib Action SimpleTemporalNetwork List

namespace StnTaskManagement

/-- One task stands before another one in the ordering and is finished when the other one
starts. -/
def IsBefore (s : StnTaskManagement) (u t : Task) : Prop :=
  ∃ (i j : ℕ) (infoU infoT : TaskInsertInfo), i < j ∧ s.currentOrdering[i]? = some infoU ∧
    s.currentOrdering[j]? = some infoT ∧ infoU.task = u ∧ infoT.task = t ∧
    s.finishTime infoU ≤ startTime infoT

variable {amr : AmrMobility} {s s' : StnTaskManagement} {task : Task} {info u : TaskInsertInfo}

theorem exists_getElem?_of_mem_plans {infos : List TaskInsertInfo}
    (h : planOf info ∈ infos.map planOf) :
    ∃ (i : ℕ) (info' : TaskInsertInfo), infos[i]? = some info' ∧ info'.task = info.task := by
  obtain ⟨info', hmem, hplan⟩ := mem_map.mp h
  obtain ⟨i, hi⟩ := mem_iff_getElem?.mp hmem
  exact ⟨i, info', hi, congrArg Prod.fst hplan⟩

/-- The constraint orders the two tasks. -/
theorem Consistent.isBefore (hs : Consistent amr s) (hfresh : Fresh s) {i j : ℕ}
    {infoU infoT : TaskInsertInfo} (hi : s.currentOrdering[i]? = some infoU)
    (hj : s.currentOrdering[j]? = some infoT)
    {first last : TaskOrder} (hfirst : infoT.task.orders.head? = some first)
    (hlast : infoU.task.orders.getLast? = some last)
    (hbound : s.network.Bounded (.start first.uuid) (.finish last.uuid) 0) {d : ℚ}
    (hd : taskDuration amr infoU.task = .ok d) (hpos : 0 < d) :
    s.IsBefore infoU.task infoT.task := by
  obtain ⟨starts, ends, hschedule⟩ := hs.exists_schedule hfresh.1
  have hu := hschedule i infoU hi
  have ht := hschedule j infoT hj
  have hle : ends i ≤ starts j := by
    obtain ⟨q, hq, hle⟩ := exists_distance_of_path hfresh.1 hs.signed (.edge hbound)
      (hu.timed.finish last hlast)
    have heq : s.timeNow - starts j = q :=
      WithTop.coe_injective ((ht.timed.start first hfirst).symm.trans hq)
    linarith
  have hij : i < j := by
    by_contra hnot
    have hlength := (List.getElem?_eq_some_iff.mp hi).1
    obtain ⟨d', hd', -, hduration⟩ := hu.duration
    have heq : d = d' := Except.ok.inj (hd.symm.trans hd')
    have hstarts := starts_le_starts hschedule (not_lt.mp hnot) hlength
    linarith
  have hmemU := mem_of_getElem? hi
  have hmemT := mem_of_getElem? hj
  refine ⟨i, j, infoU, infoT, hij, hi, hj, rfl, rfl, ?_⟩
  rw [(hfresh.times_eq hmemU (hs.planned _ hmemU).nonempty hu.timed).2,
    (hfresh.times_eq hmemT (hs.planned _ hmemT).nonempty ht.timed).1]
  exact WithBot.coe_le_coe.mpr hle

/-- A task that has to be done after the one with uuid 0. -/
def followTask : Task := ⟨1, 1, [⟨1, .transport [(3, 0)] (4, 0)⟩], none, [0]⟩

/-- The box with a name of its own. -/
def namedBoxTask : Task := ⟨0, 7, boxTask.orders, boxTask.timeWindow, []⟩

end StnTaskManagement

end Sola.Daisi
