import Sola.Daisi.StnTaskManagement

/-!
Bids that are calculated and then redeemed.

`canAddTask` tries the insertion points on copies of copies and remembers the
best one together with its metrics.  With that point `addTask` repeats the last
one of these runs on the task management itself.
-/

namespace Sola.Daisi

open Sola.Lib Action

namespace SimpleTemporalNetwork

variable {V : Type}

/-- The copy constructor of the graph. -/
def copy (other : SimpleTemporalNetwork V) : SimpleTemporalNetwork V where
  vertices := other.vertices.foldl (fun vertices vertex => vertices ++ [vertex]) []
  adjacencyMatrix i j :=
    match other.adjacencyMatrix i j with
    | some e => some ⟨e.allPositive, e.weights⟩
    | none => none

theorem copy_eq (g : SimpleTemporalNetwork V) : g.copy = g := by
  have hvertices : ∀ vs vs' : List V, vs.foldl (fun vs v => vs ++ [v]) vs' = vs' ++ vs := by
    intro vs
    induction vs with
    | nil => exact fun vs' => (List.append_nil vs').symm
    | cons v vs ih => exact fun vs' => by rw [List.foldl_cons, ih, List.append_assoc]; rfl
  have hmatrix : g.copy.adjacencyMatrix = g.adjacencyMatrix := by
    funext i j
    cases h : g.adjacencyMatrix i j <;> simp only [copy, h]
  exact congrArg₂ SimpleTemporalNetwork.mk (hvertices g.vertices []) hmatrix

end SimpleTemporalNetwork

namespace StnTaskManagement

variable {amr : AmrMobility} {task : Task} {s s' : StnTaskManagement} {info : TaskInsertInfo}
  {metrics : MetricsComposition} {point : StnInsertionPoint}

def copy (s : StnTaskManagement) : StnTaskManagement := { s with network := s.network.copy }

/-- The check changes nothing but the insertion information, and the point it finds can be
used with the same metrics.  The copy that it works on is the same as the original. -/
def Redeemable (amr : AmrMobility) (task : Task) (s : StnTaskManagement) : Prop :=
  s.copy = s ∧
  (∃ latest, (canAddTask amr task none s).1 = { s with latestCalculatedInsertionInfo := latest }) ∧
  ((canAddTask amr task none s).2 = .ok true → ∃ metrics point,
    (canAddTask amr task none s).1.latestCalculatedInsertionInfo = some (metrics, point) ∧
    ∀ s', s' = s ∨ s' = (canAddTask amr task none s).1 →
      (addTask amr task (some point) s').2 = .ok true ∧
      (addTask amr task (some point) s').1.latestCalculatedInsertionInfo = some (metrics, point))

/-- The last run of the search is the one that `addTask` repeats. -/
theorem insertAt_of_addBestOrdering
    (h : addBestOrdering amr info s = (s', .ok (some (metrics, point)))) :
    insertAt amr point info s = (s', .ok (some metrics)) := by
  simp only [addBestOrdering, get_bind_run, lift_bind_run_eq_ok] at h
  obtain ⟨points, -, best, -, h⟩ := h
  cases best with
  | none => cases h
  | some best =>
    obtain ⟨s₁, found, hinsert, h⟩ := bind_run_eq_ok.mp h
    cases found with
    | none => cases h
    | some found =>
      cases h
      exact hinsert

theorem addTask_redeem (h : addTask amr task none s = (s', .ok true)) :
    ∃ metrics point, s'.latestCalculatedInsertionInfo = some (metrics, point) ∧
      addTask amr task (some point) s = (s', .ok true) := by
  simp only [addTask, setLatest, modify_bind_run] at h ⊢
  split_ifs at h ⊢ with hempty
  · cases h
  obtain ⟨s₁, info, horders, h⟩ := bind_run_eq_ok.mp h
  simp only [bind_run_ok horders]
  cases info with
  | none => cases h
  | some info =>
    obtain ⟨first, hfirst, h⟩ := lift_bind_run_eq_ok.mp h
    obtain ⟨s₂, _, hpreceding, h⟩ := bind_run_eq_ok.mp h
    obtain ⟨s₃, found, hbest, h⟩ := bind_run_eq_ok.mp h
    cases found with
    | none => cases h
    | some latest =>
      cases h
      refine ⟨latest.1, latest.2, rfl, ?_⟩
      simp only [hfirst, lift_ok_bind_run, bind_run_ok hpreceding,
        bind_run_ok (insertAt_of_addBestOrdering hbest)]
      rfl

/-- A calculated bid can be redeemed. -/
theorem redeemable (amr : AmrMobility) (task : Task) (s : StnTaskManagement) :
    Redeemable amr task s := by
  have hrun : canAddTask amr task none s =
      (lift (addTask amr task none { s with latestCalculatedInsertionInfo := none }).2 >>=
        fun added => if added then do
            setLatest (addTask amr task none
              { s with latestCalculatedInsertionInfo := none }).1.latestCalculatedInsertionInfo
            return true
          else return false)
        { s with latestCalculatedInsertionInfo := none } := rfl
  refine ⟨?_, ?_⟩
  · rw [copy, SimpleTemporalNetwork.copy_eq]
  rw [hrun]
  cases hadd : addTask amr task none { s with latestCalculatedInsertionInfo := none } with
  | mk s' result =>
    cases result with
    | error e => exact ⟨⟨none, rfl⟩, nofun⟩
    | ok added =>
      cases added with
      | false => exact ⟨⟨none, rfl⟩, nofun⟩
      | true =>
        obtain ⟨metrics, point, hlatest, hredeem⟩ := addTask_redeem hadd
        refine ⟨⟨s'.latestCalculatedInsertionInfo, rfl⟩, fun _ =>
          ⟨metrics, point, hlatest, fun s₁ hs₁ => ?_⟩⟩
        -- `addTask` forgets the insertion information first
        have hsame : addTask amr task (some point) s₁ = addTask amr task (some point)
            { s with latestCalculatedInsertionInfo := none } := by
          rcases hs₁ with rfl | rfl <;> rfl
        rw [hsame, hredeem]
        exact ⟨rfl, hlatest⟩

end StnTaskManagement

end Sola.Daisi
