import Mathlib.Data.Rat.Floor
import Sola.Lib.SortedMap

/-!
Start times of routes
(`daisi/src/path_planning/consensus/route_calculation_helper.cpp`).

A route passes intersections at times relative to its start.  The earliest
start time is looked for in steps of a millisecond.  Times are exact rationals,
and a start time that is not a number is `none`.
-/

namespace Sola.Daisi

open Sola.Lib List

/-- The coordinates of an intersection. -/
abbrev Intersection := ℚ × ℚ

/-- A list of points with the time in seconds when they are reached. -/
abbrev PointTimePairs := List (Intersection × ℚ)

/-- The timestamps at which an intersection is occupied, with the id of the
occupant, for the intersections that are known. -/
abbrev IntersectionOccupancy := Intersection → Option (SortedMap ℚ ℕ)

namespace RouteCalculationHelper

/-- The test of `possibleRoute` for one point: `entry` has no time directly
at, shortly after or shortly before the wanted one. -/
def possibleAt (entry : SortedMap ℚ ℕ) (timeAtPoint timeBetweenIntersections : ℚ) : Bool :=
  if entry.contains timeAtPoint then false
  else
    let bound := entry.upperBound timeAtPoint
    if bound.2.head?.any fun next => next.1 ≤ timeAtPoint + timeBetweenIntersections then false
    else !bound.1.getLast?.any fun last => timeAtPoint - timeBetweenIntersections ≤ last.1

def possibleRoute (points : PointTimePairs) (startTime timeBetweenIntersections : ℚ)
    (occupancy : IntersectionOccupancy) : Bool :=
  points.all fun point =>
    match occupancy point.1 with
    | none => true
    | some entry =>
      if entry.isEmpty then true
      else possibleAt entry (point.2 + startTime) timeBetweenIntersections

/-- The step between two start times that are tried, in seconds. -/
def deltaS : ℚ := 1 / 1000

/-- `static_cast<int>`: round towards zero. -/
def toInt (q : ℚ) : ℤ := if 0 ≤ q then ⌊q⌋ else ⌈q⌉

/-- The number of start times that are tried. -/
def retries (maxPreplanningTime : ℚ) : ℕ :=
  (toInt ((toInt maxPreplanningTime : ℚ) / deltaS)).toNat

/-- The start time of the try `i`. -/
def startTime (initialStartTime : ℚ) (i : ℕ) : ℚ := initialStartTime + deltaS * i

def calculatePossibleStartTime (points : PointTimePairs)
    (initialStartTime maxPreplanningTime timeBetweenIntersections : ℚ)
    (occupancy : IntersectionOccupancy) : Except String (Option ℚ) :=
  let found := (List.range (retries maxPreplanningTime)).find? fun i =>
    possibleRoute points (startTime initialStartTime i) timeBetweenIntersections occupancy
  match found with
  | none => .ok none
  | some i =>
    if initialStartTime ≤ startTime initialStartTime i then
      .ok (some (startTime initialStartTime i))
    else .error "Cannot start before initial start time"

end RouteCalculationHelper

/-! ### Reservations that keep their distance -/

/-- Two different times more than `delta` apart. -/
def Apart (delta t u : ℚ) : Prop := t ≠ u ∧ delta < |t - u|

instance (delta t u : ℚ) : Decidable (Apart delta t u) := inferInstanceAs (Decidable (_ ∧ _))

variable {t : ℚ} {occupancy : IntersectionOccupancy} {x y : Intersection} {id : ℕ}
  {points : PointTimePairs}

theorem Apart.symm {delta u : ℚ} (h : Apart delta t u) : Apart delta u t :=
  ⟨h.1.symm, by rw [abs_sub_comm]; exact h.2⟩

/-- The times at which an intersection is occupied. -/
def IntersectionOccupancy.times (occupancy : IntersectionOccupancy) (x : Intersection) :
    List ℚ :=
  match occupancy x with
  | none => []
  | some entry => entry.keys

/-- `occupancy[x][t] = id`. -/
def IntersectionOccupancy.set (occupancy : IntersectionOccupancy) (x : Intersection) (t : ℚ)
    (id : ℕ) : IntersectionOccupancy :=
  Function.update occupancy x (some (((occupancy x).getD .empty).insert t id))

theorem IntersectionOccupancy.mem_times_set {u : ℚ} :
    u ∈ (occupancy.set x t id).times y ↔ (y = x ∧ u = t) ∨ u ∈ occupancy.times y := by
  unfold IntersectionOccupancy.times IntersectionOccupancy.set
  by_cases hy : y = x
  · subst hy
    cases occupancy y <;> simp
  · simp [hy]

/-- The times at an intersection with the stations that have them. -/
def IntersectionOccupancy.reservations (occupancy : IntersectionOccupancy) (x : Intersection) :
    List (ℚ × ℕ) :=
  match occupancy x with
  | none => []
  | some entry => entry.entries

theorem IntersectionOccupancy.mem_of_mem_reservations_set {e : ℚ × ℕ}
    (h : e ∈ (occupancy.set x t id).reservations y) :
    e = (t, id) ∨ e ∈ occupancy.reservations y := by
  unfold IntersectionOccupancy.reservations IntersectionOccupancy.set at h
  unfold IntersectionOccupancy.reservations
  by_cases hy : y = x
  · subst hy
    rw [Function.update_self] at h
    cases hx : occupancy y with
    | none =>
      rw [hx] at h
      exact .inl (mem_singleton.mp h)
    | some entry =>
      rw [hx] at h
      exact SortedMap.mem_of_mem_insertEntry h
  · rw [Function.update_of_ne hy] at h
    exact .inr h

theorem IntersectionOccupancy.isSome_set (h : (occupancy y).isSome = true) :
    ((occupancy.set x t id) y).isSome = true := by
  unfold IntersectionOccupancy.set
  by_cases hy : y = x
  · subst hy
    simp
  · rwa [Function.update_of_ne hy]

/-- Occupy all points of a route that starts at `start`. -/
def IntersectionOccupancy.occupyAll (occupancy : IntersectionOccupancy)
    (points : PointTimePairs) (start : ℚ) (id : ℕ) : IntersectionOccupancy :=
  points.foldl (fun occupancy point => occupancy.set point.1 (start + point.2) id) occupancy

theorem IntersectionOccupancy.set_of_ne (h : y ≠ x) :
    (occupancy.set x t id) y = occupancy y := Function.update_of_ne h _ _

theorem IntersectionOccupancy.times_set_of_ne (h : y ≠ x) :
    (occupancy.set x t id).times y = occupancy.times y := by
  unfold IntersectionOccupancy.times
  rw [set_of_ne h]

theorem IntersectionOccupancy.times_set_perm (h : t ∉ occupancy.times x) :
    ((occupancy.set x t id).times x).Perm (t :: occupancy.times x) := by
  unfold IntersectionOccupancy.times IntersectionOccupancy.set at *
  rw [Function.update_self]
  cases hx : occupancy x with
  | none => exact SortedMap.keys_insert_perm (by simp)
  | some entry =>
    rw [hx] at h
    exact SortedMap.keys_insert_perm h

theorem IntersectionOccupancy.occupyAll_of_ne {start : ℚ} (h : ∀ point ∈ points, point.1 ≠ x) :
    (occupancy.occupyAll points start id) x = occupancy x := by
  unfold IntersectionOccupancy.occupyAll
  induction points generalizing occupancy with
  | nil => rfl
  | cons point points ih =>
    rw [foldl_cons, ih fun q hq => h q (by simp [hq])]
    exact set_of_ne (h point (by simp)).symm

/-- A route whose points are at different intersections adds one time at each
of them. -/
theorem IntersectionOccupancy.times_occupyAll_perm {start : ℚ} (hnodup : (points.map (·.1)).Nodup)
    (hfree : ∀ point ∈ points, start + point.2 ∉ occupancy.times point.1) :
    ∀ point ∈ points, ((occupancy.occupyAll points start id).times point.1).Perm
      ((start + point.2) :: occupancy.times point.1) := by
  induction points generalizing occupancy with
  | nil => simp
  | cons point points ih =>
    obtain ⟨hnot, hnodup'⟩ := nodup_cons.mp hnodup
    have hne : ∀ q ∈ points, q.1 ≠ point.1 := fun q hq heq =>
      hnot (mem_map.mpr ⟨q, hq, heq⟩)
    intro q hq
    rcases mem_cons.mp hq with rfl | hq
    · -- the rest of the route does not come here again
      have hrest : ((occupancy.set q.1 (start + q.2) id).occupyAll points start id) q.1 =
          (occupancy.set q.1 (start + q.2) id) q.1 := occupyAll_of_ne hne
      have htimes : (occupancy.occupyAll (q :: points) start id).times q.1 =
          (occupancy.set q.1 (start + q.2) id).times q.1 := by
        unfold IntersectionOccupancy.times
        rw [← hrest]
        rfl
      rw [htimes]
      exact times_set_perm (hfree q (by simp))
    · have hfree' : ∀ r ∈ points,
          start + r.2 ∉ (occupancy.set point.1 (start + point.2) id).times r.1 := by
        intro r hr
        rw [times_set_of_ne (hne r hr)]
        exact hfree r (by simp [hr])
      have hperm := ih hnodup' hfree' q hq
      rwa [times_set_of_ne (hne q hq)] at hperm

/-- The route started at `start` keeps the distance `delta` to all
reservations. -/
def KeepsDistance (points : PointTimePairs) (start delta : ℚ)
    (occupancy : IntersectionOccupancy) : Prop :=
  ∀ point ∈ points, ∀ u ∈ occupancy.times point.1, Apart delta (point.2 + start) u

namespace RouteCalculationHelper

/-- It is enough to look at the nearest reservation on each side. -/
theorem possibleAt_iff {entry : SortedMap ℚ ℕ} {t delta : ℚ} :
    possibleAt entry t delta = true ↔ ∀ u ∈ entry.keys, Apart delta t u := by
  have hsplit : (∀ u ∈ entry.keys, Apart delta t u) ↔ t ∉ entry.keys ∧
      (∀ e ∈ (entry.upperBound t).2, t + delta < e.1) ∧
      ∀ e ∈ (entry.upperBound t).1, e.1 < t - delta := by
    constructor
    · intro h
      refine ⟨fun ht => (h t ht).1 rfl, fun e he => ?_, fun e he => ?_⟩
      · have hkey := SortedMap.mem_keys_iff_upperBound (k := t).mpr (.inr ⟨e, he, rfl⟩)
        have hlt := SortedMap.lt_of_mem_upper he
        have hapart := (h _ hkey).2
        rw [abs_of_neg (by linarith)] at hapart
        linarith
      · have hkey := SortedMap.mem_keys_iff_upperBound (k := t).mpr (.inl ⟨e, he, rfl⟩)
        have hle := SortedMap.le_of_mem_lower he
        have hapart := (h _ hkey).2
        rw [abs_of_nonneg (by linarith)] at hapart
        linarith
    · rintro ⟨hnot, hupper, hlower⟩ u hu
      refine ⟨fun heq => hnot (heq ▸ hu), ?_⟩
      rcases SortedMap.mem_keys_iff_upperBound (k := t).mp hu with ⟨e, he, rfl⟩ | ⟨e, he, rfl⟩
      · have := hlower e he
        exact lt_of_lt_of_le (by linarith) (le_abs_self _)
      · have := hupper e he
        exact lt_of_lt_of_le (by linarith) (neg_le_abs _)
  rw [hsplit, SortedMap.forall_upper_iff, SortedMap.forall_lower_iff]
  unfold possibleAt
  by_cases hc : t ∈ entry.keys
  · simp [hc]
  · cases hn : (entry.upperBound t).2.head? <;> cases hl : (entry.upperBound t).1.getLast? <;>
      simp [hc, hn, hl, lt_sub_iff_add_lt]

theorem possibleRoute_iff {points : PointTimePairs} {start delta : ℚ}
    {occupancy : IntersectionOccupancy} :
    possibleRoute points start delta occupancy = true ↔
      KeepsDistance points start delta occupancy := by
  unfold possibleRoute KeepsDistance
  rw [all_eq_true]
  refine forall₂_congr fun point _ => ?_
  unfold IntersectionOccupancy.times
  cases occupancy point.1 with
  | none => simp
  | some entry =>
    simp only
    split_ifs with hempty
    · simp [SortedMap.keys_eq_nil_of_isEmpty hempty]
    · exact possibleAt_iff

theorem le_startTime (initial : ℚ) (i : ℕ) : initial ≤ startTime initial i := by
  have : (0 : ℚ) ≤ deltaS * i := by unfold deltaS; positivity
  unfold startTime
  linarith

/-- The start time is the first of the tried ones that keeps the distance,
and it is missing if there is none. -/
inductive PlannedStart (points : PointTimePairs) (initial maxPreplanning delta : ℚ)
    (occupancy : IntersectionOccupancy) : Option ℚ → Prop
  | found (i : ℕ) : i < retries maxPreplanning →
      KeepsDistance points (startTime initial i) delta occupancy →
      (∀ j < i, ¬ KeepsDistance points (startTime initial j) delta occupancy) →
      PlannedStart points initial maxPreplanning delta occupancy (some (startTime initial i))
  | missing : (∀ i < retries maxPreplanning,
        ¬ KeepsDistance points (startTime initial i) delta occupancy) →
      PlannedStart points initial maxPreplanning delta occupancy none

theorem calculatePossibleStartTime_spec (points : PointTimePairs)
    (initial maxPreplanning delta : ℚ) (occupancy : IntersectionOccupancy) :
    ∃ start, calculatePossibleStartTime points initial maxPreplanning delta occupancy =
        .ok start ∧
      PlannedStart points initial maxPreplanning delta occupancy start := by
  unfold calculatePossibleStartTime
  simp only
  cases hfound : (range (retries maxPreplanning)).find? fun i =>
      possibleRoute points (startTime initial i) delta occupancy with
  | none =>
    refine ⟨none, rfl, .missing fun i hi hkeeps => ?_⟩
    have hnot := find?_eq_none.mp hfound i (mem_range.mpr hi)
    exact hnot (possibleRoute_iff.mpr hkeeps)
  | some i =>
    simp only [if_pos (le_startTime initial i)]
    obtain ⟨hpossible, hi, hbefore⟩ := find?_range_eq_some.mp hfound
    refine ⟨_, rfl, .found i (mem_range.mp hi) (possibleRoute_iff.mp hpossible) ?_⟩
    intro j hj hkeeps
    have hnot := hbefore j hj
    rw [possibleRoute_iff.mpr hkeeps] at hnot
    cases hnot

end RouteCalculationHelper

end Sola.Daisi
