import Mathlib.Data.List.Nodup
import Sola.Daisi.RouteCalculation
import Sola.Lib.Action

/-!
The central server for routes
(`daisi/src/path_planning/consensus/central/central_server.cpp`).

The server answers one request after the other.  The reservations at an
intersection always keep their distance, since every new one keeps it to the
nearest ones on both sides.
-/

namespace Sola.Daisi

open Sola.Lib Action RouteCalculationHelper IntersectionOccupancy

structure CentralSettings where
  timeBetweenIntersects : ℚ
  maxPreplanningTime : ℚ

structure Request where
  requestId : ℕ
  earliestPossibleStartMs : ℕ
  /-- Coordinates and a relative timestamp. -/
  intersectionTimes : List (ℚ × ℚ × ℚ)

structure Response where
  requestId : ℕ
  success : Bool
  startOffset : ℚ
deriving DecidableEq

structure CentralServer where
  settings : CentralSettings
  intersectionOccupancy : IntersectionOccupancy
  /-- The responses sent so far. -/
  sent : List Response

def Request.points (request : Request) : PointTimePairs :=
  request.intersectionTimes.map fun (x, y, time) => ((x, y), time)

def Request.earliestStart (request : Request) : ℚ := request.earliestPossibleStartMs / 1000

namespace CentralServer

def init (settings : CentralSettings) : CentralServer := ⟨settings, fun _ => none, []⟩

def setIntersections (server : CentralServer) (intersections : List Intersection) :
    CentralServer :=
  { server with
    intersectionOccupancy := intersections.foldl
      (fun occupancy x => Function.update occupancy x (some .empty))
      server.intersectionOccupancy }

/-- `intersection_occupancy_.at(x)[time] = 0`. -/
def occupy (x : Intersection) (time : ℚ) : Action CentralServer Unit := do
  let server ← Action.get
  match server.intersectionOccupancy x with
  | none => Action.throw "out_of_range"
  | some _ =>
    Action.modify fun server =>
      { server with intersectionOccupancy := server.intersectionOccupancy.set x time 0 }

def send (response : Response) : Action CentralServer Unit :=
  Action.modify fun server => { server with sent := server.sent ++ [response] }

def processMessage (request : Request) : Action CentralServer Unit := do
  let server ← Action.get
  let possibleStart ← Action.lift (calculatePossibleStartTime request.points
    request.earliestStart server.settings.maxPreplanningTime
    server.settings.timeBetweenIntersects server.intersectionOccupancy)
  match possibleStart with
  | none => send ⟨request.requestId, false, 0⟩
  | some start =>
    Action.forEach request.intersectionTimes fun (x, y, time) =>
      occupy (x, y) (start + time)
    send ⟨request.requestId, true, start⟩

/-- All requests in turn. -/
def processMessages (requests : List Request) : Action CentralServer Unit :=
  Action.forEach requests processMessage

end CentralServer

/-! ### One request -/

/-- The points of the request are at different intersections out of a list. -/
structure Request.WellFormed (request : Request) (intersections : List Intersection) :
    Prop where
  distinct : (request.points.map (·.1)).Nodup
  known : ∀ point ∈ request.points, point.1 ∈ intersections

namespace CentralServer

/-- Two reservations at the same intersection keep their distance. -/
def Separated (server : CentralServer) : Prop :=
  ∀ x, ∀ t ∈ server.intersectionOccupancy.times x,
    ∀ u ∈ server.intersectionOccupancy.times x, t ≠ u →
      server.settings.timeBetweenIntersects < |t - u|

/-- The server has entries for all the intersections. -/
def Knows (server : CentralServer) (intersections : List Intersection) : Prop :=
  ∀ x ∈ intersections, (server.intersectionOccupancy x).isSome = true

variable {server : CentralServer} {request : Request} {intersections : List Intersection}
  {x : Intersection} {start : Option ℚ} {server' : CentralServer} {settings : CentralSettings}

theorem occupy_run {time : ℚ} (h : (server.intersectionOccupancy x).isSome = true) :
    occupy x time server = ({ server with
      intersectionOccupancy := server.intersectionOccupancy.set x time 0 }, .ok ()) := by
  obtain ⟨entry, hentry⟩ := Option.isSome_iff_exists.mp h
  simp only [occupy, get_bind_run, hentry, modify_run]

/-- The server after one round of the loop over the points. -/
def occupied (start : ℚ) (server : CentralServer) (point : ℚ × ℚ × ℚ) : CentralServer :=
  { server with
    intersectionOccupancy := server.intersectionOccupancy.set (point.1, point.2.1)
      (start + point.2.2) 0 }

theorem foldl_occupied (start : ℚ) (times : List (ℚ × ℚ × ℚ)) (server : CentralServer) :
    times.foldl (occupied start) server =
      { server with
        intersectionOccupancy := server.intersectionOccupancy.occupyAll
          (times.map fun (x, y, time) => ((x, y), time)) start 0 } := by
  induction times generalizing server with
  | nil => rfl
  | cons point times ih =>
    rw [List.foldl_cons, ih]
    rfl

/-- The loop over the points of an accepted request. -/
theorem occupyAll_run {start : ℚ} (hknown : ∀ point ∈ request.points,
      (server.intersectionOccupancy point.1).isSome = true) :
    forEach request.intersectionTimes
        (fun (x, y, time) => occupy (x, y) (start + time)) server =
      ({ server with
        intersectionOccupancy :=
          server.intersectionOccupancy.occupyAll request.points start 0 }, .ok ()) := by
  have hrun : forEach request.intersectionTimes
      (fun (x, y, time) => occupy (x, y) (start + time)) server =
      (request.intersectionTimes.foldl (occupied start) server, .ok ()) := by
    refine forEach_run (I := fun s => ∀ point ∈ request.points,
      (s.intersectionOccupancy point.1).isSome = true) hknown ?_
    rintro ⟨x, y, time⟩ hmem s hs
    refine ⟨occupy_run (hs ((x, y), time) (List.mem_map.mpr ⟨_, hmem, rfl⟩)), ?_⟩
    exact fun point hpoint => isSome_set (hs point hpoint)
  rw [hrun, foldl_occupied]
  rfl

/-- How a request is answered.  Its start time is planned against the
reservations so far.  If there is one, the request adds one reservation for
each of its points; if not, nothing changes. -/
structure Answered (server : CentralServer) (request : Request) (start : Option ℚ)
    (server' : CentralServer) : Prop where
  planned : PlannedStart request.points request.earliestStart
    server.settings.maxPreplanningTime server.settings.timeBetweenIntersects
    server.intersectionOccupancy start
  settings : server'.settings = server.settings
  response : server'.sent = server.sent ++ [⟨request.requestId, start.isSome, start.getD 0⟩]
  reserved : ∀ t ∈ start, ∀ point ∈ request.points,
    (server'.intersectionOccupancy.times point.1).Perm
      ((t + point.2) :: server.intersectionOccupancy.times point.1)
  others : ∀ x, start = none ∨ (∀ point ∈ request.points, point.1 ≠ x) →
    server'.intersectionOccupancy x = server.intersectionOccupancy x

theorem processMessage_answered (hrequest : request.WellFormed intersections)
    (hknows : server.Knows intersections) :
    ∃ server' start, processMessage request server = (server', .ok ()) ∧
      Answered server request start server' := by
  obtain ⟨start, hstart, hplanned⟩ := calculatePossibleStartTime_spec request.points
    request.earliestStart server.settings.maxPreplanningTime
    server.settings.timeBetweenIntersects server.intersectionOccupancy
  have hknown : ∀ point ∈ request.points,
      (server.intersectionOccupancy point.1).isSome = true :=
    fun point hpoint => hknows _ (hrequest.known point hpoint)
  simp only [processMessage, get_bind_run, hstart, lift_ok_bind_run]
  cases hplanned with
  | missing hnone => exact ⟨_, _, rfl, .missing hnone, rfl, rfl, by simp, fun _ _ => rfl⟩
  | found i hi hkeeps hmin =>
    refine ⟨_, some _, bind_run_ok (occupyAll_run hknown), .found i hi hkeeps hmin,
      rfl, rfl, ?_, ?_⟩
    · rintro t ⟨⟩
      refine times_occupyAll_perm hrequest.distinct fun point hp hmem => ?_
      exact (hkeeps point hp _ hmem).1 (add_comm _ _)
    · rintro x (⟨⟨⟩⟩ | hx)
      exact occupyAll_of_ne hx

section

variable (h : Answered server request start server')
include h

/-- The reservations after a request are the old ones and those of the
request. -/
theorem Answered.times_cases {t : ℚ} (ht : t ∈ server'.intersectionOccupancy.times x) :
    t ∈ server.intersectionOccupancy.times x ∨
      ∃ s ∈ start, ∃ point ∈ request.points, point.1 = x ∧ t = s + point.2 := by
  by_cases hx : start = none ∨ ∀ point ∈ request.points, point.1 ≠ x
  · rw [times, h.others x hx] at ht
    exact Or.inl ht
  · rw [not_or] at hx
    obtain ⟨s, hs⟩ := Option.ne_none_iff_exists'.mp hx.1
    obtain ⟨point, hpoint⟩ := not_forall.mp hx.2
    rw [Classical.not_imp, not_not] at hpoint
    obtain ⟨hmem, rfl⟩ := hpoint
    rcases List.mem_cons.mp ((h.reserved s hs point hmem).mem_iff.mp ht) with rfl | ht
    · exact Or.inr ⟨s, hs, point, hmem, rfl, rfl⟩
    · exact Or.inl ht

theorem Answered.separated (hrequest : request.WellFormed intersections) (hs : server.Separated) :
    server'.Separated := by
  -- a new reservation keeps its distance to the old ones
  have hnew : ∀ s ∈ start, ∀ point ∈ request.points,
      ∀ u ∈ server.intersectionOccupancy.times point.1,
        server.settings.timeBetweenIntersects < |s + point.2 - u| := by
    intro s hs point hpoint u hu
    cases h.planned with
    | missing => cases hs
    | found i _ hkeeps _ =>
      obtain rfl := Option.some.inj hs
      rw [add_comm]
      exact (hkeeps point hpoint u hu).2
  intro x t ht u hu hne
  rw [h.settings]
  rcases h.times_cases ht with ht | ⟨s, hs', point, hpoint, rfl, rfl⟩
  · rcases h.times_cases hu with hu | ⟨s, hs', point, hpoint, rfl, rfl⟩
    · exact hs x t ht u hu hne
    · rw [abs_sub_comm]
      exact hnew s hs' point hpoint t ht
  · rcases h.times_cases hu with hu | ⟨s', hs'', point', hpoint', hx, rfl⟩
    · exact hnew s hs' point hpoint u hu
    · -- the request has only one point at this intersection
      obtain rfl := Option.some.inj (hs'.symm.trans hs'')
      have heq := List.inj_on_of_nodup_map hrequest.distinct hpoint' hpoint hx
      exact absurd (by rw [heq]) hne

theorem Answered.knows (hk : server.Knows intersections) : server'.Knows intersections := by
  intro x hx
  by_cases hcase : start = none ∨ ∀ point ∈ request.points, point.1 ≠ x
  · rw [h.others x hcase]
    exact hk x hx
  · rw [not_or] at hcase
    obtain ⟨s, hs⟩ := Option.ne_none_iff_exists'.mp hcase.1
    obtain ⟨point, hpoint⟩ := not_forall.mp hcase.2
    rw [Classical.not_imp, not_not] at hpoint
    obtain ⟨hmem, rfl⟩ := hpoint
    have htime : s + point.2 ∈ server'.intersectionOccupancy.times point.1 :=
      (h.reserved s hs point hmem).mem_iff.mpr (by simp)
    unfold times at htime
    cases hocc : server'.intersectionOccupancy point.1 with
    | none => rw [hocc] at htime; cases htime
    | some entry => rfl

end

/-! ### All requests -/

theorem foldl_update_apply {xs : List Intersection} {occupancy : IntersectionOccupancy} :
    (xs.foldl (fun occupancy y => Function.update occupancy y (some .empty)) occupancy) x =
      if x ∈ xs then some .empty else occupancy x := by
  induction xs generalizing occupancy with
  | nil => rfl
  | cons y ys ih =>
    rw [List.foldl_cons, ih]
    by_cases hx : x ∈ ys
    · simp [hx]
    · by_cases hy : x = y
      · subst hy
        simp
      · simp [hx, hy]

section

variable (settings : CentralSettings) (intersections : List Intersection)

theorem setIntersections_apply (x : Intersection) :
    ((init settings).setIntersections intersections).intersectionOccupancy x =
      if x ∈ intersections then some .empty else none := foldl_update_apply

theorem knows_setIntersections :
    ((init settings).setIntersections intersections).Knows intersections := by
  intro x hx
  rw [setIntersections_apply, if_pos hx]
  rfl

theorem times_setIntersections (x : Intersection) :
    ((init settings).setIntersections intersections).intersectionOccupancy.times x = [] := by
  rw [times, setIntersections_apply]
  split_ifs <;> rfl

end

/-- What every run of the server keeps. -/
structure Inv (settings : CentralSettings) (intersections : List Intersection)
    (server : CentralServer) : Prop where
  settings : server.settings = settings
  knows : server.Knows intersections
  separated : server.Separated

theorem Inv.init (settings : CentralSettings) (intersections : List Intersection) :
    Inv settings intersections ((init settings).setIntersections intersections) where
  settings := rfl
  knows := knows_setIntersections settings intersections
  separated x t ht := by
    rw [times_setIntersections] at ht
    cases ht

theorem Inv.answered (hinv : Inv settings intersections server)
    (hrequest : request.WellFormed intersections) (h : Answered server request start server') :
    Inv settings intersections server' :=
  ⟨h.settings.trans hinv.settings, h.knows hinv.knows, h.separated hrequest hinv.separated⟩

theorem processMessages_inv {requests : List Request}
    (hrequests : ∀ request ∈ requests, request.WellFormed intersections)
    (hinv : Inv settings intersections server) :
    ∃ server', processMessages requests server = (server', .ok ()) ∧
      Inv settings intersections server' := by
  induction requests generalizing server with
  | nil => exact ⟨server, rfl, hinv⟩
  | cons request requests ih =>
    have hrequest := hrequests request (by simp)
    obtain ⟨server₁, start, hrun, hanswered⟩ := processMessage_answered hrequest hinv.knows
    obtain ⟨server', hrest, hinv'⟩ :=
      ih (fun r hr => hrequests r (by simp [hr])) (hinv.answered hrequest hanswered)
    refine ⟨server', ?_, hinv'⟩
    unfold processMessages at hrest ⊢
    rw [forEach_cons, bind_run_ok hrun, hrest]

/-- However many requests the server has processed, the reservations at an
intersection are more than the wanted time apart, and the next request is
answered with the first start time that keeps this distance, or with a failure
that changes nothing. -/
theorem reservations_separated (settings : CentralSettings) {intersections : List Intersection}
    {requests : List Request}
    (hrequests : ∀ request ∈ requests, request.WellFormed intersections) :
    ∃ server, processMessages requests ((init settings).setIntersections intersections) =
        (server, .ok ()) ∧
      server.settings = settings ∧ server.Separated ∧
      ∀ request : Request, request.WellFormed intersections →
        ∃ server' start, processMessage request server = (server', .ok ()) ∧
          Answered server request start server' := by
  obtain ⟨server, hrun, hinv⟩ := processMessages_inv hrequests (.init settings intersections)
  exact ⟨server, hrun, hinv.settings, hinv.separated,
    fun request hrequest => processMessage_answered hrequest hinv.knows⟩

theorem reservations_separated_twoRequests :
    ∃ server, processMessages [⟨0, 0, [(0, 0, 1)]⟩, ⟨1, 0, [(0, 0, 1), (1, 0, 2)]⟩]
        ((init ⟨1, 5⟩).setIntersections [(0, 0), (1, 0)]) = (server, .ok ()) ∧
      server.settings = ⟨1, 5⟩ ∧ server.Separated ∧
      ∀ request : Request, request.WellFormed [(0, 0), (1, 0)] →
        ∃ server' start, processMessage request server = (server', .ok ()) ∧
          Answered server request start server' := by
  refine reservations_separated ⟨1, 5⟩ fun request hrequest => ?_
  rcases List.mem_cons.mp hrequest with rfl | hrequest
  · exact ⟨by decide, by decide⟩
  · obtain rfl := List.mem_singleton.mp hrequest
    exact ⟨by decide, by decide⟩

/-! ### What has been granted -/

/-- The time is one of those that a response of the log has granted. -/
def Granted (log : List (Request × Response)) (x : Intersection) (t : ℚ) : Prop :=
  ∃ e ∈ log, e.2.success = true ∧
    ∃ point ∈ e.1.points, point.1 = x ∧ t = e.2.startOffset + point.2

theorem Answered.mem_times (h : Answered server request start server') {t : ℚ} :
    t ∈ server'.intersectionOccupancy.times x ↔ t ∈ server.intersectionOccupancy.times x ∨
      ∃ s ∈ start, ∃ point ∈ request.points, point.1 = x ∧ t = s + point.2 := by
  refine ⟨h.times_cases, ?_⟩
  rintro (ht | ⟨s, hs, point, hpoint, rfl, rfl⟩)
  · by_cases hx : start = none ∨ ∀ point ∈ request.points, point.1 ≠ x
    · rwa [times, h.others x hx]
    · push Not at hx
      obtain ⟨hstart, point, hpoint, rfl⟩ := hx
      obtain ⟨s, hs⟩ := Option.ne_none_iff_exists'.mp hstart
      exact (h.reserved s hs point hpoint).mem_iff.mpr (List.mem_cons_of_mem _ ht)
  · exact (h.reserved s hs point hpoint).mem_iff.mpr List.mem_cons_self

/-- A server answers every request once, in the order of arrival.  No reservation
is lost, and what is new in its table is exactly what the responses have granted. -/
theorem reservations_eq_granted (server : { s : CentralServer // s.Knows intersections })
    (requests : List { r : Request // r.WellFormed intersections }) :
    ∃ server' log, processMessages (requests.map (·.1)) server.1 = (server', .ok ()) ∧
      log.map Prod.fst = requests.map (·.1) ∧ server'.sent = server.1.sent ++ log.map Prod.snd ∧
      (∀ e ∈ log, e.2.requestId = e.1.requestId) ∧
      ∀ x t, t ∈ server'.intersectionOccupancy.times x ↔
        t ∈ server.1.intersectionOccupancy.times x ∨ Granted log x t := by
  induction requests generalizing server with
  | nil => exact ⟨server, [], rfl, rfl, by simp, by simp, by simp [Granted]⟩
  | cons request requests ih =>
    obtain ⟨server₁, start, hrun, h⟩ := processMessage_answered request.2 server.2
    obtain ⟨server', log, hrest, hlog, hsent, hids, htimes⟩ := ih ⟨server₁, h.knows server.2⟩
    refine ⟨server', (request.1, ⟨request.1.requestId, start.isSome, start.getD 0⟩) :: log, ?_,
      by simp [hlog], by simp [hsent, h.response], by simpa using hids, fun x t => ?_⟩
    · unfold processMessages at hrest ⊢
      rw [List.map_cons, forEach_cons, bind_run_ok hrun, hrest]
    · rw [htimes, h.mem_times, or_assoc]
      cases start <;> simp [Granted]

end CentralServer

end Sola.Daisi
