import Sola.Minhton.FindResults

/-!
The timeouts of find queries
(`minhton/src/algorithms/esearch/minhton_entity_search_algorithm.cpp`).

A find starts a timer and notes the time.  A timeout does not know to which
find it belongs: it concludes all finds whose start is not before the one that
it is for.  Earlier finds have had their own timeout, so these are all finds
that are open.
-/

namespace Sola.Minhton

open Sola.Lib Action FindProcedures List Function

/-- A requesting node.  No function reads `promisesSet`: it lists the events
whose promise has been set, with the time. -/
structure FindNode where
  procedures : FindProcedures
  promisesSet : List (ℕ × ℕ)

/-- What happens at a requesting node.  A timeout comes with the order in which
the map of start times is walked through. -/
inductive FindEvent
  | find (refEventId : ℕ) (query : FindQuery)
  | report (refEventId : ℕ) (results : NodesWithAttributes)
  | timeout (order : List ℕ)

namespace FindNode

def onProcedures {α : Type} : Action FindProcedures α → Action FindNode α :=
  Action.zoom (·.procedures) fun p s => { s with procedures := p }

def concludeAggregationOfDSNs (lib : StandardLibrary) (timestampNow refEventId : ℕ) :
    Action FindNode Unit := do
  onProcedures (FindProcedures.concludeAggregationOfDSNs lib refEventId)
  Action.modify fun s => { s with promisesSet := s.promisesSet ++ [(refEventId, timestampNow)] }

/-- One round of `processDSNAggregationTimeout`. -/
def concludeSince (lib : StandardLibrary) (threshold timestampNow : ℕ)
    (startTimestamps : EventMap ℕ) (refEventId : ℕ) : Action FindNode Unit :=
  match startTimestamps refEventId with
  | none => pure ()
  | some startTimestamp =>
    if startTimestamp ≥ threshold then concludeAggregationOfDSNs lib timestampNow refEventId
    else pure ()

def processDSNAggregationTimeout (lib : StandardLibrary) (timeoutLength timestampNow : ℕ)
    (order : List ℕ) : Action FindNode Unit := do
  let s ← Action.get
  let threshold := u64Sub timestampNow timeoutLength
  -- the loop walks through a copy of the map
  let startTimestamps := s.procedures.dsnAggregationStartTimestamps
  Action.forEach order (concludeSince lib threshold timestampNow startTimestamps)

def handle (lib : StandardLibrary) (timeoutLength : ℕ) :
    ℕ × FindEvent → Action FindNode Unit
  | (timestampNow, .find refEventId query) =>
    onProcedures (startFind refEventId query timestampNow)
  | (_, .report refEventId results) =>
    onProcedures
      (savePreliminaryResultsFromInquiryAggregation lib refEventId results)
  | (timestampNow, .timeout order) =>
    processDSNAggregationTimeout lib timeoutLength timestampNow order

/-- The node after an event. -/
def after (lib : StandardLibrary) (timeoutLength : ℕ) (s : FindNode) (event : ℕ × FindEvent) :
    FindNode :=
  (handle lib timeoutLength event s).1

def run (lib : StandardLibrary) (timeoutLength : ℕ) (s : FindNode)
    (events : List (ℕ × FindEvent)) : FindNode :=
  events.foldl (after lib timeoutLength) s

def empty : FindNode := ⟨.empty, []⟩

/-- An iteration over the open finds. -/
def Listed (s : FindNode) (order : List ℕ) : Prop :=
  order.Nodup ∧ ∀ refEventId,
    refEventId ∈ order ↔ (s.procedures.dsnAggregationStartTimestamps refEventId).isSome = true

/-- The events can happen one after the other: times do not go back, finds have
new identifiers, and each find starts a timer that fires when its time has come. -/
def Scheduled (lib : StandardLibrary) (timeoutLength : ℕ) :
    FindNode → ℕ → List ℕ → List (ℕ × FindEvent) → Prop
  | _, _, timers, [] => timers = []
  | s, clock, timers, (t, .find refEventId query) :: events =>
    clock ≤ t ∧ s.procedures.Fresh refEventId ∧
      Scheduled lib timeoutLength (after lib timeoutLength s (t, .find refEventId query)) t
        (timers ++ [t + timeoutLength]) events
  | s, clock, timers, (t, .report refEventId results) :: events =>
    clock ≤ t ∧
      Scheduled lib timeoutLength (after lib timeoutLength s (t, .report refEventId results)) t
        timers events
  | s, clock, timers, (t, .timeout order) :: events =>
    clock ≤ t ∧ timers.head? = some t ∧ s.Listed order ∧
      Scheduled lib timeoutLength (after lib timeoutLength s (t, .timeout order)) t timers.tail
        events

/-- The promises that have to be set, with their times. -/
def due (timeoutLength : ℕ) : List (ℕ × FindEvent) → List (ℕ × ℕ)
  | [] => []
  | (t, .find refEventId _) :: events => (refEventId, t + timeoutLength) :: due timeoutLength events
  | (_, .report _ _) :: events => due timeoutLength events
  | (_, .timeout _) :: events => due timeoutLength events

/-- No timeout comes after a find and before its time. -/
def NoEarlierTimeout (timeoutLength : ℕ) (events : List (ℕ × FindEvent)) : Prop :=
  events.Pairwise fun event event' =>
    ∀ refEventId query order, event.2 = .find refEventId query → event'.2 = .timeout order →
      event.1 + timeoutLength ≤ event'.1

/-! ### Single events -/

/-- Every open find waits for its end. -/
def Consistent (p : FindProcedures) : Prop :=
  ∀ refEventId, (p.dsnAggregationStartTimestamps refEventId).isSome = true →
    ∃ query results, p.Waiting refEventId query results

section Events

variable {lib : StandardLibrary} {timeoutLength : ℕ} {s : FindNode} {p : FindProcedures}

theorem onProcedures_run {x : Action FindProcedures Unit} {p : FindProcedures}
    (h : x s.procedures = (p, .ok ())) :
    onProcedures x s = ({ s with procedures := p }, .ok ()) :=
  zoom_run_ok h

variable {t : ℕ} {order : List ℕ}

theorem after_find {refEventId : ℕ} {query : FindQuery} (h : s.procedures.Fresh refEventId) :
    after lib timeoutLength s (t, .find refEventId query) =
      { s with procedures := s.procedures.started refEventId query t } := by
  rw [after, handle, onProcedures_run (startFind_eq h query t)]

theorem Consistent.started (hp : Consistent p) (refEventId : ℕ) (query : FindQuery) (t : ℕ) :
    Consistent (p.started refEventId query t) := by
  intro other hother
  rcases eq_or_ne other refEventId with rfl | hne
  · exact ⟨query, ∅, waiting_started query t p⟩
  · simp only [FindProcedures.started, update_of_ne hne] at hother
    obtain ⟨query', results, hwait⟩ := hp other hother
    refine ⟨query', results, ?_⟩
    constructor <;> simp only [FindProcedures.started, update_of_ne hne]
    · exact hwait.query_eq
    · exact hwait.results_eq
    · exact hwait.promise_eq
    · exact hwait.timestamp

theorem Consistent.concluded (hp : Consistent p) (refEventId : ℕ) (results : NodesWithAttributes) :
    Consistent (p.concluded lib refEventId results) := by
  intro other hother
  rcases eq_or_ne other refEventId with rfl | hne
  · simp [FindProcedures.concluded] at hother
  · simp only [FindProcedures.concluded, update_of_ne hne] at hother
    obtain ⟨query', results', hwait⟩ := hp other hother
    refine ⟨query', results', ?_⟩
    constructor <;> simp only [FindProcedures.concluded, update_of_ne hne]
    · exact hwait.query_eq
    · exact hwait.results_eq
    · exact hwait.promise_eq
    · exact hwait.timestamp

theorem addResults_preserves (refEventId : ℕ) (e : Σ _ : NodeInfo, Attributes) :
    Preserves Consistent
      (onResults (addFindQueryPreliminaryResults refEventId e)) := by
  intro p hp
  cases hresults : p.findQueryPreliminaryResults refEventId with
  | none =>
    have hrun : addFindQueryPreliminaryResults refEventId e
        p.findQueryPreliminaryResults = (p.findQueryPreliminaryResults,
          .error "Event does not exist. You cannot update a non-existent entry.") := by
      simp [addFindQueryPreliminaryResults, hresults]
    simpa only [onResults, zoom, hrun] using hp
  | some results =>
    intro other hother
    obtain ⟨query, results', hwait⟩ := hp other hother
    have hsome : ∃ new, (addFindQueryPreliminaryResults refEventId e
        p.findQueryPreliminaryResults).1 other = some new := by
      rcases eq_or_ne other refEventId with rfl | hne
      · simp [addFindQueryPreliminaryResults, hresults]
      · simp [addFindQueryPreliminaryResults, hresults, hne, hwait.results_eq]
    obtain ⟨new, hnew⟩ := hsome
    exact ⟨query, new, hwait.query_eq, hnew, hwait.promise_eq, hwait.timestamp⟩

theorem addResults_keeps (refEventId : ℕ) (e : Σ _ : NodeInfo, Attributes) :
    Keeps (·.dsnAggregationStartTimestamps)
      (onResults (addFindQueryPreliminaryResults refEventId e)) :=
  fun _ => rfl

variable (lib timeoutLength) in
/-- Reports change nothing but results. -/
theorem after_report (hs : Consistent s.procedures) (t refEventId : ℕ)
    (results : NodesWithAttributes) :
    ∃ p, after lib timeoutLength s (t, .report refEventId results) = { s with procedures := p } ∧
      Consistent p ∧
      p.dsnAggregationStartTimestamps = s.procedures.dsnAggregationStartTimestamps :=
  ⟨_, rfl, preserves_forEach (addResults_preserves refEventId) _ _ hs,
    keeps_forEach (addResults_keeps refEventId) _ _⟩

/-- One promise after the other is set. -/
theorem forEach_conclude {f : ℕ → Action FindNode Unit} (hs : Consistent s.procedures)
    (hnodup : order.Nodup) (hf : ∀ id ∈ order, f id = concludeAggregationOfDSNs lib t id)
    (hopen : ∀ id ∈ order, (s.procedures.dsnAggregationStartTimestamps id).isSome = true) :
    ∃ p, forEach order f s =
        (⟨p, s.promisesSet ++ order.map fun id => (id, t)⟩, .ok ()) ∧
      Consistent p ∧ ∀ id, p.dsnAggregationStartTimestamps id =
        if id ∈ order then none else s.procedures.dsnAggregationStartTimestamps id := by
  induction order generalizing s with
  | nil => exact ⟨s.procedures, by simp, hs, by simp⟩
  | cons id order ih =>
    obtain ⟨hid, hnodup⟩ := nodup_cons.mp hnodup
    obtain ⟨query, results, hwait⟩ := hs id (hopen id (by simp))
    have hrun : f id s = (⟨s.procedures.concluded lib id results,
        s.promisesSet ++ [(id, t)]⟩, .ok ()) := by
      rw [hf id (by simp), concludeAggregationOfDSNs,
        bind_run_ok (onProcedures_run (conclude_eq lib hwait))]
      rfl
    obtain ⟨p, hrest, hp, htimes⟩ := ih
      (s := ⟨s.procedures.concluded lib id results, s.promisesSet ++ [(id, t)]⟩)
      (hs.concluded id results) hnodup (fun id' hid' => hf id' (by simp [hid'])) (by
        intro id' hid'
        have hne : id' ≠ id := fun h => hid (h ▸ hid')
        simpa [FindProcedures.concluded, hne] using hopen id' (by simp [hid']))
    refine ⟨p, ?_, hp, fun id' => ?_⟩
    · rw [forEach_cons, bind_run_ok hrun, hrest]
      simp
    · rw [htimes id']
      by_cases hid' : id' = id
      · subst hid'
        simp [FindProcedures.concluded]
      · simp [FindProcedures.concluded, hid']

variable (lib) in
/-- A timeout that is not after the time of any open find ends them all. -/
theorem after_timeout (hs : Consistent s.procedures) (hlisted : s.Listed order)
    (hlength : timeoutLength ≤ t)
    (hopen : ∀ id start, s.procedures.dsnAggregationStartTimestamps id = some start →
      t ≤ start + timeoutLength) :
    ∃ p, after lib timeoutLength s (t, .timeout order) =
        ⟨p, s.promisesSet ++ order.map fun id => (id, t)⟩ ∧
      Consistent p ∧ ∀ id, p.dsnAggregationStartTimestamps id = none := by
  have hthreshold : u64Sub t timeoutLength = t - timeoutLength := if_pos hlength
  have hround : ∀ id ∈ order, concludeSince lib (u64Sub t timeoutLength) t
      s.procedures.dsnAggregationStartTimestamps id = concludeAggregationOfDSNs lib t id := by
    intro id hid
    obtain ⟨start, hstart⟩ := Option.isSome_iff_exists.mp ((hlisted.2 id).mp hid)
    have hle := hopen id start hstart
    rw [concludeSince, hstart]
    exact if_pos (by omega)
  obtain ⟨p, hrun, hp, htimes⟩ :=
    forEach_conclude hs hlisted.1 hround fun id hid => (hlisted.2 id).mp hid
  refine ⟨p, congrArg Prod.fst hrun, hp, fun id => ?_⟩
  rw [htimes id]
  split_ifs with hid
  · rfl
  · exact Option.not_isSome_iff_eq_none.mp fun h => hid ((hlisted.2 id).mpr h)

end Events

/-! ### Whole schedules -/

/-- The time of the first timeout. -/
def nextTimeout : List (ℕ × FindEvent) → ℕ
  | [] => 0
  | (t, .timeout _) :: _ => t
  | (_, .find _ _) :: events => nextTimeout events
  | (_, .report _ _) :: events => nextTimeout events

/-- Each find with the time of the first timeout after it. -/
def conclusions : List (ℕ × FindEvent) → List (ℕ × ℕ)
  | [] => []
  | (_, .find refEventId _) :: events => (refEventId, nextTimeout events) :: conclusions events
  | (_, .report _ _) :: events => conclusions events
  | (_, .timeout _) :: events => conclusions events

/-- Every open find has a timer, and the timers fire in the order in which they
were started. -/
structure Running (timeoutLength : ℕ) (s : FindNode) (clock : ℕ) (timers : List ℕ) : Prop where
  consistent : Consistent s.procedures
  timer : ∀ id start, s.procedures.dsnAggregationStartTimestamps id = some start →
    start + timeoutLength ∈ timers
  sorted : timers.Pairwise (· ≤ ·)
  bounds : ∀ u ∈ timers, timeoutLength ≤ u ∧ u ≤ clock + timeoutLength

section Schedules

variable {lib : StandardLibrary} {timeoutLength clock : ℕ} {s : FindNode} {timers : List ℕ}
  {events : List (ℕ × FindEvent)}

theorem running_empty : Running timeoutLength empty 0 [] where
  consistent _ h := by cases h
  timer _ _ h := by cases h
  sorted := .nil
  bounds _ h := by cases h

theorem listed_empty : empty.Listed [] :=
  ⟨nodup_nil, fun id => by simp [empty, FindProcedures.empty]⟩

variable {t refEventId : ℕ} {query : FindQuery} {pending : List ℕ}

section

variable (hs : Running timeoutLength s clock timers)
include hs

theorem Running.find (ht : clock ≤ t) (hfresh : s.procedures.Fresh refEventId) :
    Running timeoutLength (after lib timeoutLength s (t, .find refEventId query)) t
      (timers ++ [t + timeoutLength]) := by
  rw [after_find hfresh]
  refine ⟨hs.consistent.started refEventId query t, fun id start h => ?_, ?_, fun u hu => ?_⟩
  · rcases eq_or_ne id refEventId with rfl | hne
    · simp only [FindProcedures.started, update_self, Option.some.injEq] at h
      simp [h]
    · simp only [FindProcedures.started, update_of_ne hne] at h
      exact mem_append_left _ (hs.timer id start h)
  · refine pairwise_append.mpr ⟨hs.sorted, pairwise_singleton _ _, fun u hu v hv => ?_⟩
    have hle := (hs.bounds u hu).2
    rw [mem_singleton.mp hv]
    omega
  · rcases mem_append.mp hu with hu | hu
    · have hle := hs.bounds u hu
      omega
    · rw [mem_singleton.mp hu]
      omega

theorem Running.report {results : NodesWithAttributes} (ht : clock ≤ t) :
    Running timeoutLength (after lib timeoutLength s (t, .report refEventId results)) t timers := by
  obtain ⟨p, hp, hconsistent, htimes⟩ := after_report lib timeoutLength hs.consistent t
    refEventId results
  rw [hp]
  refine ⟨hconsistent, fun id start h => hs.timer id start (htimes ▸ h), hs.sorted, fun u hu => ?_⟩
  have hle := hs.bounds u hu
  omega

/-- A timeout ends all open finds, also those whose time has not come. -/
theorem Running.timeout {order : List ℕ} (ht : clock ≤ t) (hhead : timers.head? = some t)
    (hlisted : s.Listed order) :
    Running timeoutLength (after lib timeoutLength s (t, .timeout order)) t timers.tail ∧
      (after lib timeoutLength s (t, .timeout order)).promisesSet =
        s.promisesSet ++ order.map (fun id => (id, t)) ∧
      (after lib timeoutLength s (t, .timeout order)).Listed [] := by
  obtain ⟨timers, rfl⟩ : ∃ rest, timers = t :: rest := head?_eq_some_iff.mp hhead
  have hopen : ∀ id start, s.procedures.dsnAggregationStartTimestamps id = some start →
      t ≤ start + timeoutLength := by
    intro id start hstart
    rcases mem_cons.mp (hs.timer id start hstart) with heq | hmem
    · exact heq.ge
    · exact rel_of_pairwise_cons hs.sorted hmem
  obtain ⟨p, hp, hconsistent, htimes⟩ := after_timeout lib hs.consistent hlisted
    (hs.bounds t (by simp)).1 hopen
  rw [hp]
  refine ⟨⟨hconsistent, fun id start h => ?_, hs.sorted.tail, fun u hu => ?_⟩, rfl,
    nodup_nil, fun id => ?_⟩
  · rw [htimes id] at h
    cases h
  · have hle := hs.bounds u (mem_cons_of_mem _ hu)
    omega
  · rw [htimes id]
    simp

end

theorem Listed.find (hlisted : s.Listed pending) (hfresh : s.procedures.Fresh refEventId) :
    (after lib timeoutLength s (t, .find refEventId query)).Listed (pending ++ [refEventId]) := by
  rw [after_find hfresh]
  constructor
  · have hnew : refEventId ∉ pending := by
      rw [hlisted.2, hfresh.timestamp_eq]
      exact Bool.false_ne_true
    simpa [nodup_append, hlisted.1] using fun id hid => ne_of_mem_of_not_mem hid hnew
  · intro id
    rcases eq_or_ne id refEventId with rfl | hne
    · simp [FindProcedures.started]
    · simp [FindProcedures.started, hne, hlisted.2]

section

variable (h : Scheduled lib timeoutLength s clock timers events)
include h

theorem nextTimeout_eq {u : ℕ} (hhead : timers.head? = some u) : nextTimeout events = u := by
  induction events generalizing s clock timers with
  | nil =>
    rw [show timers = [] from h] at hhead
    cases hhead
  | cons event events ih =>
    obtain ⟨t, event⟩ := event
    cases event with
    | find refEventId query =>
      refine ih h.2.2 ?_
      rw [head?_append, hhead]
      rfl
    | report refEventId results => exact ih h.2 hhead
    | timeout order => exact Option.some.inj (h.2.1.symm.trans hhead)

theorem Scheduled.clock_le {event : ℕ × FindEvent} (hevent : event ∈ events) : clock ≤ event.1 := by
  induction events generalizing s clock timers with
  | nil => simp at hevent
  | cons first events ih =>
    obtain ⟨t, first⟩ := first
    have hfirst : clock ≤ t := by
      cases first with
      | find refEventId query => exact h.1
      | report refEventId results => exact h.1
      | timeout order => exact h.1
    rcases mem_cons.mp hevent with rfl | hmem
    · exact hfirst
    · cases first with
      | find refEventId query => exact hfirst.trans (ih h.2.2 hmem)
      | report refEventId results => exact hfirst.trans (ih h.2 hmem)
      | timeout order => exact hfirst.trans (ih h.2.2.2 hmem)

/-- The next timeout is one of the events, and no timeout comes before it. -/
theorem nextTimeout_spec (htimers : timers ≠ []) :
    (∃ order, (nextTimeout events, FindEvent.timeout order) ∈ events) ∧
      ∀ u order, (u, FindEvent.timeout order) ∈ events → nextTimeout events ≤ u := by
  induction events generalizing s clock timers with
  | nil => exact absurd h htimers
  | cons event events ih =>
    obtain ⟨t, event⟩ := event
    cases event with
    | find refEventId query =>
      obtain ⟨⟨order, hmem⟩, hle⟩ := ih h.2.2 (by simp)
      exact ⟨⟨order, mem_cons_of_mem _ hmem⟩, fun u order' hu => hle u order' (by
        simpa using hu)⟩
    | report refEventId results =>
      obtain ⟨⟨order, hmem⟩, hle⟩ := ih h.2 htimers
      exact ⟨⟨order, mem_cons_of_mem _ hmem⟩, fun u order' hu => hle u order' (by
        simpa using hu)⟩
    | timeout order =>
      refine ⟨⟨order, mem_cons_self⟩, fun u order' hu => ?_⟩
      rcases mem_cons.mp hu with hu | hu
      · exact (congrArg Prod.fst hu).ge
      · exact h.2.2.2.clock_le hu

end

variable (hs : Running timeoutLength s clock timers)
include hs

/-- The timer of a find is the last one, so the next timeout is not after it. -/
theorem nextTimeout_le
    (h : Scheduled lib timeoutLength s clock timers ((t, .find refEventId query) :: events)) :
    nextTimeout events ≤ t + timeoutLength := by
  have hrunning : Running timeoutLength (after lib timeoutLength s (t, .find refEventId query)) t
      (timers ++ [t + timeoutLength]) := hs.find h.1 h.2.1
  obtain ⟨u, hu⟩ : ∃ u, (timers ++ [t + timeoutLength]).head? = some u :=
    Option.isSome_iff_exists.mp (by simp)
  rw [nextTimeout_eq h.2.2 hu]
  exact (hrunning.bounds u (mem_of_mem_head? hu)).2

/-- A run sets the promises of the open finds at the next timeout, and those of
later finds at the first timeout after them. -/
theorem run_promisesSet (hlisted : s.Listed pending)
    (h : Scheduled lib timeoutLength s clock timers events) :
    (run lib timeoutLength s events).promisesSet.Perm
      (s.promisesSet ++ pending.map (fun id => (id, nextTimeout events)) ++
        conclusions events) := by
  induction events generalizing s clock timers pending with
  | nil =>
    have hnone : pending = [] := by
      refine eq_nil_iff_forall_not_mem.mpr fun id hid => ?_
      obtain ⟨start, hstart⟩ := Option.isSome_iff_exists.mp ((hlisted.2 id).mp hid)
      have htimer := hs.timer id start hstart
      rw [show timers = [] from h] at htimer
      cases htimer
    simp [hnone, run, conclusions]
  | cons event events ih =>
    obtain ⟨t, event⟩ := event
    cases event with
    | find refEventId query =>
      obtain ⟨ht, hfresh, hrest⟩ := h
      have hset : (after lib timeoutLength s (t, .find refEventId query)).promisesSet =
          s.promisesSet := by rw [after_find hfresh]
      have hlisted' : (after lib timeoutLength s (t, .find refEventId query)).Listed
          (pending ++ [refEventId]) := hlisted.find hfresh
      have hperm := ih (hs.find ht hfresh) hlisted' hrest
      rw [hset, map_append, ← append_assoc, append_assoc] at hperm
      exact hperm
    | report refEventId results =>
      obtain ⟨ht, hrest⟩ := h
      obtain ⟨p, hp, -, htimes⟩ := after_report lib timeoutLength hs.consistent t refEventId
        results
      have hset : (after lib timeoutLength s (t, .report refEventId results)).promisesSet =
          s.promisesSet := by rw [hp]
      have hlisted' : (after lib timeoutLength s (t, .report refEventId results)).Listed
          pending := by
        rw [hp]
        exact ⟨hlisted.1, fun id => by rw [hlisted.2 id, htimes]⟩
      have hperm := ih (hs.report ht) hlisted' hrest
      rw [hset] at hperm
      exact hperm
    | timeout order =>
      obtain ⟨ht, hhead, horder, hrest⟩ := h
      obtain ⟨hrunning, hset, hnone⟩ := hs.timeout ht hhead horder
      have hperm := ih hrunning hnone hrest
      rw [hset, map_nil, append_nil] at hperm
      have hsame : order.Perm pending :=
        (perm_ext_iff_of_nodup horder.1 hlisted.1).mpr fun id =>
          (horder.2 id).trans (hlisted.2 id).symm
      exact hperm.trans (((hsame.map _).append_left _).append_right _)

variable (h : Scheduled lib timeoutLength s clock timers events)
include h

/-- No find ends after its time.  The times add up to what is due only if each
of them is right. -/
theorem conclusions_sum :
    ((conclusions events).map Prod.snd).sum ≤ ((due timeoutLength events).map Prod.snd).sum ∧
      (((conclusions events).map Prod.snd).sum = ((due timeoutLength events).map Prod.snd).sum →
        conclusions events = due timeoutLength events) := by
  induction events generalizing s clock timers with
  | nil => exact ⟨le_rfl, fun _ => rfl⟩
  | cons event events ih =>
    obtain ⟨t, event⟩ := event
    cases event with
    | find refEventId query =>
      have hnext := nextTimeout_le hs h
      obtain ⟨ht, hfresh, hrest⟩ := h
      obtain ⟨hle, heq⟩ := ih (hs.find ht hfresh) hrest
      simp only [conclusions, due, map_cons, sum_cons]
      refine ⟨by omega, fun hsum => ?_⟩
      rw [heq (by omega), show nextTimeout events = t + timeoutLength by omega]
    | report refEventId results => exact ih (hs.report h.1) h.2
    | timeout order => exact ih (hs.timeout h.1 h.2.1 h.2.2.1).1 h.2.2.2

theorem conclusions_eq_due_iff :
    conclusions events = due timeoutLength events ↔ NoEarlierTimeout timeoutLength events := by
  induction events generalizing s clock timers with
  | nil => exact iff_of_true rfl .nil
  | cons event events ih =>
    obtain ⟨t, event⟩ := event
    cases event with
    | find refEventId query =>
      have hle := nextTimeout_le hs h
      obtain ⟨ht, hfresh, hrest⟩ := h
      obtain ⟨⟨order, hmem⟩, hfirst⟩ := nextTimeout_spec hrest (by simp)
      rw [NoEarlierTimeout, pairwise_cons, ← NoEarlierTimeout,
        ← ih (hs.find ht hfresh) hrest, conclusions, due, cons.injEq, Prod.mk.injEq]
      refine and_congr_left fun _ => ?_
      constructor
      · rintro ⟨-, hnext⟩ ⟨u, event'⟩ hevent' _ _ order' - rfl
        exact hnext.ge.trans (hfirst u order' hevent')
      · intro hall
        exact ⟨rfl, le_antisymm hle (hall _ hmem refEventId query order rfl rfl)⟩
    | report refEventId results =>
      rw [NoEarlierTimeout, pairwise_cons, ← NoEarlierTimeout, ← ih (hs.report h.1) h.2]
      exact (and_iff_right fun _ _ _ _ _ hfind => by cases hfind).symm
    | timeout order =>
      rw [NoEarlierTimeout, pairwise_cons, ← NoEarlierTimeout,
        ← ih (hs.timeout h.1 h.2.1 h.2.2.1).1 h.2.2.2]
      exact (and_iff_right fun _ _ _ _ _ hfind => by cases hfind).symm

end Schedules

/-- Every promise is set exactly once and at its time, exactly if no timeout
comes after a find and before its time. -/
theorem promisesSet_on_time_iff (lib : StandardLibrary) (timeoutLength : ℕ)
    (events : List (ℕ × FindEvent)) (h : Scheduled lib timeoutLength empty 0 [] events) :
    (run lib timeoutLength empty events).promisesSet.Perm (due timeoutLength events) ↔
      NoEarlierTimeout timeoutLength events := by
  have hrun := run_promisesSet running_empty listed_empty h
  rw [← conclusions_eq_due_iff running_empty h]
  constructor
  · intro hperm
    have hsame : (conclusions events).Perm (due timeoutLength events) := hrun.symm.trans hperm
    exact (conclusions_sum running_empty h).2 (hsame.map _).sum_eq
  · intro heq
    exact heq ▸ hrun

def presenceQuery : FindQuery := { expr := .presence ['x'] }

/-- The second find starts when the first one ends. -/
def oneAfterTheOther : List (ℕ × FindEvent) :=
  [(10, .find 1 presenceQuery), (15, .timeout [1]), (15, .find 2 presenceQuery),
    (20, .timeout [2])]

theorem scheduled_oneAfterTheOther :
    Scheduled insertionSortLibrary 5 empty 0 [] oneAfterTheOther := by
  have hfresh₁ : empty.procedures.Fresh 1 := ⟨rfl, rfl, rfl, rfl⟩
  have hrunning : Running 5 (run insertionSortLibrary 5 empty
      [(10, .find 1 presenceQuery)]) 10 [15] := running_empty.find (by decide) hfresh₁
  have hlisted : (run insertionSortLibrary 5 empty
      [(10, .find 1 presenceQuery)]).Listed [1] := listed_empty.find hfresh₁
  have hnone : (run insertionSortLibrary 5 empty
      [(10, .find 1 presenceQuery), (15, .timeout [1])]).Listed [] :=
    (hrunning.timeout (by decide) rfl hlisted).2.2
  have hfresh₂ : (run insertionSortLibrary 5 empty
      [(10, .find 1 presenceQuery), (15, .timeout [1])]).procedures.Fresh 2 :=
    ⟨rfl, rfl, rfl, rfl⟩
  exact ⟨by decide, hfresh₁, by decide, rfl, hlisted, by decide, hfresh₂, by decide, rfl,
    hnone.find hfresh₂, rfl⟩

theorem promisesSet_on_time_oneAfterTheOther :
    (run insertionSortLibrary 5 empty oneAfterTheOther).promisesSet.Perm
      [(1, 15), (2, 20)] :=
  (promisesSet_on_time_iff insertionSortLibrary 5 oneAfterTheOther
    scheduled_oneAfterTheOther).mpr (by
      simp [NoEarlierTimeout, oneAfterTheOther])

/-- The second find starts before the first one ends. -/
def overlapping : List (ℕ × FindEvent) :=
  [(10, .find 1 presenceQuery), (12, .find 2 presenceQuery), (15, .timeout [1, 2]),
    (17, .timeout [])]

theorem scheduled_overlapping :
    Scheduled insertionSortLibrary 5 empty 0 [] overlapping := by
  have hfresh₁ : empty.procedures.Fresh 1 := ⟨rfl, rfl, rfl, rfl⟩
  have hfresh₂ : (run insertionSortLibrary 5 empty
      [(10, .find 1 presenceQuery)]).procedures.Fresh 2 := ⟨rfl, rfl, rfl, rfl⟩
  have hrunning : Running 5 (run insertionSortLibrary 5 empty
      [(10, .find 1 presenceQuery), (12, .find 2 presenceQuery)]) 12 [15, 17] :=
    (running_empty.find (by decide) hfresh₁).find (by decide) hfresh₂
  have hlisted : (run insertionSortLibrary 5 empty
      [(10, .find 1 presenceQuery), (12, .find 2 presenceQuery)]).Listed [1, 2] :=
    (listed_empty.find hfresh₁).find hfresh₂
  have hnone : (run insertionSortLibrary 5 empty
      [(10, .find 1 presenceQuery), (12, .find 2 presenceQuery),
        (15, .timeout [1, 2])]).Listed [] :=
    (hrunning.timeout (by decide) rfl hlisted).2.2
  exact ⟨by decide, hfresh₁, by decide, hfresh₂, by decide, rfl, hlisted, by decide, rfl, hnone,
    rfl⟩

/-- The timeout of the first find also ends the second one, two units too
early. -/
theorem promisesSet_overlapping_early :
    Scheduled insertionSortLibrary 5 empty 0 [] overlapping ∧
      due 5 overlapping = [(1, 15), (2, 17)] ∧
      (run insertionSortLibrary 5 empty overlapping).promisesSet =
        [(1, 15), (2, 15)] :=
  ⟨scheduled_overlapping, rfl, by decide +kernel⟩

end FindNode

end Sola.Minhton
