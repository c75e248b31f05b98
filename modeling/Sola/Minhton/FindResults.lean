import Sola.Lib.UniqueBy
import Sola.Minhton.RelevantAttributes

/-!
The results of a find query (`minhton/src/algorithms/esearch/minhton_entity_search_algorithm.cpp`
and `minhton_entity_search_algorithm_helper.cpp`).

A DSN filters what it has found and sends it to the requesting node.  There
the answers are collected, filtered once more and handed to the promise of
the query.  For the scope `kSome` a DSN resizes its list of nodes to two, which
makes it longer if there are fewer.
-/

namespace Sola.Minhton

open Sola.Lib Action List

abbrev FindResult := List (List Entry)

/-- What the standard library leaves open: the order in which an unordered map
is walked through, and the order of elements that a sort takes for equal. -/
structure StandardLibrary where
  iterate : NodesWithAttributes → List (Σ _ : NodeInfo, Attributes)
  iterate_perm : ∀ m, (iterate m).Perm m.entries
  sort : Attributes → Attributes
  sort_perm : ∀ l, (sort l).Perm l
  sorted : ∀ l, (sort l).Pairwise fun a b => a.1 ≤ b.1

/-- `std::vector::resize`. -/
def resize {α : Type} (n : ℕ) (fill : α) (l : List α) : List α :=
  l.take n ++ List.replicate (n - l.length) fill

def kFindQuerySomeScopeThreshold : ℕ := 2

section Filters

variable (lib : StandardLibrary)

/-- Change the attributes of every node. -/
def mapAttributes (f : Attributes → Attributes) (m : NodesWithAttributes) : NodesWithAttributes :=
  ⟨m.entries.map (.map id fun _ => f), m.nodupKeys.map₂ _⟩

def filterDuplicateAttributes (fullResults : NodesWithAttributes) : NodesWithAttributes :=
  mapAttributes (fun attributes => uniqueBy Prod.fst (lib.sort attributes)) fullResults

def filterAggregationResultsAfterInquiries (fullResults : NodesWithAttributes)
    (scope : FindQueryScope) : NodesWithAttributes :=
  let cleanedResults := filterDuplicateAttributes lib fullResults
  match scope with
  | .kAll => cleanedResults
  | .kSome =>
    (resize kFindQuerySomeScopeThreshold ⟨.none, []⟩ (lib.iterate cleanedResults)).toAList

def filterAggregationResultsAfterDSNs (fullResults : NodesWithAttributes) : NodesWithAttributes :=
  filterDuplicateAttributes lib fullResults

end Filters

/-! ### The requesting node -/

/-- Maps from the events of procedures. -/
abbrev EventMap (α : Type) := ℕ → Option α

namespace EventMap

variable {α : Type}

def save (refEventId : ℕ) (value : α) : Action (EventMap α) Unit := do
  let m ← Action.get
  if (m refEventId).isSome then Action.throw "Event already exists. Extremely unlikely."
  else Action.modify fun m => Function.update m refEventId (some value)

def load (refEventId : ℕ) : Action (EventMap α) α := do
  let m ← Action.get
  match m refEventId with
  | none => Action.throw "Event does not exist. You cannot load a non-existent entry."
  | some value => return value

def remove (refEventId : ℕ) : Action (EventMap α) Unit := do
  let m ← Action.get
  if (m refEventId).isNone then
    Action.throw "Event does not exist. You cannot remove a non-existent entry."
  else Action.modify fun m => Function.update m refEventId none

variable {m : EventMap α} {refEventId : ℕ}

theorem save_run (h : m refEventId = none) (value : α) :
    save refEventId value m = (Function.update m refEventId (some value), .ok ()) := by
  simp [save, h]

theorem load_run {value : α} (h : m refEventId = some value) :
    load refEventId m = (m, .ok value) := by
  simp [load, h]

theorem remove_run (h : (m refEventId).isSome = true) :
    remove refEventId m = (Function.update m refEventId none, .ok ()) := by
  obtain ⟨value, hvalue⟩ := Option.isSome_iff_exists.mp h
  simp [remove, hvalue]

end EventMap

/-- The part of `ProcedureInfo` that belongs to find queries.  A promise has a
value once it is set. -/
structure FindProcedures where
  findQueries : EventMap FindQuery
  findQueryPreliminaryResults : EventMap NodesWithAttributes
  dsnAggregationStartTimestamps : EventMap ℕ
  findResultPromises : EventMap (Option FindResult)

namespace FindProcedures

def onQueries {α : Type} : Action (EventMap FindQuery) α → Action FindProcedures α :=
  Action.zoom (·.findQueries) fun m p => { p with findQueries := m }

def onResults {α : Type} : Action (EventMap NodesWithAttributes) α → Action FindProcedures α :=
  Action.zoom (·.findQueryPreliminaryResults) fun m p => { p with findQueryPreliminaryResults := m }

def onTimestamps {α : Type} : Action (EventMap ℕ) α → Action FindProcedures α :=
  Action.zoom (·.dsnAggregationStartTimestamps) fun m p =>
    { p with dsnAggregationStartTimestamps := m }

def onPromises {α : Type} : Action (EventMap (Option FindResult)) α → Action FindProcedures α :=
  Action.zoom (·.findResultPromises) fun m p => { p with findResultPromises := m }

section OnMaps

variable {α : Type} {a : α} {p : FindProcedures}

theorem onQueries_run {x : Action (EventMap FindQuery) α} {m : EventMap FindQuery}
    (h : x p.findQueries = (m, .ok a)) : onQueries x p = ({ p with findQueries := m }, .ok a) :=
  zoom_run_ok h

theorem onResults_run {x : Action (EventMap NodesWithAttributes) α}
    {m : EventMap NodesWithAttributes} (h : x p.findQueryPreliminaryResults = (m, .ok a)) :
    onResults x p = ({ p with findQueryPreliminaryResults := m }, .ok a) :=
  zoom_run_ok h

theorem onTimestamps_run {x : Action (EventMap ℕ) α} {m : EventMap ℕ}
    (h : x p.dsnAggregationStartTimestamps = (m, .ok a)) :
    onTimestamps x p = ({ p with dsnAggregationStartTimestamps := m }, .ok a) :=
  zoom_run_ok h

theorem onPromises_run {x : Action (EventMap (Option FindResult)) α}
    {m : EventMap (Option FindResult)} (h : x p.findResultPromises = (m, .ok a)) :
    onPromises x p = ({ p with findResultPromises := m }, .ok a) :=
  zoom_run_ok h

end OnMaps

/-- Attributes of a node that is there already are appended. -/
def addResult (results : NodesWithAttributes) (e : Σ _ : NodeInfo, Attributes) :
    NodesWithAttributes :=
  match results.lookup e.1 with
  | none => results.insert e.1 e.2
  | some attributes => results.insert e.1 (attributes ++ e.2)

def addFindQueryPreliminaryResults (refEventId : ℕ) (e : Σ _ : NodeInfo, Attributes) :
    Action (EventMap NodesWithAttributes) Unit := do
  let m ← Action.get
  match m refEventId with
  | none => Action.throw "Event does not exist. You cannot update a non-existent entry."
  | some results =>
    Action.modify fun m => Function.update m refEventId (some (addResult results e))

/-- What `find` writes down before it sends its requests. -/
def startFind (refEventId : ℕ) (query : FindQuery) (timestampNow : ℕ) :
    Action FindProcedures Unit := do
  onQueries (EventMap.save refEventId query)
  onResults (EventMap.save refEventId ∅)
  onPromises (EventMap.save refEventId none)
  onTimestamps (EventMap.save refEventId timestampNow)

section Results

variable (lib : StandardLibrary)

/-- An answer that comes too late is dropped. -/
def savePreliminaryResultsFromInquiryAggregation (refEventId : ℕ)
    (results : NodesWithAttributes) : Action FindProcedures Unit :=
  Action.catchAll <| Action.forEach (lib.iterate results) fun e =>
    onResults (addFindQueryPreliminaryResults refEventId e)

/-- The value that the promise gets. -/
def resultEntries (results : NodesWithAttributes) : FindResult :=
  (lib.iterate results).map fun e => e.2.map fun a => ⟨a.1, a.2, .kValueDynamic⟩

def notifyAboutFindQueryResults (refEventId : ℕ) (results : NodesWithAttributes) :
    Action FindProcedures Unit := do
  let _ ← onPromises (EventMap.load refEventId)
  onPromises <| Action.modify fun m =>
    Function.update m refEventId (some (some (resultEntries lib results)))

def concludeAggregationOfDSNs (refEventId : ℕ) : Action FindProcedures Unit := do
  let _ ← onQueries (EventMap.load refEventId)
  let results ← onResults (EventMap.load refEventId)
  notifyAboutFindQueryResults lib refEventId (filterAggregationResultsAfterDSNs lib results)
  onQueries (EventMap.remove refEventId)
  onResults (EventMap.remove refEventId)
  onTimestamps (EventMap.remove refEventId)

/-- A query from its start to its promise, with the reports of the DSNs in
the order in which they arrive. -/
def findRun (refEventId : ℕ) (query : FindQuery) (timestampNow : ℕ)
    (reports : List NodesWithAttributes) : Action FindProcedures Unit := do
  startFind refEventId query timestampNow
  Action.forEach reports fun report =>
    savePreliminaryResultsFromInquiryAggregation lib refEventId
      (filterAggregationResultsAfterInquiries lib report query.scope)
  concludeAggregationOfDSNs lib refEventId

end Results

end FindProcedures

/-! ### What the filters keep -/

section Filters

variable {lib : StandardLibrary} {node : NodeInfo} {m : NodesWithAttributes}
  {e : Σ _ : NodeInfo, Attributes} {scope : FindQueryScope} {report : NodesWithAttributes}

theorem StandardLibrary.mem_iterate : e ∈ lib.iterate m ↔ m.lookup e.1 = some e.2 := by
  rw [(lib.iterate_perm m).mem_iff]
  exact AList.mem_lookup_iff.symm

theorem StandardLibrary.nodup_iterate : ((lib.iterate m).map (·.1)).Nodup :=
  ((lib.iterate_perm m).map _).nodup_iff.mpr m.nodupKeys

theorem lookup_mapAttributes (f : Attributes → Attributes) :
    (mapAttributes f m).lookup node = (m.lookup node).map f :=
  dlookup_map₂ node

/-- The filtered attributes are some of the node's own, one for each key. -/
structure OneForEachKey (attributes filtered : Attributes) : Prop where
  subset : ∀ a ∈ filtered, a ∈ attributes
  covered : ∀ a ∈ attributes, ∃ b ∈ filtered, b.1 = a.1
  nodup : (filtered.map (·.1)).Nodup

theorem oneForEachKey_filter (attributes : Attributes) :
    OneForEachKey attributes (uniqueBy Prod.fst (lib.sort attributes)) where
  subset _ ha := (lib.sort_perm attributes).mem_iff.mp (mem_of_mem_uniqueBy ha)
  covered _ ha := exists_mem_uniqueBy ((lib.sort_perm attributes).mem_iff.mpr ha)
  nodup := nodup_uniqueBy (lib.sorted attributes)

theorem lookup_filterDuplicateAttributes {filtered : Attributes}
    (h : (filterDuplicateAttributes lib m).lookup node = some filtered) :
    ∃ attributes, m.lookup node = some attributes ∧ OneForEachKey attributes filtered := by
  rw [filterDuplicateAttributes, lookup_mapAttributes] at h
  obtain ⟨attributes, hattributes, rfl⟩ := Option.map_eq_some_iff.mp h
  exact ⟨attributes, hattributes, oneForEachKey_filter attributes⟩

theorem mem_filterDuplicateAttributes :
    node ∈ filterDuplicateAttributes lib m ↔ node ∈ m := by
  rw [← AList.lookup_isSome, ← AList.lookup_isSome, filterDuplicateAttributes,
    lookup_mapAttributes, Option.isSome_map]

theorem length_iterate_filterDuplicateAttributes :
    (lib.iterate (filterDuplicateAttributes lib m)).length = m.keys.length := by
  rw [(lib.iterate_perm _).length_eq]
  simp [filterDuplicateAttributes, mapAttributes, AList.keys, keys]

/-- What a DSN sends of a report. -/
def sentEntries (lib : StandardLibrary) (scope : FindQueryScope) (report : NodesWithAttributes) :
    List (Σ _ : NodeInfo, Attributes) :=
  lib.iterate (filterAggregationResultsAfterInquiries lib report scope)

/-- Nothing is made up: either nothing is padded, or the entry is the padding. -/
theorem mem_sentEntries (he : e ∈ sentEntries lib scope report) :
    (∃ attributes, report.lookup e.1 = some attributes ∧ OneForEachKey attributes e.2) ∨
      (scope = .kSome ∧ report.keys.length < kFindQuerySomeScopeThreshold ∧ e = ⟨.none, []⟩) := by
  rw [sentEntries, StandardLibrary.mem_iterate] at he
  cases scope with
  | kAll => exact .inl (lookup_filterDuplicateAttributes he)
  | kSome =>
    have hmem : e ∈ resize kFindQuerySomeScopeThreshold ⟨.none, []⟩
        (lib.iterate (filterDuplicateAttributes lib report)) := by
      rw [filterAggregationResultsAfterInquiries, AList.lookup_to_alist] at he
      exact of_mem_dlookup he
    rcases mem_append.mp hmem with hmem | hmem
    · have hlookup := StandardLibrary.mem_iterate.mp (mem_of_mem_take hmem)
      exact .inl (lookup_filterDuplicateAttributes hlookup)
    · rw [length_iterate_filterDuplicateAttributes, mem_replicate] at hmem
      exact .inr ⟨rfl, by omega, hmem.2⟩

theorem nodup_sentEntries : ((sentEntries lib scope report).map (·.1)).Nodup :=
  StandardLibrary.nodup_iterate

theorem mem_sentEntries_kAll : node ∈ (sentEntries lib .kAll report).map (·.1) ↔ node ∈ report := by
  rw [sentEntries, ((lib.iterate_perm _).map _).mem_iff]
  exact mem_filterDuplicateAttributes

theorem length_sentEntries_kSome_le :
    (sentEntries lib .kSome report).length ≤ kFindQuerySomeScopeThreshold := by
  have hsub : (sentEntries lib .kSome report).map (·.1) ⊆
      (resize kFindQuerySomeScopeThreshold ⟨.none, []⟩
        (lib.iterate (filterDuplicateAttributes lib report))).map (·.1) := by
    intro n hn
    obtain ⟨e, he, rfl⟩ := mem_map.mp hn
    rw [sentEntries, StandardLibrary.mem_iterate, filterAggregationResultsAfterInquiries,
      AList.lookup_to_alist] at he
    exact mem_map_of_mem (of_mem_dlookup he)
  have hlength := (subperm_of_subset nodup_sentEntries hsub).length_le
  simp only [length_map, resize, length_append, length_take,
    length_replicate] at hlength
  omega

/-- A DSN with fewer nodes adds one without a position. -/
theorem none_mem_sentEntries (h : report.keys.length < kFindQuerySomeScopeThreshold) :
    NodeInfo.none ∈ (sentEntries lib .kSome report).map (·.1) := by
  rw [sentEntries, ((lib.iterate_perm _).map _).mem_iff]
  change NodeInfo.none ∈ filterAggregationResultsAfterInquiries lib report .kSome
  rw [← AList.lookup_isSome, filterAggregationResultsAfterInquiries, AList.lookup_to_alist,
    dlookup_isSome]
  have hpad : (⟨.none, []⟩ : Σ _ : NodeInfo, Attributes) ∈
      resize kFindQuerySomeScopeThreshold ⟨.none, []⟩
        (lib.iterate (filterDuplicateAttributes lib report)) := by
    rw [resize, mem_append, length_iterate_filterDuplicateAttributes, mem_replicate]
    exact .inr ⟨by omega, rfl⟩
  exact mem_map_of_mem hpad

end Filters

/-! ### The run of a query -/

namespace FindProcedures

variable {lib : StandardLibrary} {refEventId : ℕ} {query : FindQuery}
  {results : NodesWithAttributes} {p : FindProcedures}

/-- The query is open and these results have come in so far. -/
structure Waiting (refEventId : ℕ) (query : FindQuery) (results : NodesWithAttributes)
    (p : FindProcedures) : Prop where
  query_eq : p.findQueries refEventId = some query
  results_eq : p.findQueryPreliminaryResults refEventId = some results
  promise_eq : p.findResultPromises refEventId = some none
  timestamp : (p.dsnAggregationStartTimestamps refEventId).isSome = true

/-- No procedure uses the event yet. -/
structure Fresh (refEventId : ℕ) (p : FindProcedures) : Prop where
  query_eq : p.findQueries refEventId = none
  results_eq : p.findQueryPreliminaryResults refEventId = none
  promise_eq : p.findResultPromises refEventId = none
  timestamp_eq : p.dsnAggregationStartTimestamps refEventId = none

/-- The maps after the start of a query. -/
def started (refEventId : ℕ) (query : FindQuery) (timestampNow : ℕ) (p : FindProcedures) :
    FindProcedures where
  findQueries := Function.update p.findQueries refEventId (some query)
  findQueryPreliminaryResults := Function.update p.findQueryPreliminaryResults refEventId (some ∅)
  dsnAggregationStartTimestamps :=
    Function.update p.dsnAggregationStartTimestamps refEventId (some timestampNow)
  findResultPromises := Function.update p.findResultPromises refEventId (some none)

theorem startFind_eq (h : p.Fresh refEventId) (query : FindQuery) (timestampNow : ℕ) :
    startFind refEventId query timestampNow p =
      (p.started refEventId query timestampNow, .ok ()) := by
  let p₁ := { p with findQueries := Function.update p.findQueries refEventId (some query) }
  let p₂ := { p₁ with
    findQueryPreliminaryResults :=
      Function.update p.findQueryPreliminaryResults refEventId (some ∅) }
  let p₃ := { p₂ with
    findResultPromises := Function.update p.findResultPromises refEventId (some none) }
  have h₁ : onQueries (EventMap.save refEventId query) p = (p₁, .ok ()) :=
    onQueries_run (EventMap.save_run h.query_eq query)
  have h₂ : onResults (EventMap.save refEventId ∅) p₁ = (p₂, .ok ()) :=
    onResults_run (EventMap.save_run h.results_eq ∅)
  have h₃ : onPromises (EventMap.save refEventId none) p₂ = (p₃, .ok ()) :=
    onPromises_run (EventMap.save_run h.promise_eq none)
  have h₄ : onTimestamps (EventMap.save refEventId timestampNow) p₃ =
      (p.started refEventId query timestampNow, .ok ()) :=
    onTimestamps_run (EventMap.save_run h.timestamp_eq timestampNow)
  rw [startFind, bind_run_ok h₁, bind_run_ok h₂, bind_run_ok h₃, h₄]

theorem waiting_started (query : FindQuery) (timestampNow : ℕ) (p : FindProcedures) :
    (p.started refEventId query timestampNow).Waiting refEventId query ∅ := by
  constructor <;> simp [started]

theorem add_run (h : p.Waiting refEventId query results) (e : Σ _ : NodeInfo, Attributes) :
    ∃ p', onResults (addFindQueryPreliminaryResults refEventId e) p = (p', .ok ()) ∧
      p'.Waiting refEventId query (addResult results e) := by
  refine ⟨{ p with findQueryPreliminaryResults :=
    Function.update p.findQueryPreliminaryResults refEventId (some (addResult results e)) },
    ?_, ⟨h.query_eq, by simp, h.promise_eq, h.timestamp⟩⟩
  simp [onResults, zoom, addFindQueryPreliminaryResults, h.results_eq]

theorem savePreliminary_run (lib : StandardLibrary) (h : p.Waiting refEventId query results)
    (report : NodesWithAttributes) :
    ∃ p', savePreliminaryResultsFromInquiryAggregation lib refEventId report p = (p', .ok ()) ∧
      p'.Waiting refEventId query ((lib.iterate report).foldl addResult results) := by
  have hloop : ∀ entries : List (Σ _ : NodeInfo, Attributes), ∀ {results p},
      p.Waiting refEventId query results →
      ∃ p', forEach entries
          (fun e => onResults (addFindQueryPreliminaryResults refEventId e)) p = (p', .ok ()) ∧
        p'.Waiting refEventId query (entries.foldl addResult results) := by
    intro entries
    induction entries with
    | nil => exact fun h => ⟨_, rfl, h⟩
    | cons e entries ih =>
      intro results p h
      obtain ⟨p₁, hrun, h₁⟩ := add_run h e
      obtain ⟨p₂, hrun₂, h₂⟩ := ih h₁
      exact ⟨p₂, by rw [forEach_cons, bind_run_ok hrun, hrun₂], h₂⟩
  obtain ⟨p', hrun, h'⟩ := hloop (lib.iterate report) h
  exact ⟨p', catchAll_run_ok hrun, h'⟩

/-- All that the DSNs have sent is in the preliminary results. -/
theorem saveAll_run (lib : StandardLibrary) (h : p.Waiting refEventId query results)
    (reports : List NodesWithAttributes) :
    ∃ p', forEach reports (fun report =>
        savePreliminaryResultsFromInquiryAggregation lib refEventId
          (filterAggregationResultsAfterInquiries lib report query.scope)) p = (p', .ok ()) ∧
      p'.Waiting refEventId query
        ((reports.flatMap (sentEntries lib query.scope)).foldl addResult results) := by
  induction reports generalizing p results with
  | nil => exact ⟨p, rfl, h⟩
  | cons report reports ih =>
    obtain ⟨p₁, hrun, h₁⟩ := savePreliminary_run lib h
      (filterAggregationResultsAfterInquiries lib report query.scope)
    obtain ⟨p₂, hrun₂, h₂⟩ := ih h₁
    refine ⟨p₂, by rw [forEach_cons, bind_run_ok hrun, hrun₂], ?_⟩
    rwa [flatMap_cons, foldl_append]

/-- The maps after the end of a query: the promise is set, the rest is
removed. -/
def concluded (lib : StandardLibrary) (refEventId : ℕ) (results : NodesWithAttributes)
    (p : FindProcedures) : FindProcedures where
  findQueries := Function.update p.findQueries refEventId none
  findQueryPreliminaryResults := Function.update p.findQueryPreliminaryResults refEventId none
  dsnAggregationStartTimestamps := Function.update p.dsnAggregationStartTimestamps refEventId none
  findResultPromises := Function.update p.findResultPromises refEventId
    (some (some (resultEntries lib (filterAggregationResultsAfterDSNs lib results))))

theorem conclude_eq (lib : StandardLibrary) (h : p.Waiting refEventId query results) :
    concludeAggregationOfDSNs lib refEventId p =
      (p.concluded lib refEventId results, .ok ()) := by
  let p₁ := { p with
    findResultPromises := Function.update p.findResultPromises refEventId
      (some (some (resultEntries lib (filterAggregationResultsAfterDSNs lib results)))) }
  let p₂ := { p₁ with findQueries := Function.update p.findQueries refEventId none }
  let p₃ := { p₂ with
    findQueryPreliminaryResults :=
      Function.update p.findQueryPreliminaryResults refEventId none }
  have h₁ : notifyAboutFindQueryResults lib refEventId
      (filterAggregationResultsAfterDSNs lib results) p = (p₁, .ok ()) := by
    rw [notifyAboutFindQueryResults,
      bind_run_ok (onPromises_run (EventMap.load_run h.promise_eq))]
    rfl
  have h₂ : onQueries (EventMap.remove refEventId) p₁ = (p₂, .ok ()) :=
    onQueries_run (EventMap.remove_run (by simp [p₁, h.query_eq]))
  have h₃ : onResults (EventMap.remove refEventId) p₂ = (p₃, .ok ()) :=
    onResults_run (EventMap.remove_run (by simp [p₁, p₂, h.results_eq]))
  have h₄ : onTimestamps (EventMap.remove refEventId) p₃ =
      (p.concluded lib refEventId results, .ok ()) :=
    onTimestamps_run (EventMap.remove_run h.timestamp)
  rw [concludeAggregationOfDSNs,
    bind_run_ok (onQueries_run (EventMap.load_run h.query_eq)),
    bind_run_ok (onResults_run (EventMap.load_run h.results_eq)), bind_run_ok h₁,
    bind_run_ok h₂, bind_run_ok h₃, h₄]

/-- The results the promise gets, before they are put into entries. -/
def finalResults (lib : StandardLibrary) (scope : FindQueryScope)
    (reports : List NodesWithAttributes) : NodesWithAttributes :=
  filterAggregationResultsAfterDSNs lib
    ((reports.flatMap (sentEntries lib scope)).foldl addResult ∅)

theorem findRun_run (lib : StandardLibrary) (h : p.Fresh refEventId) (query : FindQuery)
    (timestampNow : ℕ) (reports : List NodesWithAttributes) :
    ∃ p', findRun lib refEventId query timestampNow reports p = (p', .ok ()) ∧
      p'.findResultPromises refEventId =
        some (some (resultEntries lib (finalResults lib query.scope reports))) := by
  obtain ⟨p₂, hsave, h₂⟩ := saveAll_run lib (waiting_started query timestampNow p) reports
  refine ⟨p₂.concluded lib refEventId _, ?_, Function.update_self _ _ _⟩
  rw [findRun, bind_run_ok (startFind_eq h query timestampNow), bind_run_ok hsave,
    conclude_eq lib h₂]

/-! ### Where the results come from -/

/-- All attributes that the entries have for a node. -/
def gather (entries : List (Σ _ : NodeInfo, Attributes)) (node : NodeInfo) : Attributes :=
  (entries.filter (·.1 = node)).flatMap (·.2)

theorem mem_gather {entries : List (Σ _ : NodeInfo, Attributes)} {node : NodeInfo}
    {a : Text × NodeData.Value} :
    a ∈ gather entries node ↔ ∃ e ∈ entries, e.1 = node ∧ a ∈ e.2 := by
  simp only [gather, mem_flatMap, mem_filter, decide_eq_true_eq]
  constructor
  · rintro ⟨e, ⟨he, hnode⟩, ha⟩
    exact ⟨e, he, hnode, ha⟩
  · rintro ⟨e, he, hnode, ha⟩
    exact ⟨e, ⟨he, hnode⟩, ha⟩

theorem lookup_addResult (results : NodesWithAttributes) (e : Σ _ : NodeInfo, Attributes)
    (node : NodeInfo) :
    (addResult results e).lookup node =
      if node = e.1 then some ((results.lookup node).getD [] ++ e.2)
      else results.lookup node := by
  rw [addResult]
  by_cases h : node = e.1
  · subst h
    rw [if_pos rfl]
    split
    next hlookup => rw [AList.lookup_insert, hlookup, Option.getD_none, nil_append]
    next attributes hlookup => rw [AList.lookup_insert, hlookup, Option.getD_some]
  · rw [if_neg h]
    split
    · exact AList.lookup_insert_ne h
    · exact AList.lookup_insert_ne h

theorem lookup_foldl_addResult (entries : List (Σ _ : NodeInfo, Attributes))
    (results : NodesWithAttributes) (node : NodeInfo) :
    (entries.foldl addResult results).lookup node =
      if node ∈ entries.map (·.1) then
        some ((results.lookup node).getD [] ++ gather entries node)
      else results.lookup node := by
  induction entries generalizing results with
  | nil => simp
  | cons e entries ih =>
    rw [foldl_cons, ih, lookup_addResult]
    by_cases hnode : node = e.1
    · subst hnode
      by_cases hmem : e.1 ∈ entries.map (·.1)
      · simp [hmem, gather]
      · have hrest : gather entries e.1 = [] := by
          rw [gather, flatMap_eq_nil_iff]
          intro e' he'
          obtain ⟨he', heq⟩ := mem_filter.mp he'
          exact absurd (mem_map_of_mem he') (of_decide_eq_true heq ▸ hmem)
        have hcons : gather (e :: entries) e.1 = e.2 := by
          have happ : gather (e :: entries) e.1 = e.2 ++ gather entries e.1 := by
            simp [gather]
          rw [happ, hrest, append_nil]
        simp [hmem, hcons]
    · have hcons : gather (e :: entries) node = gather entries node := by
        simp [gather, Ne.symm hnode]
      by_cases hmem : node ∈ entries.map (·.1)
      · simp [hmem, hnode, hcons]
      · simp [hmem, hnode]

variable {scope : FindQueryScope} {reports : List NodesWithAttributes} {node : NodeInfo}

/-- The entries of a result are those of a node that was reported: each of its
attributes was reported for this node, and no key of one of its reports is
missing. -/
structure StemsFrom (reports : List NodesWithAttributes) (node : NodeInfo)
    (entries : List Entry) : Prop where
  nodup : (entries.map (·.key)).Nodup
  own : ∀ e ∈ entries, ∃ report ∈ reports, ∃ attributes,
    report.lookup node = some attributes ∧ (e.key, e.value) ∈ attributes
  reported : ∃ report ∈ reports, ∃ attributes, report.lookup node = some attributes ∧
    ∀ a ∈ attributes, ∃ e ∈ entries, e.key = a.1

/-- Every list of entries stems from another reported node.  For `kAll` these
are all of them, for `kSome` a few of every report. -/
def RealMatches (scope : FindQueryScope) (reports : List NodesWithAttributes)
    (result : FindResult) : Prop :=
  ∃ nodes : List NodeInfo, nodes.Nodup ∧ List.Forall₂ (StemsFrom reports) nodes result ∧
    (scope = .kAll → ∀ node, node ∈ nodes ↔ ∃ report ∈ reports, node ∈ report) ∧
    (scope = .kSome → ∃ contributions : List (List NodeInfo),
      List.Forall₂ (fun report contribution =>
        contribution.Nodup ∧ (∀ node ∈ contribution, node ∈ report) ∧
          contribution.length ≤ kFindQuerySomeScopeThreshold ∧
          (report.keys.length < kFindQuerySomeScopeThreshold →
            ∀ node ∈ report, node ∈ contribution)) reports contributions ∧
      ∀ node, node ∈ nodes ↔ ∃ contribution ∈ contributions, node ∈ contribution)

variable {attributes : Attributes}

theorem lookup_finalResults (h : (finalResults lib scope reports).lookup node = some attributes) :
    node ∈ (reports.flatMap (sentEntries lib scope)).map (·.1) ∧
      OneForEachKey (gather (reports.flatMap (sentEntries lib scope)) node) attributes := by
  obtain ⟨gathered, hlookup, hone⟩ := lookup_filterDuplicateAttributes h
  rw [lookup_foldl_addResult] at hlookup
  split_ifs at hlookup with hmem
  · rw [AList.lookup_empty, Option.getD_none, nil_append, Option.some.injEq] at hlookup
    subst hlookup
    exact ⟨hmem, hone⟩
  · simp at hlookup

theorem mem_finalResults :
    node ∈ finalResults lib scope reports ↔
      ∃ report ∈ reports, node ∈ (sentEntries lib scope report).map (·.1) := by
  rw [finalResults, filterAggregationResultsAfterDSNs, mem_filterDuplicateAttributes,
    ← AList.lookup_isSome, lookup_foldl_addResult, map_flatMap]
  simp

section

variable (h : scope = .kAll ∨ ∀ report ∈ reports, kFindQuerySomeScopeThreshold ≤ report.keys.length)
include h

/-- If no report is padded, the attributes of a node in the results stem from
its reports. -/
theorem stemsFrom_finalResults
    (hlookup : (finalResults lib scope reports).lookup node = some attributes) :
    StemsFrom reports node (attributes.map fun a => ⟨a.1, a.2, .kValueDynamic⟩) := by
  -- an entry that was sent is not the padding
  have hreal : ∀ report ∈ reports, ∀ e ∈ sentEntries lib scope report,
      ∃ own, report.lookup e.1 = some own ∧ OneForEachKey own e.2 := by
    intro report hreport e he
    refine (mem_sentEntries he).resolve_right ?_
    rintro ⟨rfl, hlt, -⟩
    rcases h with h | h
    · exact absurd h (by simp)
    · exact absurd (h report hreport) (by omega)
  obtain ⟨hmem, hone⟩ := lookup_finalResults hlookup
  refine ⟨?_, fun entry hentry => ?_, ?_⟩
  · rw [map_map]
    exact hone.nodup
  · obtain ⟨a, ha, rfl⟩ := mem_map.mp hentry
    obtain ⟨e, he, rfl, hae⟩ := mem_gather.mp (hone.subset a ha)
    obtain ⟨report, hreport, he⟩ := mem_flatMap.mp he
    obtain ⟨own, hown, hfiltered⟩ := hreal report hreport e he
    exact ⟨report, hreport, own, hown, hfiltered.subset a hae⟩
  · obtain ⟨e, he, rfl⟩ := mem_map.mp hmem
    obtain ⟨report, hreport, hsent⟩ := mem_flatMap.mp he
    obtain ⟨own, hown, hfiltered⟩ := hreal report hreport e hsent
    refine ⟨report, hreport, own, hown, fun a ha => ?_⟩
    obtain ⟨b, hb, hba⟩ := hfiltered.covered a ha
    obtain ⟨c, hc, hcb⟩ := hone.covered b (mem_gather.mpr ⟨e, he, rfl, hb⟩)
    exact ⟨_, mem_map_of_mem hc, hcb.trans hba⟩

theorem realMatches_finalResults :
    RealMatches scope reports (resultEntries lib (finalResults lib scope reports)) := by
  have hmem : ∀ node, node ∈ (lib.iterate (finalResults lib scope reports)).map (·.1) ↔
      ∃ report ∈ reports, node ∈ (sentEntries lib scope report).map (·.1) := by
    intro node
    rw [((lib.iterate_perm _).map _).mem_iff, ← mem_finalResults]
    rfl
  refine ⟨(lib.iterate (finalResults lib scope reports)).map (·.1),
    StandardLibrary.nodup_iterate, ?_, ?_, ?_⟩
  · rw [resultEntries, forall₂_map_left_iff, forall₂_map_right_iff, forall₂_same]
    exact fun e he => stemsFrom_finalResults h (StandardLibrary.mem_iterate.mp he)
  · rintro rfl node
    rw [hmem]
    simp only [mem_sentEntries_kAll]
  · rintro rfl
    refine ⟨reports.map fun report => (sentEntries lib .kSome report).map (·.1), ?_, fun node => ?_⟩
    · rw [forall₂_map_right_iff, forall₂_same]
      intro report hreport
      have hlong := h.resolve_left (by simp) report hreport
      refine ⟨nodup_sentEntries, fun node hnode => ?_, ?_, fun hlt => absurd hlong (by omega)⟩
      · obtain ⟨e, he, rfl⟩ := mem_map.mp hnode
        rcases mem_sentEntries he with ⟨own, hown, -⟩ | ⟨-, hlt, -⟩
        · exact AList.lookup_isSome.mp (by rw [hown]; rfl)
        · exact absurd hlong (by omega)
      · rw [length_map]
        exact length_sentEntries_kSome_le
    · rw [hmem]
      simp

end

/-- A report with fewer nodes leaves an empty list of entries. -/
theorem nil_mem_resultEntries (lib : StandardLibrary)
    (hnone : ∀ report ∈ reports, NodeInfo.none ∉ report)
    {report : NodesWithAttributes} (hreport : report ∈ reports)
    (hshort : report.keys.length < kFindQuerySomeScopeThreshold) :
    [] ∈ resultEntries lib (finalResults lib .kSome reports) := by
  have hmem : NodeInfo.none ∈ finalResults lib .kSome reports :=
    mem_finalResults.mpr ⟨report, hreport, none_mem_sentEntries hshort⟩
  obtain ⟨attributes, hlookup⟩ := Option.isSome_iff_exists.mp (AList.lookup_isSome.mpr hmem)
  obtain ⟨-, hone⟩ := lookup_finalResults hlookup
  have hempty : attributes = [] := by
    rw [eq_nil_iff_forall_not_mem]
    intro a ha
    obtain ⟨e, he, hnode, hae⟩ := mem_gather.mp (hone.subset a ha)
    obtain ⟨report', hreport', he⟩ := mem_flatMap.mp he
    rcases mem_sentEntries he with ⟨own, hown, -⟩ | ⟨-, -, rfl⟩
    · refine hnone report' hreport' (AList.lookup_isSome.mp ?_)
      rw [← hnode, hown]
      rfl
    · simp at hae
  subst hempty
  have hiterate : (⟨.none, []⟩ : Σ _ : NodeInfo, Attributes) ∈
      lib.iterate (finalResults lib .kSome reports) := StandardLibrary.mem_iterate.mpr hlookup
  exact mem_map_of_mem hiterate

theorem exists_stemsFrom {nodes : List NodeInfo} {result : FindResult} {entries : List Entry}
    (h : Forall₂ (StemsFrom reports) nodes result) (hmem : entries ∈ result) :
    ∃ node, StemsFrom reports node entries := by
  induction h with
  | nil => simp at hmem
  | cons hstems _ ih =>
    rcases mem_cons.mp hmem with rfl | hmem
    · exact ⟨_, hstems⟩
    · exact ih hmem

/-- The promise of a query gets real matches only, for any reports of the
DSNs, exactly when the scope is `kAll` or every DSN has as many nodes as it
may send. -/
theorem find_results_real_iff (lib : StandardLibrary) (p : FindProcedures) (refEventId : ℕ)
    (hfresh : p.Fresh refEventId) (query : FindQuery) (timestampNow : ℕ)
    (dsns : List (KnownNodes × List NodeInfo))
    (hpeers : ∀ dsn ∈ dsns, ∀ node ∈ dsn.2, node.isValidPeer = true) :
    ∃ p' result, findRun lib refEventId query timestampNow
        (dsns.map fun dsn => dsn.1.getRelevantAttributesAndValues dsn.2 query) p = (p', .ok ()) ∧
      p'.findResultPromises refEventId = some (some result) ∧
      (RealMatches query.scope
          (dsns.map fun dsn => dsn.1.getRelevantAttributesAndValues dsn.2 query) result ↔
        query.scope = .kAll ∨ ∀ dsn ∈ dsns, kFindQuerySomeScopeThreshold ≤
          (dsn.1.getRelevantAttributesAndValues dsn.2 query).keys.length) := by
  obtain ⟨p', hrun, hpromise⟩ := findRun_run lib hfresh query timestampNow
    (dsns.map fun dsn => dsn.1.getRelevantAttributesAndValues dsn.2 query)
  refine ⟨p', _, hrun, hpromise, ?_, fun h => ?_⟩
  swap
  · exact realMatches_finalResults (by rwa [forall_mem_map])
  rintro ⟨nodes, -, hstems, -, -⟩
  by_contra hnot
  obtain ⟨hscope, hshort⟩ := not_or.mp hnot
  simp only [not_forall, not_le] at hshort
  obtain ⟨dsn, hdsn, hshort⟩ := hshort
  have hsome : query.scope = .kSome := by
    cases hquery : query.scope with
    | kAll => exact absurd hquery hscope
    | kSome => rfl
  have hnone : ∀ report ∈ dsns.map fun dsn => dsn.1.getRelevantAttributesAndValues dsn.2 query,
      NodeInfo.none ∉ report := by
    intro report hreport hmem
    obtain ⟨dsn', hdsn', rfl⟩ := mem_map.mp hreport
    obtain ⟨own, hown⟩ := Option.isSome_iff_exists.mp (AList.lookup_isSome.mpr hmem)
    have hnode := (KnownNodes.of_lookup_getRelevantAttributesAndValues hown).1
    exact absurd (hpeers dsn' hdsn' _ hnode) (by decide)
  have hnil := nil_mem_resultEntries lib hnone (mem_map_of_mem hdsn) hshort
  rw [hsome] at hstems
  obtain ⟨node, hnode⟩ := exists_stemsFrom hstems hnil
  obtain ⟨report, hreport, attributes, hattributes, hcovered⟩ := hnode.reported
  obtain ⟨dsn', -, rfl⟩ := mem_map.mp hreport
  have hne := (KnownNodes.of_lookup_getRelevantAttributesAndValues hattributes).2
  obtain ⟨a, ha⟩ := exists_mem_of_ne_nil _ hne
  obtain ⟨e, he, -⟩ := hcovered a ha
  simp at he

/-- A standard library with an insertion sort. -/
def insertionSortLibrary : StandardLibrary where
  iterate := fun m => m.entries
  iterate_perm := fun _ => .refl _
  sort := fun l => l.insertionSort fun a b => a.1 ≤ b.1
  sort_perm := fun l => List.perm_insertionSort _ l
  sorted := fun l =>
    haveI : Std.Total fun a b : Text × NodeData.Value => a.1 ≤ b.1 := ⟨fun a b => le_total a.1 b.1⟩
    haveI : IsTrans (Text × NodeData.Value) fun a b => a.1 ≤ b.1 :=
      ⟨fun _ _ _ hab hbc => le_trans hab hbc⟩
    List.pairwise_insertionSort _ l

/-- No query yet. -/
def empty : FindProcedures := ⟨fun _ => none, fun _ => none, fun _ => none, fun _ => none⟩

/-- One DSN has two nodes. -/
theorem find_results_real_iff_twoNodes :
    ∃ p' result, findRun insertionSortLibrary 0
        { expr := .or (.presence ['x']) (.presence ['y']), scope := .kSome } 0
        [KnownNodes.twoNodes.getRelevantAttributesAndValues
          [⟨some ⟨1, 0⟩, some 1⟩, ⟨some ⟨1, 1⟩, some 2⟩]
          { expr := .or (.presence ['x']) (.presence ['y']), scope := .kSome }] empty =
            (p', .ok ()) ∧
      p'.findResultPromises 0 = some (some result) ∧
      RealMatches .kSome
        [KnownNodes.twoNodes.getRelevantAttributesAndValues
          [⟨some ⟨1, 0⟩, some 1⟩, ⟨some ⟨1, 1⟩, some 2⟩]
          { expr := .or (.presence ['x']) (.presence ['y']), scope := .kSome }] result := by
  obtain ⟨p', result, hrun, hpromise, hiff⟩ := find_results_real_iff insertionSortLibrary empty 0
    ⟨rfl, rfl, rfl, rfl⟩ { expr := .or (.presence ['x']) (.presence ['y']), scope := .kSome } 0
    [(KnownNodes.twoNodes, [⟨some ⟨1, 0⟩, some 1⟩, ⟨some ⟨1, 1⟩, some 2⟩])] (by decide)
  exact ⟨p', result, hrun, hpromise, hiff.mpr (.inr (by decide +kernel))⟩

/-- One DSN has one node with an attribute. -/
theorem find_results_padded :
    (findRun insertionSortLibrary 0 { expr := .presence ['x'], scope := .kSome } 0
        [KnownNodes.twoNodes.getRelevantAttributesAndValues [⟨some ⟨1, 0⟩, some 1⟩]
          { expr := .presence ['x'], scope := .kSome }] empty).1.findResultPromises 0 =
      some (some [[], [⟨['x'], .int 1, .kValueDynamic⟩]]) := by
  decide +kernel

end FindProcedures

end Sola.Minhton
