import Mathlib.Algebra.Order.WithTop.Untop0
import Sola.Lib.UniqueBy
import Sola.Minhton.DsnHandler
import Sola.Minhton.FindQuery

/-!
What a DSN computes from its cover data
(`minhton/src/algorithms/esearch/dsn_handler.cpp`).

Queries are evaluated on the data of one node after the other, and
subscriptions are given up where a key is updated more often than it is asked
for.  Maps are iterated in some order that the caller cannot choose: cover data
is a list of nodes with different positions.
-/

namespace Sola.Minhton

open Sola.Lib Sola.Lib.MaryTree List

/-- The stored data of a node together with the keys we have subscribed. -/
structure SubscribedData extends DistributedData where
  subscriptionOrderKeys : List Text

namespace SubscribedData

def isKeySubscribed (data : SubscribedData) (key : Text) : Bool :=
  key ∈ data.subscriptionOrderKeys

def getUpdateTimestamps (data : SubscribedData) (key : Text) : List ℕ :=
  (data.updateTimestamps key).getD []

/-- The data as the expressions of a query see it. -/
def toNodeData (data : SubscribedData) : NodeData := ⟨data.data, false, data.isKeySubscribed⟩

end SubscribedData

/-- The map `cover_data_` in the order of an iteration. -/
structure CoverData where
  entries : List (Pos × SubscribedData)
  nodup : (entries.map Prod.fst).Nodup

/-- The node of an entry, with its position and its address. -/
def CoverData.nodeInfo (entry : Pos × SubscribedData) : NodeInfo := ⟨some entry.1, entry.2.physical⟩

theorem CoverData.eq_of_nodeInfo_eq {cover : CoverData} {entry entry' : Pos × SubscribedData}
    (h : entry ∈ cover.entries) (h' : entry' ∈ cover.entries)
    (heq : nodeInfo entry = nodeInfo entry') : entry = entry' :=
  inj_on_of_nodup_map cover.nodup h h' (Option.some.inj (congrArg NodeInfo.logical heq))

/-! ### Queries -/

namespace CoverData

/-- One round of `getUndecidedNodesAndMissingKeys`. -/
def undecidedNode (query : FindQuery) (allInformationPresent : Bool) (timestampNow : ℕ)
    (entry : Pos × SubscribedData) : Except String (Option (NodeInfo × List Text)) := do
  let val ← query.evaluate entry.2.toNodeData allInformationPresent timestampNow
  if val = .kUndecided then
    let missingKeys ← query.evaluateMissingAttributes entry.2.toNodeData timestampNow
    return some (nodeInfo entry, missingKeys)
  else return none

def getUndecidedNodesAndMissingKeys (cover : CoverData) (query : FindQuery)
    (allInformationPresent : Bool) (timestampNow : ℕ) :
    Except String (List (NodeInfo × List Text)) :=
  cover.entries.filterMapM (undecidedNode query allInformationPresent timestampNow)

/-- One round of `getTrueNodes`. -/
def trueNode (query : FindQuery) (timestampNow : ℕ) (entry : Pos × SubscribedData) :
    Except String (Option NodeInfo) := do
  let val ← query.evaluate entry.2.toNodeData true timestampNow
  if val = .kTrue then return some (nodeInfo entry) else return none

def getTrueNodes (cover : CoverData) (query : FindQuery) (timestampNow : ℕ) :
    Except String (List NodeInfo) :=
  cover.entries.filterMapM (trueNode query timestampNow)

end CoverData

/-- Every key that is compared with a number and is not inquired has a number
as its value. -/
def BooleanExpression.Comparable (expr : BooleanExpression) (data : NodeData)
    (info : EvaluationInformation) : Prop :=
  ∀ key, expr.comparesNumber key = true → data.Inquired info key = false →
    ∀ v, data.data key = some v → v.1.isNumber = true

namespace BooleanExpression

variable {data : NodeData} {info : EvaluationInformation} {key : Text}

theorem evaluateAtomic_ok {existing : Except String FuzzyValue} (hlocal : data.isLocal = false)
    (hne : existing ≠ .ok .kUndecided) (hok : ∃ value, existing = .ok value) :
    ∃ value, evaluateAtomic key existing data info = .ok value := by
  rw [evaluateAtomic_eq hlocal hne]
  split_ifs
  · exact ⟨_, rfl⟩
  · exact ⟨_, rfl⟩
  · exact hok
  · exact ⟨_, rfl⟩

variable {comparisonType : ComparisonTypes} {comparisonValue : ℚ}

theorem isNumber_of_numericComparisonExisting_ok {value : FuzzyValue}
    (h : numericComparisonExisting key comparisonType comparisonValue data = .ok value)
    {v : NodeData.Value × ℕ × NodeData.ValueType} (hv : data.data key = some v) :
    v.1.isNumber = true := by
  obtain ⟨v, entry⟩ := v
  rw [numericComparisonExisting, hv] at h
  cases v with
  | int n => rfl
  | float q => rfl
  | bool b => cases h
  | string s => cases h

theorem numericComparison_ok_iff (hlocal : data.isLocal = false) :
    (∃ value, (numericComparison key comparisonType comparisonValue).evaluate data info =
        .ok value) ↔
      (numericComparison key comparisonType comparisonValue).Comparable data info := by
  constructor
  · rintro ⟨value, h⟩ key' hc hin v hv
    rw [comparesNumber, decide_eq_true_eq] at hc
    subst hc
    have hkey : data.hasKey key = true := by
      rw [NodeData.hasKey, hv]
      rfl
    rw [evaluate, evaluateAtomic_eq hlocal numericComparisonExisting_ne, hin,
      if_neg Bool.false_ne_true, if_pos hkey] at h
    exact isNumber_of_numericComparisonExisting_ok h hv
  · intro h
    cases hin : data.Inquired info key with
    | true =>
      rw [evaluate, evaluateAtomic_eq hlocal numericComparisonExisting_ne, hin]
      exact ⟨_, rfl⟩
    | false =>
      exact evaluateAtomic_ok hlocal numericComparisonExisting_ne
        (numericComparisonExisting_ok (h key (by simp [comparesNumber]) hin))

theorem exists_both_iff {α β : Type} {P Q : α → Prop} {f : α → α → β} :
    (∃ c a b, P a ∧ Q b ∧ f a b = c) ↔ (∃ a, P a) ∧ ∃ b, Q b := by
  constructor
  · rintro ⟨_, a, b, ha, hb, -⟩
    exact ⟨⟨a, ha⟩, b, hb⟩
  · rintro ⟨⟨a, ha⟩, b, hb⟩
    exact ⟨_, a, b, ha, hb, rfl⟩

/-- By induction on the expression: nothing but a comparison of a value that
is no number throws. -/
theorem evaluate_ok_iff (hlocal : data.isLocal = false) (expr : BooleanExpression) :
    (∃ value, expr.evaluate data info = .ok value) ↔ expr.Comparable data info := by
  induction expr with
  | or expr1 expr2 ih1 ih2 =>
    simp only [evaluate_or]
    rw [exists_both_iff, ih1, ih2]
    simp only [Comparable, comparesNumber, Bool.or_eq_true, or_imp, forall_and]
  | and expr1 expr2 ih1 ih2 =>
    simp only [evaluate_and]
    rw [exists_both_iff, ih1, ih2]
    simp only [Comparable, comparesNumber, Bool.or_eq_true, or_imp, forall_and]
  | not expr ih =>
    simp only [evaluate_not]
    rw [exists_comm]
    simp only [exists_and_left, exists_eq', and_true]
    exact ih
  | presence key =>
    exact iff_of_true (evaluateAtomic_ok hlocal presenceExisting_ne presenceExisting_ok)
      fun key' hc => by cases hc
  | stringEquality key text =>
    exact iff_of_true
      (evaluateAtomic_ok hlocal stringEqualityExisting_ne stringEqualityExisting_ok)
      fun key' hc => by cases hc
  | numericComparison key comparisonType comparisonValue =>
    exact numericComparison_ok_iff hlocal
  | empty => exact iff_of_true ⟨_, rfl⟩ fun key' hc => by cases hc

end BooleanExpression

namespace FindQuery

variable {query : FindQuery} {data : NodeData} {allInformationPresent : Bool} {timestampNow : ℕ}

theorem evaluate_eq_ok {value : FuzzyValue} :
    query.evaluate data allInformationPresent timestampNow = .ok value ↔
      ∃ val, query.expr.evaluate data
          (query.createEvaluationInformation allInformationPresent timestampNow) = .ok val ∧
        (if allInformationPresent && val = .kUndecided then .kFalse else val) = value := by
  rw [evaluate, bind_eq_ok]
  refine exists_congr fun val => and_congr_right fun _ => ?_
  split_ifs
  · exact iff_of_eq (Except.ok.injEq _ _)
  · exact iff_of_eq (Except.ok.injEq _ _)

theorem evaluate_ok_iff (hlocal : data.isLocal = false) :
    (∃ value, query.evaluate data allInformationPresent timestampNow = .ok value) ↔
      query.expr.Comparable data
        (query.createEvaluationInformation allInformationPresent timestampNow) := by
  rw [← BooleanExpression.evaluate_ok_iff hlocal]
  simp only [evaluate_eq_ok]
  exact ⟨fun ⟨_, val, h, _⟩ => ⟨val, h⟩, fun ⟨val, h⟩ => ⟨_, val, h, rfl⟩⟩

theorem evaluateMissingAttributes_ok (hlocal : data.isLocal = false)
    (h : query.expr.Comparable data (query.createEvaluationInformation false timestampNow)) :
    ∃ keys, query.evaluateMissingAttributes data timestampNow = .ok keys := by
  obtain ⟨value, hvalue⟩ := (BooleanExpression.evaluate_ok_iff hlocal query.expr).mpr h
  obtain ⟨keys, hkeys⟩ := BooleanExpression.exists_missing hlocal rfl hvalue
  simp only [evaluateMissingAttributes, hkeys.eq_ok]
  split_ifs
  · exact ⟨_, rfl⟩
  · exact ⟨_, rfl⟩
  · exact ⟨_, rfl⟩

end FindQuery

namespace CoverData

variable {query : FindQuery} {allInformationPresent : Bool} {timestampNow : ℕ}
  {cover cover' : CoverData} {entry : Pos × SubscribedData}

/-- The query can be evaluated on the data of a node.  Whether all information
is present makes no difference here. -/
def Readable (query : FindQuery) (timestampNow : ℕ) (entry : Pos × SubscribedData) : Prop :=
  query.expr.Comparable entry.2.toNodeData (query.createEvaluationInformation true timestampNow)

theorem undecidedNode_ok_iff :
    (∃ r, undecidedNode query allInformationPresent timestampNow entry = .ok r) ↔
      Readable query timestampNow entry := by
  have hread : query.expr.Comparable entry.2.toNodeData
      (query.createEvaluationInformation allInformationPresent timestampNow) ↔
        Readable query timestampNow entry := Iff.rfl
  rw [← hread, ← FindQuery.evaluate_ok_iff rfl]
  simp only [undecidedNode, bind_eq_ok]
  constructor
  · rintro ⟨r, val, hval, -⟩
    exact ⟨val, hval⟩
  · rintro ⟨val, hval⟩
    by_cases hund : val = .kUndecided
    · have hcomparable := (FindQuery.evaluate_ok_iff rfl).mp ⟨val, hval⟩
      obtain ⟨keys, hkeys⟩ : ∃ keys, query.evaluateMissingAttributes entry.2.toNodeData
          timestampNow = .ok keys := FindQuery.evaluateMissingAttributes_ok rfl hcomparable
      refine ⟨some (nodeInfo entry, keys), val, hval, ?_⟩
      rw [if_pos hund, hkeys]
      rfl
    · exact ⟨none, val, hval, if_neg hund⟩

variable {node : NodeInfo}

theorem nodeInfo_of_undecidedNode {keys : List Text}
    (h : undecidedNode query allInformationPresent timestampNow entry = .ok (some (node, keys))) :
    node = nodeInfo entry := by
  obtain ⟨val, -, h⟩ := bind_eq_ok.mp h
  split_ifs at h
  · obtain ⟨keys', -, h⟩ := bind_eq_ok.mp h
    cases h
    rfl
  · cases h

theorem trueNode_ok_iff :
    (∃ r, trueNode query timestampNow entry = .ok r) ↔ Readable query timestampNow entry := by
  rw [Readable, ← FindQuery.evaluate_ok_iff rfl]
  simp only [trueNode, bind_eq_ok]
  constructor
  · rintro ⟨r, val, hval, -⟩
    exact ⟨val, hval⟩
  · rintro ⟨val, hval⟩
    by_cases htrue : val = .kTrue
    · exact ⟨_, val, hval, if_pos htrue⟩
    · exact ⟨_, val, hval, if_neg htrue⟩

theorem nodeInfo_of_trueNode (h : trueNode query timestampNow entry = .ok (some node)) :
    node = nodeInfo entry := by
  obtain ⟨val, -, h⟩ := bind_eq_ok.mp h
  split_ifs at h
  · cases h
    rfl
  · cases h

theorem getUndecidedNodesAndMissingKeys_ok_iff :
    (∃ undecided, cover.getUndecidedNodesAndMissingKeys query allInformationPresent
        timestampNow = .ok undecided) ↔
      ∀ other ∈ cover.entries, Readable query timestampNow other := by
  refine filterMapM_ok_iff.trans (forall₂_congr fun other _ => ?_)
  exact undecidedNode_ok_iff

theorem getTrueNodes_ok_iff :
    (∃ trueNodes, cover.getTrueNodes query timestampNow = .ok trueNodes) ↔
      ∀ other ∈ cover.entries, Readable query timestampNow other := by
  refine filterMapM_ok_iff.trans (forall₂_congr fun other _ => ?_)
  exact trueNode_ok_iff

/-- A node is reported as undecided for what is stored about it only. -/
theorem mem_undecidedNodes {undecided : List (NodeInfo × List Text)}
    (hentry : entry ∈ cover.entries)
    (h : cover.getUndecidedNodesAndMissingKeys query allInformationPresent timestampNow =
      .ok undecided) (keys : List Text) :
    (nodeInfo entry, keys) ∈ undecided ↔
      undecidedNode query allInformationPresent timestampNow entry =
        .ok (some (nodeInfo entry, keys)) := by
  rw [mem_of_filterMapM_ok h]
  constructor
  · rintro ⟨other, hother, hnode⟩
    obtain rfl := eq_of_nodeInfo_eq hentry hother (nodeInfo_of_undecidedNode hnode)
    exact hnode
  · exact fun hnode => ⟨entry, hentry, hnode⟩

theorem mem_trueNodes {trueNodes : List NodeInfo} (hentry : entry ∈ cover.entries)
    (h : cover.getTrueNodes query timestampNow = .ok trueNodes) :
    nodeInfo entry ∈ trueNodes ↔
      trueNode query timestampNow entry = .ok (some (nodeInfo entry)) := by
  rw [mem_of_filterMapM_ok h]
  constructor
  · rintro ⟨other, hother, hnode⟩
    obtain rfl := eq_of_nodeInfo_eq hentry hother (nodeInfo_of_trueNode hnode)
    exact hnode
  · exact fun hnode => ⟨entry, hentry, hnode⟩

/-- Both functions return on both maps, and they report the node alike. -/
def ReportedAlike (query : FindQuery) (allInformationPresent : Bool) (timestampNow : ℕ)
    (cover cover' : CoverData) (node : NodeInfo) : Prop :=
  ∃ undecided undecided' trueNodes trueNodes',
    cover.getUndecidedNodesAndMissingKeys query allInformationPresent timestampNow =
        .ok undecided ∧
      cover'.getUndecidedNodesAndMissingKeys query allInformationPresent timestampNow =
        .ok undecided' ∧
      cover.getTrueNodes query timestampNow = .ok trueNodes ∧
      cover'.getTrueNodes query timestampNow = .ok trueNodes' ∧
      (∀ keys, (node, keys) ∈ undecided ↔ (node, keys) ∈ undecided') ∧
      (node ∈ trueNodes ↔ node ∈ trueNodes')

/-- A node is reported alike whatever is stored about the others, exactly if
the query can be evaluated on all of them. -/
theorem reportedAlike_iff (query : FindQuery) (allInformationPresent : Bool) (timestampNow : ℕ)
    (cover cover' : CoverData) (entry : Pos × SubscribedData) (hentry : entry ∈ cover.entries)
    (hentry' : entry ∈ cover'.entries) :
    ReportedAlike query allInformationPresent timestampNow cover cover' (nodeInfo entry) ↔
      (∀ other ∈ cover.entries, Readable query timestampNow other) ∧
        ∀ other ∈ cover'.entries, Readable query timestampNow other := by
  constructor
  · rintro ⟨_, _, trueNodes, trueNodes', -, -, htrue, htrue', -⟩
    exact ⟨getTrueNodes_ok_iff.mp ⟨_, htrue⟩, getTrueNodes_ok_iff.mp ⟨_, htrue'⟩⟩
  · rintro ⟨hread, hread'⟩
    obtain ⟨undecided, hundecided⟩ := getUndecidedNodesAndMissingKeys_ok_iff.mpr hread
    obtain ⟨undecided', hundecided'⟩ := getUndecidedNodesAndMissingKeys_ok_iff.mpr hread'
    obtain ⟨trueNodes, htrue⟩ := getTrueNodes_ok_iff.mpr hread
    obtain ⟨trueNodes', htrue'⟩ := getTrueNodes_ok_iff.mpr hread'
    refine ⟨undecided, undecided', trueNodes, trueNodes', hundecided, hundecided', htrue, htrue',
      fun keys => ?_, ?_⟩
    · rw [mem_undecidedNodes hentry hundecided, mem_undecidedNodes hentry' hundecided']
    · rw [mem_trueNodes hentry htrue, mem_trueNodes hentry' htrue']

/-- A node with one attribute. -/
def loadEntry (p : Pos) (address : Address) (value : NodeData.Value) : Pos × SubscribedData :=
  (p, ⟨⟨some address, fun key => if key = "load".toList then some (value, 0, .kValueDynamic)
    else none, fun _ => none⟩, []⟩)

/-- Two nodes with one attribute. -/
def loadCover (value : NodeData.Value) : CoverData where
  entries := [loadEntry ⟨2, 1⟩ 11 (.int 10), loadEntry ⟨2, 2⟩ 12 value]
  nodup := by simp [loadEntry]

def loadQuery : FindQuery := { expr := .numericComparison "load".toList .kGreater 5 }

theorem readable_loadCover (n : ℤ) {entry : Pos × SubscribedData}
    (h : entry ∈ (loadCover (.int n)).entries) : Readable loadQuery 0 entry := by
  obtain ⟨p, address, k, rfl⟩ : ∃ p address k, entry = loadEntry p address (.int k) := by
    simp only [loadCover, mem_cons, not_mem_nil, or_false] at h
    rcases h with rfl | rfl
    · exact ⟨_, _, _, rfl⟩
    · exact ⟨_, _, _, rfl⟩
  intro key _ _ v hv
  obtain ⟨-, hv⟩ := Option.ite_none_right_eq_some.mp hv
  cases hv
  rfl

theorem reportedAlike_loadCover :
    ReportedAlike loadQuery false 0 (loadCover (.int 3)) (loadCover (.int 7))
      (nodeInfo (loadEntry ⟨2, 1⟩ 11 (.int 10))) :=
  (reportedAlike_iff loadQuery false 0 (loadCover (.int 3)) (loadCover (.int 7)) _
    mem_cons_self mem_cons_self).mpr
    ⟨fun _ => readable_loadCover 3, fun _ => readable_loadCover 7⟩

/-- The load of the second node is no number: nothing is reported about the
first one. -/
theorem not_reportedAlike_loadCover :
    ¬ ReportedAlike loadQuery false 0 (loadCover (.bool true)) (loadCover (.int 7))
      (nodeInfo (loadEntry ⟨2, 1⟩ 11 (.int 10))) := by
  rintro ⟨undecided, _, _, _, h, -⟩
  have herror : (loadCover (.bool true)).getUndecidedNodesAndMissingKeys loadQuery false 0 =
      .error "Could not compare" := by decide +kernel
  rw [herror] at h
  cases h

/-! ### Unsubscribing -/

/-- Updates or requests per second.  A division by zero gives infinity. -/
def calculateFrequency (timestamps : List ℕ) (timestampNow : ℕ) : WithTop ℚ :=
  let requests : ℕ := timestamps.length % 2 ^ 8
  if requests ≤ 1 then 0
  else
    let period := u64Sub timestampNow (timestamps.headD 0)
    if period = 0 then ⊤ else ((requests * 1000 / period : ℚ) : WithTop ℚ)

/-- The nodes with an address together with each of their subscribed keys. -/
def currentSubTuples : List (Pos × SubscribedData) → List (Pos × SubscribedData × Text)
  | [] => []
  | (peer, data) :: entries =>
    (if data.physical.isSome then data.subscriptionOrderKeys.map fun key => (peer, data, key)
      else []) ++ currentSubTuples entries

abbrev UpdateFrequencies := Text → Option (List (NodeInfo × WithTop ℚ))

/-- Note the update frequency of a key at a node. -/
def enterUpdateFrequency (timestampNow : ℕ) (updateFrequencies : UpdateFrequencies)
    (tuple : Pos × SubscribedData × Text) : UpdateFrequencies :=
  let (peer, data, key) := tuple
  let node := nodeInfo (peer, data)
  let frequency := calculateFrequency (data.getUpdateTimestamps key) timestampNow
  if (updateFrequencies key).isNone then
    -- the map of the key is created by the access
    Function.update updateFrequencies key (some [(node, frequency)])
  else
    -- the map of the key is replaced
    Function.update updateFrequencies key (some [(node, frequency)])

abbrev Unsubscriptions := NodeInfo → Option (List Text)

def addUnsubscription (key : Text) (requestFrequency : WithTop ℚ) (unsub : Unsubscriptions)
    (update : NodeInfo × WithTop ℚ) : Unsubscriptions :=
  let (node, updateFrequency) := update
  if requestFrequency < updateFrequency then
    match unsub node with
    | some keys => Function.update unsub node (some (keys ++ [key]))
    | none => Function.update unsub node (some [key])
  else unsub

/-- One round of the comparison of the frequencies of a key. -/
def unsubscribeKey (requestFrequencies : Text → WithTop ℚ)
    (updateFrequencies : UpdateFrequencies) (unsub : Unsubscriptions) (key : Text) :
    Except String Unsubscriptions :=
  match updateFrequencies key with
  | none => .error "shouldnt happen"
  | some updates => .ok (updates.foldl (addUnsubscription key (requestFrequencies key)) unsub)

/-- The order in which a map with these keys is iterated. -/
structure IterationOrder where
  order : List Text → List Text
  perm : ∀ keys, (order keys).Perm keys

/-- `requestTimestamps` is empty for a key that nobody has asked for. -/
def getNodesAndKeysToUnsubscribe (cover : CoverData) (iteration : IterationOrder)
    (requestTimestamps : Text → List ℕ) (timestampNow : ℕ) : Except String Unsubscriptions :=
  let tuples := currentSubTuples cover.entries
  if tuples.isEmpty then .ok fun _ => none
  else
    let subKeys := FindQuery.sortUnique (tuples.map fun tuple => tuple.2.2)
    let requestFrequencies := fun key => calculateFrequency (requestTimestamps key) timestampNow
    let updateFrequencies := tuples.foldl (enterUpdateFrequency timestampNow) fun _ => none
    (iteration.order subKeys).foldlM (unsubscribeKey requestFrequencies updateFrequencies)
      fun _ => none

/-- The nodes with an address that have subscribed a key. -/
def subscribers (cover : CoverData) (key : Text) : List (Pos × SubscribedData) :=
  cover.entries.filter fun entry => entry.2.physical.isSome && entry.2.isKeySubscribed key

/-- The key is updated more often at a node than it is asked for. -/
def UpdatedTooOften (requestTimestamps : Text → List ℕ) (timestampNow : ℕ) (key : Text)
    (entry : Pos × SubscribedData) : Prop :=
  calculateFrequency (requestTimestamps key) timestampNow <
    calculateFrequency (entry.2.getUpdateTimestamps key) timestampNow

/-- The result lists, for each node, the keys that are subscribed there and
updated too often, each of them once. -/
def UnsubscribesAll (cover : CoverData) (iteration : IterationOrder)
    (requestTimestamps : Text → List ℕ) (timestampNow : ℕ) : Prop :=
  ∃ unsub, cover.getNodesAndKeysToUnsubscribe iteration requestTimestamps timestampNow =
      .ok unsub ∧
    (∀ node keys, unsub node = some keys → keys.Nodup) ∧
    ∀ node key, (∃ keys, unsub node = some keys ∧ key ∈ keys) ↔
      ∃ entry ∈ cover.subscribers key, nodeInfo entry = node ∧
        UpdatedTooOften requestTimestamps timestampNow key entry

/-- The last subscriber of a key is the node, and its key is updated too often. -/
def isLastUpdatedTooOften (cover : CoverData) (requestTimestamps : Text → List ℕ)
    (timestampNow : ℕ) (node : NodeInfo) (key : Text) : Bool :=
  match (cover.subscribers key).getLast? with
  | none => false
  | some entry => nodeInfo entry = node ∧ calculateFrequency (requestTimestamps key) timestampNow <
      calculateFrequency (entry.2.getUpdateTimestamps key) timestampNow

section Frequencies

variable {requestTimestamps : Text → List ℕ} {key : Text}

theorem isLastUpdatedTooOften_iff {node : NodeInfo} :
    cover.isLastUpdatedTooOften requestTimestamps timestampNow node key = true ↔
      ∃ entry, (cover.subscribers key).getLast? = some entry ∧ nodeInfo entry = node ∧
        UpdatedTooOften requestTimestamps timestampNow key entry := by
  rw [isLastUpdatedTooOften]
  cases (cover.subscribers key).getLast? with
  | none => simp
  | some entry => simp [UpdatedTooOften]

section

variable (updateFrequencies : UpdateFrequencies)

theorem enterUpdateFrequency_eq (peer : Pos) (data : SubscribedData) (key : Text) :
    enterUpdateFrequency timestampNow updateFrequencies (peer, data, key) =
      Function.update updateFrequencies key (some [(nodeInfo (peer, data),
        calculateFrequency (data.getUpdateTimestamps key) timestampNow)]) :=
  ite_self _

/-- The tuples of one node enter its frequency for each of their keys. -/
theorem enterUpdateFrequency_node (peer : Pos) (data : SubscribedData) (keys : List Text)
    (key : Text) :
    (keys.map fun key => (peer, data, key)).foldl (enterUpdateFrequency timestampNow)
        updateFrequencies key =
      if key ∈ keys then some [(nodeInfo (peer, data),
        calculateFrequency (data.getUpdateTimestamps key) timestampNow)]
      else updateFrequencies key := by
  induction keys generalizing updateFrequencies with
  | nil => simp
  | cons key' keys ih =>
    rw [map_cons, foldl_cons, ih, enterUpdateFrequency_eq]
    by_cases hkey : key = key'
    · subst hkey
      simp
    · simp [hkey]

/-- Of all nodes that share a key the last one stays. -/
theorem foldl_enterUpdateFrequency (entries : List (Pos × SubscribedData)) (key : Text) :
    (currentSubTuples entries).foldl (enterUpdateFrequency timestampNow) updateFrequencies key =
      ((entries.filter fun entry =>
          entry.2.physical.isSome && entry.2.isKeySubscribed key).getLast?.map fun entry =>
        [(nodeInfo entry, calculateFrequency (entry.2.getUpdateTimestamps key) timestampNow)]).or
        (updateFrequencies key) := by
  induction entries generalizing updateFrequencies with
  | nil => rfl
  | cons entry entries ih =>
    obtain ⟨peer, data⟩ := entry
    rw [currentSubTuples, foldl_append, ih, filter_cons]
    cases hphysical : data.physical.isSome with
    | false => simp
    | true =>
      rw [if_pos rfl, enterUpdateFrequency_node]
      by_cases hkey : key ∈ data.subscriptionOrderKeys
      · rw [if_pos hkey, if_pos (by simpa [SubscribedData.isKeySubscribed] using hkey),
          getLast?_cons]
        cases (entries.filter fun entry =>
          entry.2.physical.isSome && entry.2.isKeySubscribed key).getLast? <;> rfl
      · rw [if_neg hkey, if_neg (by simpa [SubscribedData.isKeySubscribed] using hkey)]

end

theorem mem_currentSubTuples {entries : List (Pos × SubscribedData)} {peer : Pos}
    {data : SubscribedData} :
    (peer, data, key) ∈ currentSubTuples entries ↔
      (peer, data) ∈ entries ∧ data.physical.isSome = true ∧ key ∈ data.subscriptionOrderKeys := by
  induction entries with
  | nil => simp [currentSubTuples]
  | cons entry entries ih =>
    obtain ⟨peer', data'⟩ := entry
    rw [currentSubTuples, mem_append, ih, mem_cons]
    cases hphysical : data'.physical.isSome with
    | false =>
      simp only [Bool.false_eq_true, if_false, not_mem_nil, false_or]
      constructor
      · exact fun h => ⟨.inr h.1, h.2⟩
      · rintro ⟨h | h, hsome, hkey⟩
        · cases h
          rw [hphysical] at hsome
          cases hsome
        · exact ⟨h, hsome, hkey⟩
    | true =>
      simp only [if_true, mem_map, Prod.mk.injEq]
      constructor
      · rintro (⟨k, hk, rfl, rfl, rfl⟩ | h)
        · exact ⟨.inl ⟨rfl, rfl⟩, hphysical, hk⟩
        · exact ⟨.inr h.1, h.2⟩
      · rintro ⟨⟨rfl, rfl⟩ | h, hsome, hkey⟩
        · exact .inl ⟨key, hkey, rfl, rfl, rfl⟩
        · exact .inr ⟨h, hsome, hkey⟩

theorem mem_subscribers {entry : Pos × SubscribedData} :
    entry ∈ cover.subscribers key ↔
      entry ∈ cover.entries ∧ entry.2.physical.isSome = true ∧
        key ∈ entry.2.subscriptionOrderKeys := by
  simp [subscribers, SubscribedData.isKeySubscribed]

theorem sortUnique_eq (keys : List Text) :
    FindQuery.sortUnique keys =
      uniqueBy id (keys.mergeSort fun key key' => decide (key ≤ key')) := by
  rw [FindQuery.sortUnique, uniqueBy]
  congr

variable {keys : List Text}

theorem mem_sortUnique : key ∈ FindQuery.sortUnique keys ↔ key ∈ keys := by
  rw [sortUnique_eq]
  constructor
  · exact fun h => mem_mergeSort.mp (mem_of_mem_uniqueBy h)
  · intro h
    obtain ⟨key', hkey', heq⟩ : ∃ key' ∈ uniqueBy id (keys.mergeSort fun key key' =>
        decide (key ≤ key')), id key' = id key := exists_mem_uniqueBy (mem_mergeSort.mpr h)
    rwa [← show key' = key from heq]

theorem nodup_sortUnique (keys : List Text) : (FindQuery.sortUnique keys).Nodup := by
  have hsorted : (keys.mergeSort fun key key' => decide (key ≤ key')).Pairwise (· ≤ ·) :=
    pairwise_mergeSort' (· ≤ ·) keys
  have hnodup : ((uniqueBy id (keys.mergeSort fun key key' => decide (key ≤ key'))).map id).Nodup :=
    nodup_uniqueBy hsorted
  rwa [map_id, ← sortUnique_eq] at hnodup

theorem mem_subKeys :
    key ∈ FindQuery.sortUnique ((currentSubTuples cover.entries).map fun tuple => tuple.2.2) ↔
      ∃ entry, entry ∈ cover.subscribers key := by
  rw [mem_sortUnique, mem_map]
  constructor
  · rintro ⟨⟨peer, data, key'⟩, h, rfl⟩
    exact ⟨(peer, data), mem_subscribers.mpr (mem_currentSubTuples.mp h)⟩
  · rintro ⟨⟨peer, data⟩, h⟩
    exact ⟨(peer, data, key), mem_currentSubTuples.mpr (mem_subscribers.mp h), rfl⟩

theorem addUnsubscription_getD (requestFrequency updateFrequency : WithTop ℚ)
    (unsub : Unsubscriptions) (node node' : NodeInfo) :
    (addUnsubscription key requestFrequency unsub (node, updateFrequency) node').getD [] =
      (unsub node').getD [] ++
        if node = node' ∧ requestFrequency < updateFrequency then [key] else [] := by
  rw [addUnsubscription]
  by_cases hlt : requestFrequency < updateFrequency
  · rcases eq_or_ne node node' with rfl | hne
    · cases unsub node <;> simp [hlt]
    · cases unsub node <;> simp [hlt, hne, Function.update_of_ne hne.symm]
  · simp [hlt]

variable (requestTimestamps) in
/-- Going through the keys, each is added to the list of its last subscriber
or to none. -/
theorem foldlM_unsubscribeKey {updateFrequencies : UpdateFrequencies}
    (hupdate : ∀ key ∈ keys, ∃ entry, (cover.subscribers key).getLast? = some entry ∧
      updateFrequencies key = some [(nodeInfo entry,
        calculateFrequency (entry.2.getUpdateTimestamps key) timestampNow)])
    (unsub : Unsubscriptions) :
    ∃ unsub', keys.foldlM (unsubscribeKey
        (fun key => calculateFrequency (requestTimestamps key) timestampNow) updateFrequencies)
        unsub = .ok unsub' ∧
      ∀ node, (unsub' node).getD [] = (unsub node).getD [] ++
        keys.filter (cover.isLastUpdatedTooOften requestTimestamps timestampNow node) := by
  induction keys generalizing unsub with
  | nil => exact ⟨unsub, rfl, by simp⟩
  | cons key keys ih =>
    obtain ⟨entry, hlast, hkey⟩ := hupdate key (by simp)
    obtain ⟨unsub', hrun, hunsub'⟩ := ih (fun k hk => hupdate k (by simp [hk]))
      (addUnsubscription key (calculateFrequency (requestTimestamps key) timestampNow) unsub
        (nodeInfo entry, calculateFrequency (entry.2.getUpdateTimestamps key) timestampNow))
    refine ⟨unsub', ?_, fun node => ?_⟩
    · rw [foldlM_cons, unsubscribeKey, hkey]
      exact hrun
    · have hiff : cover.isLastUpdatedTooOften requestTimestamps timestampNow node key = true ↔
          nodeInfo entry = node ∧ calculateFrequency (requestTimestamps key) timestampNow <
            calculateFrequency (entry.2.getUpdateTimestamps key) timestampNow := by
        rw [isLastUpdatedTooOften, hlast, decide_eq_true_eq]
      rw [hunsub', addUnsubscription_getD, filter_cons, append_assoc]
      by_cases hchosen : cover.isLastUpdatedTooOften requestTimestamps timestampNow node key
      · rw [if_pos (hiff.mp hchosen), if_pos hchosen]
        rfl
      · rw [if_neg (mt hiff.mpr hchosen), if_neg hchosen]
        rfl

/-- The result as it is: a node is told to stop updating a key only if it is
the last subscriber of the iteration. -/
theorem getNodesAndKeysToUnsubscribe_eq (cover : CoverData) (iteration : IterationOrder)
    (requestTimestamps : Text → List ℕ) (timestampNow : ℕ) :
    ∃ unsub, cover.getNodesAndKeysToUnsubscribe iteration requestTimestamps timestampNow =
        .ok unsub ∧
      ∀ node, ((unsub node).getD []).Nodup ∧ ∀ key, key ∈ (unsub node).getD [] ↔
        ∃ entry, (cover.subscribers key).getLast? = some entry ∧ nodeInfo entry = node ∧
          UpdatedTooOften requestTimestamps timestampNow key entry := by
  have hkeys : ∀ key ∈ iteration.order (FindQuery.sortUnique
      ((currentSubTuples cover.entries).map fun tuple => tuple.2.2)),
      ∃ entry, (cover.subscribers key).getLast? = some entry ∧
        (currentSubTuples cover.entries).foldl (enterUpdateFrequency timestampNow) (fun _ => none)
          key = some [(nodeInfo entry,
            calculateFrequency (entry.2.getUpdateTimestamps key) timestampNow)] := by
    intro key hkey
    obtain ⟨entry, hentry⟩ := mem_subKeys.mp ((iteration.perm _).mem_iff.mp hkey)
    refine ⟨_, getLast?_eq_some_getLast (ne_nil_of_mem hentry), ?_⟩
    rw [foldl_enterUpdateFrequency, ← subscribers,
      getLast?_eq_some_getLast (ne_nil_of_mem hentry)]
    rfl
  obtain ⟨unsub, hrun, hunsub⟩ := foldlM_unsubscribeKey requestTimestamps hkeys fun _ => none
  refine ⟨unsub, ?_, fun node => ?_⟩
  · rw [← hrun, getNodesAndKeysToUnsubscribe]
    split_ifs with hempty
    · -- without tuples there is no key, and the loop does nothing
      rw [List.isEmpty_iff] at hempty
      have hnil : FindQuery.sortUnique [] = [] := by simp [FindQuery.sortUnique]
      rw [hempty, map_nil, hnil, (iteration.perm []).eq_nil]
      rfl
    · rfl
  · rw [hunsub, Option.getD_none, nil_append]
    refine ⟨((iteration.perm _).nodup_iff.mpr (nodup_sortUnique _)).filter _, fun key => ?_⟩
    rw [mem_filter, isLastUpdatedTooOften_iff, (iteration.perm _).mem_iff, mem_subKeys]
    refine and_iff_right_of_imp ?_
    rintro ⟨entry, hlast, -⟩
    exact ⟨entry, mem_of_getLast? hlast⟩

end Frequencies

/-- All keys that are updated too often are unsubscribed, exactly if such a
node is always the last one of the iteration that has subscribed the key. -/
theorem unsubscribesAll_iff (cover : CoverData) (iteration : IterationOrder)
    (requestTimestamps : Text → List ℕ) (timestampNow : ℕ) :
    cover.UnsubscribesAll iteration requestTimestamps timestampNow ↔
      ∀ key, ∀ entry ∈ cover.subscribers key,
        UpdatedTooOften requestTimestamps timestampNow key entry →
          (cover.subscribers key).getLast? = some entry := by
  obtain ⟨unsub, hrun, hunsub⟩ :=
    getNodesAndKeysToUnsubscribe_eq cover iteration requestTimestamps timestampNow
  have hmem : ∀ node key, (∃ keys, unsub node = some keys ∧ key ∈ keys) ↔
      key ∈ (unsub node).getD [] := by
    intro node key
    cases unsub node <;> simp
  constructor
  · rintro ⟨unsub', hrun', -, hexact⟩ key entry hentry hoften
    cases hrun.symm.trans hrun'
    obtain ⟨last, hlast, hnode, -⟩ := ((hunsub (nodeInfo entry)).2 key).mp
      ((hmem _ key).mp ((hexact (nodeInfo entry) key).mpr ⟨entry, hentry, rfl, hoften⟩))
    rw [hlast, eq_of_nodeInfo_eq (mem_subscribers.mp (mem_of_getLast? hlast)).1
      (mem_subscribers.mp hentry).1 hnode]
  · intro h
    refine ⟨unsub, hrun, fun node keys hkeys => ?_, fun node key => ?_⟩
    · have hnodup := (hunsub node).1
      rwa [hkeys] at hnodup
    · rw [hmem, (hunsub node).2]
      constructor
      · rintro ⟨entry, hlast, hnode, hoften⟩
        exact ⟨entry, mem_of_getLast? hlast, hnode, hoften⟩
      · rintro ⟨entry, hentry, hnode, hoften⟩
        exact ⟨entry, h key entry hentry hoften, hnode, hoften⟩

/-- A node that has been subscribed for its load and has sent it twice. -/
def subscribedEntry (p : Pos) (address : Address) : Pos × SubscribedData :=
  (p, ⟨⟨some address, fun _ => none,
    fun key => if key = "load".toList then some [0, 500] else none⟩, ["load".toList]⟩)

/-- Two nodes have subscribed the same key, for which nobody asks: the first
one is forgotten. -/
theorem not_unsubscribesAll_shared :
    ¬ UnsubscribesAll ⟨[subscribedEntry ⟨2, 1⟩ 11, subscribedEntry ⟨2, 2⟩ 12], by decide⟩
      ⟨id, fun _ => .refl _⟩ (fun _ => []) 1000 := by
  rintro ⟨unsub, hrun, -, hexact⟩
  obtain ⟨unsub', hrun', hunsub⟩ := getNodesAndKeysToUnsubscribe_eq
    ⟨[subscribedEntry ⟨2, 1⟩ 11, subscribedEntry ⟨2, 2⟩ 12], by decide⟩ ⟨id, fun _ => .refl _⟩
    (fun _ => []) 1000
  cases hrun.symm.trans hrun'
  obtain ⟨keys, hkeys, hkey⟩ := (hexact (nodeInfo (subscribedEntry ⟨2, 1⟩ 11)) "load".toList).mpr
    ⟨_, mem_cons_self, rfl, by unfold UpdatedTooOften; decide +kernel⟩
  obtain ⟨last, hlast, hnode, -⟩ := ((hunsub (nodeInfo (subscribedEntry ⟨2, 1⟩ 11))).2
    "load".toList).mp (by rw [hkeys]; exact hkey)
  cases hlast
  revert hnode
  decide

end CoverData

end Sola.Minhton
