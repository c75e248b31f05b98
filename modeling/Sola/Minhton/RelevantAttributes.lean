import Sola.Minhton.FindQuery
import Sola.Minhton.LocalData

/-!
The attributes a DSN reports for the nodes that fulfil a query
(`getRelevantAttributesAndValues` in
`minhton/src/algorithms/esearch/minhton_entity_search_algorithm.cpp`).

The keys to report are kept in one variable for all nodes.  If it is empty it
is filled with the keys of the node at hand, and then it stays so for the
nodes that follow.
-/

namespace Sola.Minhton

open Sola.Lib.MaryTree List AList

abbrev Attributes := List (Text × NodeData.Value)

abbrev NodesWithAttributes := AList fun _ : NodeInfo => Attributes

/-- What a DSN reports from: its own attributes and those of the nodes of its
cover area. -/
structure KnownNodes where
  selfNodeInfo : NodeInfo
  localData : NodeData.Store
  coverData : Pos → Option NodeData.Store

namespace KnownNodes

/-- The attributes of a node, which may be the DSN itself. -/
def storeOf (known : KnownNodes) (node : NodeInfo) : Option NodeData.Store :=
  if node.pos = known.selfNodeInfo.pos then some known.localData else known.coverData node.pos

/-- A topic that a node has not subscribed is reported as `false`. -/
def relevantValues (relevantTopicKeys : List Text) (data : NodeData.Store)
    (relevantKeys : List Text) : Attributes :=
  relevantKeys.filterMap fun key =>
    match data.valueOf key with
    | some value => some (key, value)
    | none => if relevantTopicKeys.contains key then some (key, .bool false) else none

/-- The loop over the true nodes with the relevant keys as they are carried
from node to node. -/
def relevantLoop (known : KnownNodes) (query : FindQuery) :
    List Text → List NodeInfo → NodesWithAttributes → NodesWithAttributes
  | _, [], data => data
  | relevantKeys, node :: nodes, data =>
    match known.storeOf node with
    | none => relevantLoop known query relevantKeys nodes data
    | some store =>
      let relevantKeys :=
        if query.selection = .kSelectAll || relevantKeys.isEmpty then store.getAllCurrentKeys
        else relevantKeys
      let nodeData := relevantValues query.getRelevantTopicAttributes store relevantKeys
      relevantLoop known query relevantKeys nodes
        (if nodeData.isEmpty then data else data.insert node nodeData)

/-- The keys the loop starts with. -/
def initialKeys (query : FindQuery) : List Text :=
  if query.selection = .kSelectSpecific then query.selectedAttributeKeys
  else query.getRelevantAttributes

def getRelevantAttributesAndValues (known : KnownNodes) (trueNodes : List NodeInfo)
    (query : FindQuery) : NodesWithAttributes :=
  relevantLoop known query (initialKeys query) trueNodes ∅

/-! ### The answer for one node -/

variable {known : KnownNodes} {query : FindQuery} {node : NodeInfo}

/-- What is reported for a node if no other node is in the way. -/
def answer (known : KnownNodes) (query : FindQuery) (node : NodeInfo) : Attributes :=
  match known.storeOf node with
  | none => []
  | some store =>
    relevantValues query.getRelevantTopicAttributes store
      (if query.selection = .kSelectAll then store.getAllCurrentKeys else initialKeys query)

variable {relevantKeys : List Text} {nodes : List NodeInfo} {attributes : Attributes}
  {store : NodeData.Store}

section

variable (h : query.selection = .kSelectAll ∨ initialKeys query ≠ [])
include h

/-- Every node of the list has its own answer. -/
theorem lookup_relevantLoop (nodes : List NodeInfo)
    (hkeys : query.selection = .kSelectAll ∨ relevantKeys = initialKeys query)
    (data : NodesWithAttributes) :
    (relevantLoop known query relevantKeys nodes data).lookup node =
      if node ∈ nodes ∧ known.answer query node ≠ [] then some (known.answer query node)
      else data.lookup node := by
  induction nodes generalizing relevantKeys data with
  | nil => simp [relevantLoop]
  | cons node' nodes ih =>
    cases hstore : known.storeOf node' with
    | none =>
      have hanswer : known.answer query node' = [] := by rw [answer, hstore]
      simp only [relevantLoop, hstore]
      rw [ih hkeys]
      by_cases heq : node = node'
      · subst heq
        simp [hanswer]
      · simp [heq]
    | some store =>
      -- the keys for this node do not depend on those carried along
      have hchosen : (if query.selection = .kSelectAll || relevantKeys.isEmpty then
          store.getAllCurrentKeys else relevantKeys) =
          if query.selection = .kSelectAll then store.getAllCurrentKeys
          else initialKeys query := by
        rcases h with h | h
        · simp [h]
        · rcases hkeys with hall | rfl
          · simp [hall]
          · simp [h]
      have hanswer : relevantValues query.getRelevantTopicAttributes store
          (if query.selection = .kSelectAll then store.getAllCurrentKeys
            else initialKeys query) = known.answer query node' := by
        rw [answer, hstore]
      have hnext : query.selection = .kSelectAll ∨
          (if query.selection = .kSelectAll then store.getAllCurrentKeys
            else initialKeys query) = initialKeys query := by
        by_cases hall : query.selection = .kSelectAll
        · exact .inl hall
        · exact .inr (if_neg hall)
      simp only [relevantLoop, hstore, hchosen, hanswer]
      rw [ih hnext]
      by_cases heq : node = node'
      · subst heq
        by_cases hempty : known.answer query node = []
        · simp [hempty]
        · simp [hempty, lookup_insert]
      · by_cases hempty : known.answer query node' = []
        · simp [heq, hempty]
        · simp [heq, hempty, lookup_insert_ne heq]

theorem lookup_getRelevantAttributesAndValues (hnode : node ∈ nodes) :
    (known.getRelevantAttributesAndValues nodes query).lookup node =
      if known.answer query node ≠ [] then some (known.answer query node) else none := by
  rw [getRelevantAttributesAndValues, lookup_relevantLoop h nodes (.inr rfl)]
  simp [hnode]

end

/-- Only true nodes are reported, and none without attributes. -/
theorem of_lookup_relevantLoop {data : NodesWithAttributes}
    (h : (relevantLoop known query relevantKeys nodes data).lookup node = some attributes) :
    node ∈ nodes ∧ attributes ≠ [] ∨ data.lookup node = some attributes := by
  induction nodes generalizing relevantKeys data with
  | nil => exact .inr h
  | cons node' nodes ih =>
    cases hstore : known.storeOf node' with
    | none =>
      simp only [relevantLoop, hstore] at h
      rcases ih h with ⟨hmem, hne⟩ | hdata
      · exact .inl ⟨mem_cons_of_mem _ hmem, hne⟩
      · exact .inr hdata
    | some store =>
      simp only [relevantLoop, hstore] at h
      rcases ih h with ⟨hmem, hne⟩ | hdata
      · exact .inl ⟨mem_cons_of_mem _ hmem, hne⟩
      · generalize relevantValues _ store _ = nodeData at hdata
        split_ifs at hdata with hempty
        · exact .inr hdata
        · by_cases heq : node = node'
          · subst heq
            rw [lookup_insert, Option.some.injEq] at hdata
            subst hdata
            exact .inl ⟨mem_cons_self, by simpa using hempty⟩
          · rw [lookup_insert_ne heq] at hdata
            exact .inr hdata

theorem of_lookup_getRelevantAttributesAndValues
    (h : (known.getRelevantAttributesAndValues nodes query).lookup node = some attributes) :
    node ∈ nodes ∧ attributes ≠ [] := by
  refine (of_lookup_relevantLoop h).resolve_right ?_
  simp

/-- Every known key of the node, with its value. -/
def IsAllKnown (known : KnownNodes) (node : NodeInfo) (attributes : Attributes) : Prop :=
  match known.storeOf node with
  | none => attributes = []
  | some store => attributes.map (·.1) = store.getAllCurrentKeys ∧
      ∀ a ∈ attributes, store.valueOf a.1 = some a.2

theorem valueOf_of_mem_keys {key : Text} (h : key ∈ store.keys) :
    ∃ value, store.valueOf key = some value := by
  obtain ⟨v, hv⟩ := Option.isSome_iff_exists.mp (lookup_isSome.mpr h)
  exact ⟨v.1, by rw [NodeData.Store.valueOf, hv]; rfl⟩

theorem relevantValues_of_known (relevantTopicKeys : List Text) {keys : List Text}
    (h : ∀ key ∈ keys, key ∈ store.keys) :
    (relevantValues relevantTopicKeys store keys).map (·.1) = keys ∧
      ∀ a ∈ relevantValues relevantTopicKeys store keys, store.valueOf a.1 = some a.2 := by
  induction keys with
  | nil => simp [relevantValues]
  | cons key keys ih =>
    obtain ⟨value, hvalue⟩ := valueOf_of_mem_keys (h key (by simp))
    obtain ⟨hfst, hvalues⟩ := ih fun key' hkey' => h key' (mem_cons_of_mem _ hkey')
    have hcons : relevantValues relevantTopicKeys store (key :: keys) =
        (key, value) :: relevantValues relevantTopicKeys store keys := by
      simp [relevantValues, hvalue]
    rw [hcons]
    refine ⟨by rw [map_cons, hfst], fun a ha => ?_⟩
    rcases mem_cons.mp ha with rfl | ha
    · exact hvalue
    · exact hvalues a ha

theorem isAllKnown_answer (h : query.selection = .kSelectAll) :
    known.IsAllKnown node (known.answer query node) := by
  rw [IsAllKnown, answer]
  cases hstore : known.storeOf node with
  | none => rfl
  | some store =>
    simp only [h, if_true]
    exact relevantValues_of_known _ fun key hkey => hkey

/-! ### Reports that depend on the other nodes -/

/-- One attribute. -/
def oneAttribute (key : Text) (n : ℤ) : NodeData.Store :=
  AList.singleton key (.int n, 0, .kValueDynamic)

/-- The node at `0:0` knows `x` about `1:0` and `y` about `1:1`. -/
def twoNodes : KnownNodes where
  selfNodeInfo := ⟨some ⟨0, 0⟩, some 0⟩
  localData := ∅
  coverData := fun p =>
    if p = ⟨1, 0⟩ then some (oneAttribute ['x'] 1)
    else if p = ⟨1, 1⟩ then some (oneAttribute ['y'] 2)
    else none

theorem relevantValues_oneAttribute (topics : List Text) (key : Text) (n : ℤ) :
    relevantValues topics (oneAttribute key n) [key] = [(key, .int n)] := by
  have hvalue : (oneAttribute key n).valueOf key = some (.int n) := by
    simp [NodeData.Store.valueOf, oneAttribute, AList.lookup]
  simp [relevantValues, hvalue]

/-- The loop takes the keys of a node if it has none. -/
theorem relevantLoop_nil (hselection : query.selection ≠ .kSelectAll)
    (hstore : known.storeOf node = some store) (nodes : List NodeInfo)
    (data : NodesWithAttributes) : relevantLoop known query [] (node :: nodes) data =
      relevantLoop known query store.keys nodes
        (if (relevantValues query.getRelevantTopicAttributes store store.keys).isEmpty then data
          else data.insert node
            (relevantValues query.getRelevantTopicAttributes store store.keys)) := by
  simp [relevantLoop, hstore, hselection, NodeData.Store.getAllCurrentKeys]

/-- Without keys of its own, the query takes those of the first node for all. -/
theorem lookup_twoNodes (hselection : query.selection ≠ .kSelectAll)
    (hkeys : initialKeys query = []) :
    (twoNodes.getRelevantAttributesAndValues [⟨some ⟨1, 1⟩, some 2⟩] query).lookup
        ⟨some ⟨1, 1⟩, some 2⟩ ≠
      (twoNodes.getRelevantAttributesAndValues [⟨some ⟨1, 0⟩, some 1⟩, ⟨some ⟨1, 1⟩, some 2⟩]
        query).lookup ⟨some ⟨1, 1⟩, some 2⟩ := by
  have hfirst : twoNodes.storeOf ⟨some ⟨1, 0⟩, some 1⟩ = some (oneAttribute ['x'] 1) := rfl
  have hsecond : twoNodes.storeOf ⟨some ⟨1, 1⟩, some 2⟩ = some (oneAttribute ['y'] 2) := rfl
  have hx : (oneAttribute ['x'] 1).keys = [['x']] := rfl
  have hy : (oneAttribute ['y'] 2).keys = [['y']] := rfl
  have hxy : (oneAttribute ['y'] 2).valueOf ['x'] = none := rfl
  rw [getRelevantAttributesAndValues, getRelevantAttributesAndValues, hkeys,
    relevantLoop_nil hselection hfirst, relevantLoop_nil hselection hsecond, hx, hy,
    relevantValues_oneAttribute, relevantValues_oneAttribute]
  simp only [relevantLoop, hsecond, hselection, isEmpty_cons, decide_false, Bool.or_self,
    Bool.false_eq_true, if_false, lookup_insert]
  by_cases htopic : query.getRelevantTopicAttributes.contains ['x'] = true
  · have hfalse : relevantValues query.getRelevantTopicAttributes (oneAttribute ['y'] 2) [['x']] =
        [(['x'], .bool false)] := by
      simp only [relevantValues, filterMap_cons, hxy, htopic, if_true, filterMap_nil]
    rw [hfalse]
    simp only [isEmpty_cons, Bool.false_eq_true, if_false, lookup_insert]
    simp
  · have hnone : relevantValues query.getRelevantTopicAttributes (oneAttribute ['y'] 2) [['x']] =
        [] := by
      simp only [relevantValues, filterMap_cons, hxy, htopic, Bool.false_eq_true, if_false,
        filterMap_nil]
    rw [hnone, isEmpty_nil, if_pos rfl, lookup_insert_ne (by decide)]
    simp

/-- The report about a node is its own exactly when every attribute is
selected or the query has keys to report. -/
theorem answers_alone_iff (query : FindQuery) :
    ((∀ (known : KnownNodes) (nodes nodes' : List NodeInfo), ∀ node ∈ nodes, node ∈ nodes' →
        (known.getRelevantAttributesAndValues nodes query).lookup node =
          (known.getRelevantAttributesAndValues nodes' query).lookup node) ∧
      (query.selection = .kSelectAll → ∀ (known : KnownNodes) (nodes : List NodeInfo),
        ∀ node ∈ nodes, known.IsAllKnown node
          (((known.getRelevantAttributesAndValues nodes query).lookup node).getD []))) ↔
      query.selection = .kSelectAll ∨ initialKeys query ≠ [] := by
  constructor
  · rintro ⟨halone, -⟩
    by_contra hnot
    obtain ⟨hselection, hkeys⟩ := not_or.mp hnot
    exact lookup_twoNodes hselection (not_not.mp hkeys)
      (halone twoNodes _ _ ⟨some ⟨1, 1⟩, some 2⟩ (by simp) (by simp))
  · intro h
    refine ⟨fun known nodes nodes' node hnode hnode' => ?_, fun hall known nodes node hnode => ?_⟩
    · rw [lookup_getRelevantAttributesAndValues h hnode,
        lookup_getRelevantAttributesAndValues h hnode']
    · rw [lookup_getRelevantAttributesAndValues h hnode]
      have hanswer : known.IsAllKnown node (known.answer query node) := isAllKnown_answer hall
      by_cases hempty : known.answer query node = []
      · simpa [hempty] using hanswer
      · simpa [hempty] using hanswer

/-- For the expression that is always true, `y` of `1:1` is not reported
after `1:0` has been. -/
theorem answers_not_alone :
    ((twoNodes.getRelevantAttributesAndValues [⟨some ⟨1, 1⟩, some 2⟩]
        { expr := .empty }).lookup ⟨some ⟨1, 1⟩, some 2⟩ = some [(['y'], .int 2)]) ∧
      (twoNodes.getRelevantAttributesAndValues [⟨some ⟨1, 0⟩, some 1⟩, ⟨some ⟨1, 1⟩, some 2⟩]
        { expr := .empty }).lookup ⟨some ⟨1, 1⟩, some 2⟩ = none := by
  decide +kernel

end KnownNodes

end Sola.Minhton
