import Mathlib.Data.List.AList
import Sola.Lib.Action
import Sola.Minhton.BooleanExpression
import Sola.Minhton.RoutingInformation

/-!
The attributes of a node itself and the nodes that have subscribed them
(`minhton/src/algorithms/esearch/node_data.cpp`, `local_data.cpp` and the local
operations of `minhton_entity_search_algorithm_helper.cpp`).

A batch of updates stops at the first entry that brings nothing new, and a
removal asks for the value that it has just removed.
-/

namespace Sola.Minhton

open Sola.Lib Action List

/-! ### Attributes that can be listed -/

/-- The map of a `NodeData` from keys to values with their times and types. -/
abbrev NodeData.Store := AList fun _ : Text => NodeData.Value × ℕ × NodeData.ValueType

namespace NodeData.Store

/-- `NodeData::update`, with the answer whether the key is known. -/
def update (key : Text) (value : Value) (timestamp : ℕ) (type : ValueType) :
    Action Store Bool := do
  let data ← Action.get
  match data.lookup key with
  | none => return false
  | some (oldValue, _, oldType) =>
    if oldType ≠ type then Action.throw "value types need to stay the same"
    else if oldType = .kValueStatic then
      if oldValue = value then return true
      else Action.throw "static values cannot get updated"
    else
      Action.modify fun data => data.insert key (value, timestamp, type)
      return true

/-- `std::unordered_map::at` throws for a key that is not there. -/
def getValue (data : Store) (key : Text) : Except String Value :=
  match data.lookup key with
  | none => .error "_Map_base::at"
  | some (value, _) => .ok value

def getAllCurrentKeys (data : Store) : List Text := data.keys

/-- The value of a key that is there. -/
def valueOf (data : Store) (key : Text) : Option Value := (data.lookup key).map (·.1)

def typeOf (data : Store) (key : Text) : Option ValueType := (data.lookup key).map (·.2.2)

end NodeData.Store

/-- The own attributes.  A node is subscribed to a key at most once. -/
structure LocalData where
  data : NodeData.Store
  keySubscribers : Text → List NodeInfo
  nodup : ∀ key, (keySubscribers key).Nodup

namespace LocalData

def getSubscribers (l : LocalData) (key : Text) : List NodeInfo := l.keySubscribers key

def addKeySubscriber (l : LocalData) (key : Text) (subscriber : NodeInfo) : LocalData where
  data := l.data
  keySubscribers := Function.update l.keySubscribers key
    (if subscriber ∈ l.keySubscribers key then l.keySubscribers key
      else l.keySubscribers key ++ [subscriber])
  nodup key' := by
    by_cases h : key' = key
    · subst h
      rw [Function.update_self]
      split_ifs with hmem
      · exact l.nodup key'
      · exact (l.nodup key').append (List.nodup_singleton _) (by simpa using hmem)
    · rw [Function.update_of_ne h]
      exact l.nodup key'

def removeKeySubscriber (l : LocalData) (key : Text) (unsubscriber : NodeInfo) : LocalData where
  data := l.data
  keySubscribers := Function.update l.keySubscribers key
    ((l.keySubscribers key).filter (· ≠ unsubscriber))
  nodup key' := by
    by_cases h : key' = key
    · subst h
      rw [Function.update_self]
      exact (l.nodup key').filter _
    · rw [Function.update_of_ne h]
      exact l.nodup key'

end LocalData

/-! ### Local operations -/

structure Entry where
  key : Text
  value : NodeData.Value
  type : NodeData.ValueType
deriving DecidableEq

/-- A `MessageSubscriptionUpdate`. -/
structure SubscriptionUpdate where
  target : NodeInfo
  key : Text
  value : NodeData.Value
deriving DecidableEq

/-- The part of the entity search of a node that deals with its own attributes. -/
structure LocalSearch where
  localData : LocalData
  sent : List SubscriptionUpdate
  publishAttributesAfterInsertAndRemoval : Bool

namespace LocalSearch

def modifyData (f : NodeData.Store → NodeData.Store) (s : LocalSearch) : LocalSearch :=
  { s with localData := { s.localData with data := f s.localData.data } }

def updateSubscribers (key : Text) : Action LocalSearch Unit := do
  let s ← Action.get
  let keySubscribers := s.localData.getSubscribers key
  let value ← Action.lift (s.localData.data.getValue key)
  Action.forEach keySubscribers fun sub =>
    Action.modify fun s => { s with sent := s.sent ++ [⟨sub, key, value⟩] }

/-- The `return` of the loop leaves the whole function. -/
def localUpdate (timestampNow : ℕ) : List Entry → Action LocalSearch Unit
  | [] => pure ()
  | ⟨key, value, type⟩ :: entries => do
      let s ← Action.get
      if s.localData.data.valueOf key = some value then return
      else
        let updated ← Action.zoom (fun s => s.localData.data) (fun data => modifyData fun _ => data)
          (NodeData.Store.update key value timestampNow type)
        if !updated then Action.throw "could not update"
        else
          updateSubscribers key
          localUpdate timestampNow entries

def localRemove (keys : List Text) : Action LocalSearch Unit := do
  Action.forEach keys fun key => do
    Action.modify (modifyData fun data => data.erase key)
    updateSubscribers key
  let s ← Action.get
  if s.publishAttributesAfterInsertAndRemoval then Action.throw "not implemented yet"
  else return

def processSubscriptionOrder (orderer : NodeInfo) (keys : List Text) (subscribed : Bool) :
    Action LocalSearch Unit :=
  Action.forEach keys fun key =>
    Action.modify fun s =>
      { s with
        localData :=
          if subscribed then s.localData.addKeySubscriber key orderer
          else s.localData.removeKeySubscriber key orderer }

/-! ### One entry of a batch -/

variable {s : LocalSearch} {e : Entry} {timestampNow : ℕ}

/-- The entry has the value that is there already. -/
def Unchanged (s : LocalSearch) (e : Entry) : Prop :=
  s.localData.data.valueOf e.key = some e.value

instance (s : LocalSearch) (e : Entry) : Decidable (s.Unchanged e) :=
  inferInstanceAs (Decidable (_ = _))

/-- Only the values of dynamic attributes can be replaced. -/
def Updatable (s : LocalSearch) (e : Entry) : Prop :=
  s.localData.data.typeOf e.key = some .kValueDynamic ∧ e.type = .kValueDynamic

instance (s : LocalSearch) (e : Entry) : Decidable (s.Updatable e) :=
  inferInstanceAs (Decidable (_ ∧ _))

/-- The updates for the subscribers of an entry's key. -/
def notices (s : LocalSearch) (e : Entry) : List SubscriptionUpdate :=
  (s.localData.keySubscribers e.key).map fun sub => ⟨sub, e.key, e.value⟩

/-- An entry is stored and its subscribers are told. -/
def applyEntry (timestampNow : ℕ) (s : LocalSearch) (e : Entry) : LocalSearch :=
  { s.modifyData (fun data => data.insert e.key (e.value, timestampNow, e.type)) with
    sent := s.sent ++ s.notices e }

theorem lookup_applyEntry_self :
    (s.applyEntry timestampNow e).localData.data.lookup e.key =
      some (e.value, timestampNow, e.type) :=
  AList.lookup_insert _

variable {key : Text} {e' : Entry} {entries : List Entry} {sub : NodeInfo}

theorem lookup_applyEntry_ne (h : key ≠ e.key) :
    (s.applyEntry timestampNow e).localData.data.lookup key = s.localData.data.lookup key :=
  AList.lookup_insert_ne h

theorem unchanged_applyEntry (h : e'.key ≠ e.key) :
    (s.applyEntry timestampNow e).Unchanged e' ↔ s.Unchanged e' := by
  rw [Unchanged, Unchanged, NodeData.Store.valueOf, lookup_applyEntry_ne h,
    NodeData.Store.valueOf]

theorem updatable_applyEntry (h : e'.key ≠ e.key) :
    (s.applyEntry timestampNow e).Updatable e' ↔ s.Updatable e' := by
  rw [Updatable, Updatable, NodeData.Store.typeOf, lookup_applyEntry_ne h,
    NodeData.Store.typeOf]

theorem forEach_send (subs : List NodeInfo) (key : Text) (value : NodeData.Value)
    (s : LocalSearch) :
    forEach subs (fun sub =>
        Action.modify fun s : LocalSearch => { s with sent := s.sent ++ [⟨sub, key, value⟩] }) s =
      ({ s with sent := s.sent ++ subs.map fun sub => ⟨sub, key, value⟩ }, .ok ()) := by
  induction subs generalizing s with
  | nil => simp
  | cons sub subs ih => simp [ih]

theorem updateSubscribers_of_some {value : NodeData.Value}
    (h : s.localData.data.valueOf key = some value) :
    updateSubscribers key s =
      ({ s with sent := s.sent ++
          (s.localData.keySubscribers key).map fun sub => ⟨sub, key, value⟩ }, .ok ()) := by
  have hvalue : s.localData.data.getValue key = .ok value := by
    obtain ⟨v, hv, rfl⟩ := Option.map_eq_some_iff.mp h
    rw [NodeData.Store.getValue, hv]
  simp only [updateSubscribers, get_bind_run, hvalue, lift_ok_bind_run]
  exact forEach_send _ _ _ s

theorem updateSubscribers_of_none (h : s.localData.data.lookup key = none) :
    updateSubscribers key s = (s, .error "_Map_base::at") := by
  have hvalue : s.localData.data.getValue key = .error "_Map_base::at" := by
    rw [NodeData.Store.getValue, h]
  simp only [updateSubscribers, get_bind_run, hvalue]
  rfl

theorem localUpdate_unchanged (h : s.Unchanged e) :
    localUpdate timestampNow (e :: entries) s = (s, .ok ()) := by
  rw [Unchanged] at h
  simp only [localUpdate, get_bind_run, h, if_true, pure_run]

theorem localUpdate_updatable (h : ¬s.Unchanged e) (hup : s.Updatable e) :
    localUpdate timestampNow (e :: entries) s =
      localUpdate timestampNow entries (s.applyEntry timestampNow e) := by
  obtain ⟨htype, hdynamic⟩ := hup
  obtain ⟨⟨value, time, type⟩, hv, rfl⟩ := Option.map_eq_some_iff.mp htype
  have hupdate : zoom (fun s : LocalSearch => s.localData.data)
      (fun data => modifyData fun _ => data)
      (NodeData.Store.update e.key e.value timestampNow e.type) s =
        (s.modifyData fun data => data.insert e.key (e.value, timestampNow, e.type), .ok true) := by
    simp [zoom, NodeData.Store.update, hv, hdynamic, modifyData]
  have hvalue : (s.modifyData fun data =>
      data.insert e.key (e.value, timestampNow, e.type)).localData.data.valueOf e.key =
        some e.value := by
    simp [NodeData.Store.valueOf, modifyData]
  rw [Unchanged] at h
  simp only [localUpdate, get_bind_run, if_neg h]
  rw [bind_run_ok hupdate]
  simp only [Bool.not_true, Bool.false_eq_true, if_false]
  rw [bind_run_ok (updateSubscribers_of_some hvalue)]
  rfl

theorem localUpdate_not_updatable (timestampNow : ℕ) (entries : List Entry)
    (hkey : e.key ∈ s.localData.data) (h : ¬s.Unchanged e) (hup : ¬s.Updatable e) :
    ∃ s' error, localUpdate timestampNow (e :: entries) s = (s', .error error) := by
  obtain ⟨⟨value, time, type⟩, hv⟩ := Option.isSome_iff_exists.mp (AList.lookup_isSome.mpr hkey)
  have hne : value ≠ e.value := by
    simpa [Unchanged, NodeData.Store.valueOf, hv] using h
  have htypes : ¬(type = .kValueDynamic ∧ e.type = .kValueDynamic) := by
    simpa [Updatable, NodeData.Store.typeOf, hv] using hup
  have hupdate : ∃ error, zoom (fun s : LocalSearch => s.localData.data)
      (fun data => modifyData fun _ => data)
      (NodeData.Store.update e.key e.value timestampNow e.type) s = (s, .error error) := by
    simp only [zoom, NodeData.Store.update, get_bind_run, hv]
    by_cases htype : type = e.type
    · have hstatic : type = .kValueStatic := by
        cases type with
        | kValueStatic => rfl
        | kValueDynamic => exact absurd ⟨rfl, htype.symm⟩ htypes
      subst hstatic
      exact ⟨"static values cannot get updated", by simp [← htype, hne, modifyData]⟩
    · exact ⟨"value types need to stay the same", by simp [htype, modifyData]⟩
  obtain ⟨error, hupdate⟩ := hupdate
  rw [Unchanged] at h
  simp only [localUpdate, get_bind_run, if_neg h]
  exact ⟨_, _, bind_run_error hupdate⟩

/-! ### A whole batch -/

def applyAll (timestampNow : ℕ) (s : LocalSearch) (entries : List Entry) : LocalSearch :=
  entries.foldl (applyEntry timestampNow) s

/-- The entries before the first one that brings nothing new. -/
def changed (s : LocalSearch) (entries : List Entry) : List Entry :=
  entries.takeWhile fun e => ¬s.Unchanged e

theorem lookup_applyAll_of_notMem (h : key ∉ entries.map (·.key)) :
    (s.applyAll timestampNow entries).localData.data.lookup key =
      s.localData.data.lookup key := by
  induction entries generalizing s with
  | nil => rfl
  | cons e entries ih =>
    rw [map_cons, mem_cons, not_or] at h
    exact (ih h.2).trans (lookup_applyEntry_ne h.1)

theorem valueOf_applyAll_of_mem (hnodup : (entries.map (·.key)).Nodup) (he : e ∈ entries) :
    (s.applyAll timestampNow entries).localData.data.valueOf e.key = some e.value := by
  induction entries generalizing s with
  | nil => simp at he
  | cons e' entries ih =>
    rw [map_cons, nodup_cons] at hnodup
    rcases mem_cons.mp he with rfl | he
    · have hkept : ((s.applyEntry timestampNow e).applyAll timestampNow
          entries).localData.data.lookup e.key = some (e.value, timestampNow, e.type) :=
        (lookup_applyAll_of_notMem hnodup.1).trans lookup_applyEntry_self
      exact congrArg (Option.map (·.1)) hkept
    · exact ih hnodup.2 he

/-- The entries after one with another key have changed or not as before. -/
theorem changed_applyEntry (h : e.key ∉ entries.map (·.key)) :
    (s.applyEntry timestampNow e).changed entries = s.changed entries := by
  induction entries with
  | nil => rfl
  | cons e' entries ih =>
    rw [map_cons, mem_cons, not_or] at h
    have htail := ih h.2
    rw [changed, changed] at htail ⊢
    simp only [takeWhile_cons, unchanged_applyEntry (Ne.symm h.1), htail]

/-- None of the changed entries after it has this key. -/
theorem ne_of_mem_changed (h : e.key ∉ entries.map (·.key)) (he' : e' ∈ s.changed entries) :
    e'.key ≠ e.key :=
  ne_of_mem_of_not_mem (mem_map_of_mem (takeWhile_subset _ he')) h

theorem sent_applyAll (entries : List Entry) :
    (s.applyAll timestampNow entries).sent = s.sent ++ entries.flatMap s.notices := by
  induction entries generalizing s with
  | nil => simp [applyAll]
  | cons e entries ih =>
    have htail := ih (s := s.applyEntry timestampNow e)
    rw [flatMap_cons, ← append_assoc]
    exact htail

/-- A batch is worked off up to the first entry that brings nothing new. -/
theorem localUpdate_eq (hnodup : (entries.map (·.key)).Nodup)
    (hup : ∀ e ∈ s.changed entries, s.Updatable e) :
    localUpdate timestampNow entries s =
      (s.applyAll timestampNow (s.changed entries), .ok ()) := by
  induction entries generalizing s with
  | nil => rfl
  | cons e entries ih =>
    by_cases hun : s.Unchanged e
    · rw [localUpdate_unchanged hun, changed, takeWhile_cons_of_neg (by simpa using hun)]
      rfl
    · rw [changed, takeWhile_cons_of_pos (by simpa using hun)] at hup ⊢
      rw [map_cons, nodup_cons] at hnodup
      rw [localUpdate_updatable hun (hup e (by simp))]
      have htail := ih hnodup.2 (s := s.applyEntry timestampNow e) fun e' he' => by
        rw [changed_applyEntry hnodup.1] at he'
        rw [updatable_applyEntry (ne_of_mem_changed hnodup.1 he')]
        exact hup e' (mem_cons_of_mem _ he')
      rw [htail, changed_applyEntry hnodup.1]
      rfl

theorem localUpdate_error (hnodup : (entries.map (·.key)).Nodup)
    (hkeys : ∀ e ∈ entries, e.key ∈ s.localData.data)
    (hup : ¬∀ e ∈ s.changed entries, s.Updatable e) :
    (localUpdate timestampNow entries s).2 ≠ .ok () := by
  induction entries generalizing s with
  | nil => exact absurd (by simp [changed]) hup
  | cons e entries ih =>
    by_cases hun : s.Unchanged e
    · rw [changed, takeWhile_cons_of_neg (by simpa using hun)] at hup
      exact absurd (by simp) hup
    · rw [changed, takeWhile_cons_of_pos (by simpa using hun)] at hup
      by_cases hupe : s.Updatable e
      · rw [map_cons, nodup_cons] at hnodup
        rw [localUpdate_updatable hun hupe]
        refine ih hnodup.2 (fun e' he' => ?_) fun hall => hup fun e' he' => ?_
        · exact AList.mem_insert _ |>.mpr (.inr (hkeys e' (mem_cons_of_mem _ he')))
        · rcases mem_cons.mp he' with rfl | he'
          · exact hupe
          · rw [← updatable_applyEntry (ne_of_mem_changed hnodup.1 he')]
            exact hall e' (by rwa [changed_applyEntry hnodup.1])
      · obtain ⟨s', error, hrun⟩ :=
          localUpdate_not_updatable timestampNow entries (hkeys e (by simp)) hun hupe
        rw [hrun]
        simp

/-! ### When a batch is applied completely -/

/-- Every entry is stored, everything else is as before, and each subscriber
of a key with a new value has got one update with that value. -/
structure BatchApplied (s : LocalSearch) (entries : List Entry) (s' : LocalSearch) : Prop where
  stored : ∀ e ∈ entries, s'.localData.data.valueOf e.key = some e.value
  others : ∀ key ∉ entries.map (·.key),
    s'.localData.data.lookup key = s.localData.data.lookup key
  notified : ∃ updates, s'.sent = s.sent ++ updates ∧
    ∀ e ∈ entries, ¬s.Unchanged e → ∀ sub ∈ s.localData.keySubscribers e.key,
      updates.filter (fun u => u.target = sub ∧ u.key = e.key) = [⟨sub, e.key, e.value⟩]

theorem filter_notices_self (hsub : sub ∈ s.localData.keySubscribers e.key) :
    (s.notices e).filter (fun u => u.target = sub ∧ u.key = e.key) =
      [⟨sub, e.key, e.value⟩] := by
  have hone : (s.localData.keySubscribers e.key).filter (· = sub) = [sub] := by
    rw [filter_eq, count_eq_one_of_mem (s.localData.nodup e.key) hsub]
    rfl
  rw [notices, filter_map]
  have hpred : ((fun u : SubscriptionUpdate => decide (u.target = sub ∧ u.key = e.key)) ∘
      fun sub' => ⟨sub', e.key, e.value⟩) = fun sub' => decide (sub' = sub) := by
    funext sub'
    simp
  rw [hpred, hone]
  rfl

theorem filter_notices_ne (h : e.key ≠ key) :
    (s.notices e).filter (fun u => u.target = sub ∧ u.key = key) = [] := by
  simp [notices, filter_eq_nil_iff, h]

theorem filter_flatMap_notices (hnodup : (entries.map (·.key)).Nodup) (he : e ∈ entries)
    (hsub : sub ∈ s.localData.keySubscribers e.key) :
    (entries.flatMap s.notices).filter (fun u => u.target = sub ∧ u.key = e.key) =
      [⟨sub, e.key, e.value⟩] := by
  induction entries with
  | nil => simp at he
  | cons e' entries ih =>
    rw [map_cons, nodup_cons] at hnodup
    rw [flatMap_cons, filter_append]
    rcases mem_cons.mp he with rfl | he
    · have hrest : (entries.flatMap s.notices).filter
          (fun u => u.target = sub ∧ u.key = e.key) = [] := by
        rw [filter_flatMap, flatMap_eq_nil_iff]
        exact fun e' he' => filter_notices_ne
          (ne_of_mem_of_not_mem (mem_map_of_mem he') hnodup.1)
      rw [filter_notices_self hsub, hrest]
      rfl
    · have hne : e'.key ≠ e.key :=
        (ne_of_mem_of_not_mem (mem_map_of_mem he) hnodup.1).symm
      rw [filter_notices_ne hne, ih hnodup.2 he]
      rfl

/-- Once an entry brings nothing new, none of the later ones may. -/
theorem mem_changed_iff (h : entries.Pairwise fun e e' => s.Unchanged e → s.Unchanged e') :
    e ∈ s.changed entries ↔ e ∈ entries ∧ ¬s.Unchanged e := by
  induction entries with
  | nil => simp [changed]
  | cons e' entries ih =>
    rw [pairwise_cons] at h
    by_cases hun : s.Unchanged e'
    · rw [changed, takeWhile_cons_of_neg (by simpa using hun)]
      simp only [not_mem_nil, mem_cons, false_iff, not_and, not_not]
      rintro (rfl | he)
      · exact hun
      · exact h.1 e he hun
    · rw [changed, takeWhile_cons_of_pos (by simpa using hun), mem_cons,
        mem_cons]
      have htail := ih h.2
      rw [changed] at htail
      rw [htail]
      constructor
      · rintro (rfl | ⟨he, hne⟩)
        · exact ⟨.inl rfl, hun⟩
        · exact ⟨.inr he, hne⟩
      · rintro ⟨rfl | he, hne⟩
        · exact .inl rfl
        · exact .inr ⟨he, hne⟩

theorem key_notMem_changed (hnodup : (entries.map (·.key)).Nodup) (he : e ∈ entries)
    (hnot : e ∉ s.changed entries) : e.key ∉ (s.changed entries).map (·.key) := by
  rw [mem_map]
  rintro ⟨e', he', heq⟩
  have hsame := inj_on_of_nodup_map hnodup (takeWhile_subset _ he') he heq
  exact hnot (hsame ▸ he')

theorem unchanged_of_stored (hnodup : (entries.map (·.key)).Nodup) (hstored : ∀ e ∈ entries,
      (s.applyAll timestampNow (s.changed entries)).localData.data.valueOf e.key = some e.value) :
    ∀ e ∈ entries, e ∉ s.changed entries → s.Unchanged e := by
  intro e he hnot
  have hvalue := hstored e he
  rwa [NodeData.Store.valueOf,
    lookup_applyAll_of_notMem (key_notMem_changed hnodup he hnot)] at hvalue

/-- The entries that a batch reaches are those before the first unchanged
one, so the others must be unchanged too. -/
theorem pairwise_of_changed (h : ∀ e ∈ entries, e ∉ s.changed entries → s.Unchanged e)
    (hnodup : (entries.map (·.key)).Nodup) :
    entries.Pairwise fun e e' => s.Unchanged e → s.Unchanged e' := by
  induction entries with
  | nil => exact .nil
  | cons e entries ih =>
    rw [map_cons, nodup_cons] at hnodup
    rw [pairwise_cons]
    by_cases hun : s.Unchanged e
    · rw [changed, takeWhile_cons_of_neg (by simpa using hun)] at h
      have hall : ∀ e' ∈ entries, s.Unchanged e' :=
        fun e' he' => h e' (mem_cons_of_mem _ he') (by simp)
      exact ⟨fun e' he' _ => hall e' he',
        pairwise_of_forall_mem_list fun _ _ e' he' _ => hall e' he'⟩
    · rw [changed, takeWhile_cons_of_pos (by simpa using hun)] at h
      refine ⟨fun e' _ h' => absurd h' hun, ih (fun e' he' hnot => ?_) hnodup.2⟩
      refine h e' (mem_cons_of_mem _ he') fun hmem => ?_
      rcases mem_cons.mp hmem with rfl | hmem
      · exact hnodup.1 (mem_map_of_mem he')
      · exact hnot hmem

/-- A batch of stored keys is applied completely exactly when no new value
comes after an entry without news, and all new values are for dynamic
attributes. -/
theorem localUpdate_complete_iff (timestampNow : ℕ) (s : LocalSearch) (entries : List Entry)
    (hnodup : (entries.map (·.key)).Nodup) (hkeys : ∀ e ∈ entries, e.key ∈ s.localData.data) :
    ((localUpdate timestampNow entries s).2 = .ok () ∧
        s.BatchApplied entries (localUpdate timestampNow entries s).1) ↔
      (entries.Pairwise fun e e' => s.Unchanged e → s.Unchanged e') ∧
        ∀ e ∈ entries, ¬s.Unchanged e → s.Updatable e := by
  by_cases hup : ∀ e ∈ s.changed entries, s.Updatable e
  · rw [localUpdate_eq hnodup hup]
    constructor
    · rintro ⟨-, happlied⟩
      have hrest := unchanged_of_stored hnodup happlied.stored
      refine ⟨pairwise_of_changed hrest hnodup, fun e he hne => hup e ?_⟩
      by_contra hnot
      exact hne (hrest e he hnot)
    · rintro ⟨hpairwise, -⟩
      have hsub : (s.changed entries).map (·.key) |>.Sublist (entries.map (·.key)) :=
        (takeWhile_sublist _).map _
      refine ⟨rfl, fun e he => ?_, fun key hkey => ?_, ?_⟩
      · by_cases hmem : e ∈ s.changed entries
        · exact valueOf_applyAll_of_mem (hnodup.sublist hsub) hmem
        · have hun : s.Unchanged e := by
            by_contra hne
            exact hmem ((mem_changed_iff hpairwise).mpr ⟨he, hne⟩)
          rw [NodeData.Store.valueOf,
            lookup_applyAll_of_notMem (key_notMem_changed hnodup he hmem)]
          exact hun
      · exact lookup_applyAll_of_notMem fun hmem => hkey (hsub.subset hmem)
      · refine ⟨_, sent_applyAll _, fun e he hne sub hsubscribed => ?_⟩
        exact filter_flatMap_notices (hnodup.sublist hsub)
          ((mem_changed_iff hpairwise).mpr ⟨he, hne⟩) hsubscribed
  · constructor
    · rintro ⟨hok, -⟩
      exact absurd hok (localUpdate_error hnodup hkeys hup)
    · rintro ⟨hpairwise, hall⟩
      refine absurd (fun e he => ?_) hup
      obtain ⟨hmem, hne⟩ := (mem_changed_iff hpairwise).mp he
      exact hall e hmem hne

/-- Two attributes with one subscriber. -/
def twoAttributes : LocalSearch where
  localData :=
    { data := [⟨['x'], .int 1, 0, .kValueDynamic⟩, ⟨['y'], .int 2, 0, .kValueDynamic⟩].toAList
      keySubscribers := fun _ => [⟨some ⟨1, 0⟩, some 7⟩]
      nodup := fun _ => List.nodup_singleton _ }
  sent := []
  publishAttributesAfterInsertAndRemoval := false

theorem localUpdate_complete_iff_newFirst :
    twoAttributes.BatchApplied [⟨['y'], .int 3, .kValueDynamic⟩, ⟨['x'], .int 1, .kValueDynamic⟩]
      (localUpdate 5 [⟨['y'], .int 3, .kValueDynamic⟩, ⟨['x'], .int 1, .kValueDynamic⟩]
        twoAttributes).1 :=
  ((localUpdate_complete_iff 5 twoAttributes
    [⟨['y'], .int 3, .kValueDynamic⟩, ⟨['x'], .int 1, .kValueDynamic⟩] (by decide +kernel)
    (by decide +kernel)).mpr ⟨by decide +kernel, by decide +kernel⟩).2

/-- `x` has its value already, and the new value of `y` is lost. -/
theorem localUpdate_stops :
    let s := localUpdate 5 [⟨['x'], .int 1, .kValueDynamic⟩, ⟨['y'], .int 3, .kValueDynamic⟩]
      twoAttributes
    s.2 = .ok () ∧ s.1.localData.data.valueOf ['y'] = some (.int 2) ∧ s.1.sent = [] := by
  decide +kernel

/-! ### Removals -/

/-- None of the keys is stored any more, everything else is as before, and
each subscriber of a removed key has been told. -/
structure RemovalApplied (s : LocalSearch) (keys : List Text) (s' : LocalSearch) : Prop where
  removed : ∀ key ∈ keys, key ∉ s'.localData.data
  others : ∀ key ∉ keys, s'.localData.data.lookup key = s.localData.data.lookup key
  notified : ∃ updates, s'.sent = s.sent ++ updates ∧
    ∀ key ∈ keys, ∀ sub ∈ s.localData.keySubscribers key,
      ∃ u ∈ updates, u.target = sub ∧ u.key = key

/-- The first key is removed, and then its value cannot be read. -/
theorem localRemove_cons (key : Text) (keys : List Text) (s : LocalSearch) :
    localRemove (key :: keys) s =
      (s.modifyData fun data => data.erase key, .error "_Map_base::at") := by
  have hnone : (s.modifyData fun data => data.erase key).localData.data.lookup key = none :=
    AList.lookup_erase _ _
  have hfirst : (do
      Action.modify (modifyData fun data => data.erase key)
      updateSubscribers key) s =
        (s.modifyData fun data => data.erase key, .error "_Map_base::at") := by
    rw [modify_bind_run]
    exact updateSubscribers_of_none hnone
  rw [localRemove, forEach_cons]
  exact bind_run_error (bind_run_error hfirst)

/-- Only the removal of nothing succeeds, whether there are subscribers or not. -/
theorem localRemove_complete_iff (s : LocalSearch) (keys : List Text)
    (hpublish : s.publishAttributesAfterInsertAndRemoval = false) :
    ((localRemove keys s).2 = .ok () ∧ s.RemovalApplied keys (localRemove keys s).1) ↔
      keys = [] := by
  cases keys with
  | nil =>
    have hrun : localRemove [] s = (s, .ok ()) := by simp [localRemove, hpublish]
    rw [hrun]
    simp only [true_and, iff_true]
    exact ⟨by simp, fun _ _ => rfl, [], by simp, by simp⟩
  | cons key keys =>
    rw [localRemove_cons]
    simp

theorem localRemove_complete_iff_nothing : (localRemove [] twoAttributes).2 = .ok () :=
  ((localRemove_complete_iff twoAttributes [] rfl).mpr rfl).1

/-- The subscriber of `x` is not told, and `y` is not removed. -/
theorem localRemove_throws :
    let s := localRemove [['x'], ['y']] twoAttributes
    s.2 = .error "_Map_base::at" ∧ s.1.sent = [] ∧
      s.1.localData.data.valueOf ['y'] = some (.int 2) := by
  decide +kernel

end LocalSearch

end Sola.Minhton
