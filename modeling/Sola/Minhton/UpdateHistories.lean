import Sola.Minhton.DsnHandler

/-!
The values and the update histories of a node's attributes
(`minhton/src/algorithms/esearch/distributed_data.cpp`, `node_data.cpp`).

A value and the times of its last updates are kept in two maps.  An update
stores the value before it looks at the history, which refuses a time earlier
than the last one, and for a static value that stays the same it adds a time to
the history only.
-/

namespace Sola.Minhton

open Sola.Lib Action List Function Option

namespace DistributedData

inductive Call
  | insert (key : Text) (value : NodeData.Value) (timestamp : ℕ) (type : NodeData.ValueType)
  | update (key : Text) (value : NodeData.Value) (timestamp : ℕ) (type : NodeData.ValueType)
  | remove (key : Text)

namespace Call

def run : Call → Action DistributedData Bool
  | insert key value timestamp type => DistributedData.insert key value timestamp type
  | update key value timestamp type => DistributedData.update key value timestamp type
  | remove key => do
      Action.modify fun d => d.remove key
      return true

/-- The object after a call, also after one that throws. -/
def after (call : Call) (d : DistributedData) : DistributedData := (call.run d).1

/-- An update that does not return true leaves the object as it is. -/
def Atomic (d : DistributedData) : Call → Prop
  | update key value timestamp type =>
    (DistributedData.update key value timestamp type d).2 ≠ .ok true →
      (DistributedData.update key value timestamp type d).1 = d
  | _ => True

/-- Times of updates do not go back, and a static value is not updated with a
later time. -/
def InTime (d : DistributedData) : Call → Prop
  | update key value timestamp type =>
    ∀ oldValue oldTimestamp, d.data key = some (oldValue, oldTimestamp, type) →
      (type = .kValueDynamic → oldTimestamp ≤ timestamp) ∧
        (type = .kValueStatic → oldValue = value → timestamp ≤ oldTimestamp)
  | _ => True

end Call

/-- The keys with a value are those with a history, and the time of the value
is the newest one of the history. -/
structure Aligned (d : DistributedData) : Prop where
  keys : ∀ key, (d.data key).isSome = (d.updateTimestamps key).isSome
  newest : ∀ key value timestamp type timestamps,
    d.data key = some (value, timestamp, type) → d.updateTimestamps key = some timestamps →
      timestamp ∈ timestamps ∧ ∀ t ∈ timestamps, t ≤ timestamp

/-- Every state of a sequence of calls is aligned, and every update is atomic. -/
def AlignedThroughout : DistributedData → List Call → Prop
  | d, [] => d.Aligned
  | d, call :: calls =>
    d.Aligned ∧ call.Atomic d ∧ AlignedThroughout (call.after d) calls

/-- Every call of a sequence is in time when it is made. -/
def InTimeThroughout : DistributedData → List Call → Prop
  | _, [] => True
  | d, call :: calls => call.InTime d ∧ InTimeThroughout (call.after d) calls

/-! ### Histories -/

/-- A history ends with its newest time. -/
def Ascending (d : DistributedData) : Prop :=
  ∀ key timestamps, d.updateTimestamps key = some timestamps →
    timestamps ≠ [] ∧ timestamps.Pairwise (· ≤ ·)

/-- A history with one more time, of which the last five are kept. -/
def pushed (timestamps : List ℕ) (timestamp : ℕ) : List ℕ :=
  if (timestamps ++ [timestamp]).length > timestampStorageLimit then
    (timestamps ++ [timestamp]).tail
  else timestamps ++ [timestamp]

theorem le_getLastD {l : List ℕ} (hl : l.Pairwise (· ≤ ·)) {t : ℕ} (ht : t ∈ l) :
    t ≤ l.getLastD 0 := by
  obtain ⟨l, a, rfl⟩ : ∃ l' a, l = l' ++ [a] :=
    ⟨_, _, (dropLast_append_getLast (ne_nil_of_mem ht)).symm⟩
  rw [getLastD_concat]
  rcases mem_append.mp ht with ht | ht
  · exact (pairwise_append.mp hl).2.2 t ht a (by simp)
  · exact (mem_singleton.mp ht).le

section Pushed

variable {timestamps : List ℕ} {timestamp : ℕ} (hsorted : timestamps.Pairwise (· ≤ ·))
  (hlast : timestamps.getLastD 0 ≤ timestamp)
include hsorted hlast

theorem append_pairwise : (timestamps ++ [timestamp]).Pairwise (· ≤ ·) := by
  rw [pairwise_append]
  refine ⟨hsorted, pairwise_singleton _ _, fun t ht u hu => ?_⟩
  rw [mem_singleton.mp hu]
  exact (le_getLastD hsorted ht).trans hlast

theorem pushed_pairwise : (pushed timestamps timestamp).Pairwise (· ≤ ·) := by
  unfold pushed
  split_ifs
  · exact (append_pairwise hsorted hlast).sublist (tail_sublist _)
  · exact append_pairwise hsorted hlast

omit hsorted hlast in
theorem mem_pushed_self : timestamp ∈ pushed timestamps timestamp := by
  unfold pushed
  split_ifs with hlong
  · cases timestamps with
    | nil => simp [timestampStorageLimit] at hlong
    | cons t ts => simp
  · simp

theorem le_of_mem_pushed {t : ℕ} (ht : t ∈ pushed timestamps timestamp) : t ≤ timestamp := by
  have hmem : t ∈ timestamps ++ [timestamp] := by
    unfold pushed at ht
    split_ifs at ht
    · exact mem_of_mem_tail ht
    · exact ht
  rcases mem_append.mp hmem with hmem | hmem
  · exact (le_getLastD hsorted hmem).trans hlast
  · exact (mem_singleton.mp hmem).le

end Pushed

/-- The object with one more time in the history of a key. -/
def withPushed (d : DistributedData) (key : Text) (timestamps : List ℕ) (timestamp : ℕ) :
    DistributedData :=
  { d with
    updateTimestamps :=
      Function.update d.updateTimestamps key (some (pushed timestamps timestamp)) }

def withValue (d : DistributedData) (key : Text) (value : NodeData.Value) (timestamp : ℕ)
    (type : NodeData.ValueType) : DistributedData :=
  { d with data := Function.update d.data key (some (value, timestamp, type)) }

variable {d d' : DistributedData} {key : Text} {timestamps : List ℕ} {timestamp : ℕ}

theorem withPushed_updateTimestamps_self :
    (d.withPushed key timestamps timestamp).updateTimestamps key =
      some (pushed timestamps timestamp) := update_self key _ _

theorem withPushed_updateTimestamps_of_ne {other : Text} (h : other ≠ key) :
    (d.withPushed key timestamps timestamp).updateTimestamps other = d.updateTimestamps other :=
  update_of_ne h _ _

/-! ### Runs of the calls -/

section Runs

variable {d : DistributedData} {key : Text} {value oldValue : NodeData.Value}
  {timestamp oldTimestamp : ℕ} {type oldType : NodeData.ValueType} {timestamps : List ℕ}

theorem pushTimestamp_run_of_lt (h : d.updateTimestamps key = some timestamps)
    (hlt : timestamp < timestamps.getLastD 0) :
    pushTimestamp key timestamp d =
      (d, .error "The new update timestamp cannot be from earlier") := by
  simp only [pushTimestamp, get_bind_run, h]
  rw [if_pos hlt]
  rfl

theorem pushTimestamp_run_of_le (h : d.updateTimestamps key = some timestamps)
    (hle : timestamps.getLastD 0 ≤ timestamp) :
    pushTimestamp key timestamp d = (d.withPushed key timestamps timestamp, .ok true) := by
  simp only [pushTimestamp, get_bind_run, h]
  rw [if_neg hle.not_gt]
  rfl

theorem update_run_of_none (h : d.data key = none) :
    update key value timestamp type d = (d, .ok false) := by
  have hdata : updateData key value timestamp type d = (d, .ok false) := by
    simp only [updateData, get_bind_run, h]
    rfl
  rw [update, bind_run_ok hdata]
  rfl

theorem update_run_of_type_ne (h : d.data key = some (oldValue, oldTimestamp, oldType))
    (htype : oldType ≠ type) :
    update key value timestamp type d = (d, .error "value types need to stay the same") := by
  refine bind_run_error ?_
  simp only [updateData, get_bind_run, h]
  rw [if_pos htype]
  rfl

theorem update_run_of_value_ne
    (h : d.data key = some (oldValue, oldTimestamp, .kValueStatic)) (hvalue : oldValue ≠ value) :
    update key value timestamp .kValueStatic d =
      (d, .error "static values cannot get updated") := by
  refine bind_run_error ?_
  simp only [updateData, get_bind_run, h]
  rw [if_neg (not_not_intro rfl), if_pos trivial, if_neg hvalue]
  rfl

theorem update_run_of_static (h : d.data key = some (value, oldTimestamp, .kValueStatic)) :
    update key value timestamp .kValueStatic d = pushTimestamp key timestamp d := by
  have hdata : updateData key value timestamp .kValueStatic d = (d, .ok true) := by
    simp only [updateData, get_bind_run, h]
    rw [if_neg (not_not_intro rfl), if_pos trivial, if_pos trivial]
    rfl
  rw [update, bind_run_ok hdata]
  rfl

theorem update_run_of_dynamic (h : d.data key = some (oldValue, oldTimestamp, .kValueDynamic)) :
    update key value timestamp .kValueDynamic d =
      pushTimestamp key timestamp (d.withValue key value timestamp .kValueDynamic) := by
  have hdata : updateData key value timestamp .kValueDynamic d =
      (d.withValue key value timestamp .kValueDynamic, .ok true) := by
    simp only [updateData, get_bind_run, h]
    rw [if_neg (not_not_intro rfl), if_neg (by decide)]
    rfl
  rw [update, bind_run_ok hdata]
  rfl

theorem insert_data_self :
    (insert key value timestamp type d).1.data key =
      some ((d.data key).getD (value, timestamp, type)) := by
  unfold insert
  cases hdata : d.data key <;> cases htimes : d.updateTimestamps key <;> simp [hdata, htimes]

theorem insert_updateTimestamps_self :
    (insert key value timestamp type d).1.updateTimestamps key =
      some ((d.updateTimestamps key).getD [timestamp]) := by
  unfold insert
  cases hdata : d.data key <;> cases htimes : d.updateTimestamps key <;> simp [hdata, htimes]

variable {other : Text}

theorem insert_data_of_ne (h : other ≠ key) :
    (insert key value timestamp type d).1.data other = d.data other := by
  unfold insert
  cases hdata : d.data key <;> cases htimes : d.updateTimestamps key <;> simp [hdata, htimes, h]

theorem insert_updateTimestamps_of_ne (h : other ≠ key) :
    (insert key value timestamp type d).1.updateTimestamps other = d.updateTimestamps other := by
  unfold insert
  cases hdata : d.data key <;> cases htimes : d.updateTimestamps key <;> simp [hdata, htimes, h]

end Runs

/-! ### Histories stay ascending -/

theorem Ascending.of_key (hd : d.Ascending) (key : Text)
    (hother : ∀ other, other ≠ key → d'.updateTimestamps other = d.updateTimestamps other)
    (hkey : ∀ timestamps, d'.updateTimestamps key = some timestamps →
      timestamps ≠ [] ∧ timestamps.Pairwise (· ≤ ·)) : d'.Ascending := by
  intro other timestamps h
  rcases eq_or_ne other key with rfl | hne
  · exact hkey timestamps h
  · exact hd other timestamps ((hother other hne).symm.trans h)

theorem Ascending.pushTimestamp (hd : d.Ascending) (key : Text) (timestamp : ℕ) :
    (pushTimestamp key timestamp d).1.Ascending := by
  cases h : d.updateTimestamps key with
  | none =>
    have hrun : DistributedData.pushTimestamp key timestamp d = (d, .ok false) := by
      simp only [DistributedData.pushTimestamp, get_bind_run, h]
      rfl
    rw [hrun]
    exact hd
  | some timestamps =>
    rcases lt_or_ge timestamp (timestamps.getLastD 0) with hlt | hle
    · rw [pushTimestamp_run_of_lt h hlt]
      exact hd
    · rw [pushTimestamp_run_of_le h hle]
      refine hd.of_key key (fun other hne => withPushed_updateTimestamps_of_ne hne)
        fun ts hts => ?_
      rw [withPushed_updateTimestamps_self, some.injEq] at hts
      subst hts
      exact ⟨ne_nil_of_mem mem_pushed_self, pushed_pairwise (hd _ _ h).2 hle⟩

theorem Ascending.update (hd : d.Ascending) (key : Text) (value : NodeData.Value) (timestamp : ℕ)
    (type : NodeData.ValueType) : (update key value timestamp type d).1.Ascending := by
  cases hdata : d.data key with
  | none =>
    rw [update_run_of_none hdata]
    exact hd
  | some entry =>
    obtain ⟨oldValue, oldTimestamp, oldType⟩ := entry
    rcases ne_or_eq oldType type with htype | rfl
    · rw [update_run_of_type_ne hdata htype]
      exact hd
    · cases oldType with
      | kValueStatic =>
        rcases ne_or_eq oldValue value with hvalue | rfl
        · rw [update_run_of_value_ne hdata hvalue]
          exact hd
        · rw [update_run_of_static hdata]
          exact hd.pushTimestamp key timestamp
      | kValueDynamic =>
        rw [update_run_of_dynamic hdata]
        -- storing the value does not touch the histories
        exact Ascending.pushTimestamp (d := d.withValue key value timestamp .kValueDynamic)
          hd key timestamp

theorem Ascending.after (hd : d.Ascending) (call : Call) : (call.after d).Ascending := by
  cases call with
  | insert key value timestamp type =>
    refine hd.of_key key (fun other hne => ?_) fun timestamps h => ?_
    · exact insert_updateTimestamps_of_ne hne
    · rw [Call.after, Call.run, insert_updateTimestamps_self, some.injEq] at h
      cases htimes : d.updateTimestamps key with
      | none =>
        rw [htimes] at h
        subst h
        exact ⟨cons_ne_nil _ _, pairwise_singleton _ _⟩
      | some old =>
        rw [htimes] at h
        subst h
        exact hd key _ htimes
  | update key value timestamp type => exact hd.update key value timestamp type
  | remove key =>
    refine hd.of_key key (fun other hne => update_of_ne hne _ _) fun ts h => ?_
    exact absurd ((update_self key _ _).symm.trans h) (by simp)

/-! ### Aligned objects -/

section

variable (hd : d.Aligned)
include hd

theorem Aligned.of_key (key : Text) (hother : ∀ other, other ≠ key →
      d'.data other = d.data other ∧ d'.updateTimestamps other = d.updateTimestamps other)
    (hkeys : (d'.data key).isSome = (d'.updateTimestamps key).isSome)
    (hnewest : ∀ value timestamp type timestamps, d'.data key = some (value, timestamp, type) →
      d'.updateTimestamps key = some timestamps →
        timestamp ∈ timestamps ∧ ∀ t ∈ timestamps, t ≤ timestamp) : d'.Aligned where
  keys other := by
    rcases eq_or_ne other key with rfl | hne
    · exact hkeys
    · rw [(hother other hne).1, (hother other hne).2]
      exact hd.keys other
  newest other value timestamp type timestamps hdata htimes := by
    rcases eq_or_ne other key with rfl | hne
    · exact hnewest value timestamp type timestamps hdata htimes
    · rw [(hother other hne).1] at hdata
      rw [(hother other hne).2] at htimes
      exact hd.newest other value timestamp type timestamps hdata htimes

theorem Aligned.getLastD_eq (hasc : d.Ascending) {value : NodeData.Value}
    {type : NodeData.ValueType} (hdata : d.data key = some (value, timestamp, type))
    (htimes : d.updateTimestamps key = some timestamps) : timestamps.getLastD 0 = timestamp := by
  obtain ⟨hmem, hle⟩ := hd.newest key value timestamp type timestamps hdata htimes
  obtain ⟨hne, hsorted⟩ := hasc key timestamps htimes
  refine le_antisymm (hle _ ?_) (le_getLastD hsorted hmem)
  rw [getLastD_eq_getLast?, getLast?_eq_some_getLast hne]
  exact getLast_mem hne

theorem Aligned.exists_updateTimestamps {entry : NodeData.Value × ℕ × NodeData.ValueType}
    (hdata : d.data key = some entry) : ∃ timestamps, d.updateTimestamps key = some timestamps := by
  rw [← isSome_iff_exists, ← hd.keys key, hdata]
  rfl

theorem Aligned.insert (key : Text) (value : NodeData.Value) (timestamp : ℕ)
    (type : NodeData.ValueType) : ((Call.insert key value timestamp type).after d).Aligned := by
  cases hdata : d.data key with
  | none =>
    have htimes : d.updateTimestamps key = none := by
      rw [← isSome_eq_false_iff.trans isNone_iff_eq_none, ← hd.keys key, hdata]
      rfl
    refine hd.of_key key
      (fun other hne => ⟨insert_data_of_ne hne, insert_updateTimestamps_of_ne hne⟩) ?_ ?_
    · rw [Call.after, Call.run, insert_data_self, insert_updateTimestamps_self]
      rfl
    · intro newValue newTimestamp newType timestamps hnew hnewTimes
      rw [Call.after, Call.run, insert_data_self, hdata] at hnew
      rw [Call.after, Call.run, insert_updateTimestamps_self, htimes] at hnewTimes
      cases hnew
      cases hnewTimes
      simp
  | some entry =>
    obtain ⟨timestamps, htimes⟩ := hd.exists_updateTimestamps hdata
    have hsame : (Call.insert key value timestamp type).after d = d := by
      simp [Call.after, Call.run, DistributedData.insert, hdata, htimes]
    rw [hsame]
    exact hd

theorem Aligned.remove (key : Text) : ((Call.remove key).after d).Aligned := by
  have hdata : ((Call.remove key).after d).data key = none := update_self key _ _
  have htimes : ((Call.remove key).after d).updateTimestamps key = none :=
    update_self key _ _
  refine hd.of_key key
    (fun other hne => ⟨update_of_ne hne _ _, update_of_ne hne _ _⟩) ?_ ?_
  · rw [hdata, htimes]
    rfl
  · intro value timestamp type timestamps h
    rw [hdata] at h
    cases h

end

/-! ### Updates of aligned objects -/

section Updates

variable {d : DistributedData} (hd : d.Aligned) (hasc : d.Ascending) {key : Text}
  {value oldValue : NodeData.Value} {timestamp oldTimestamp : ℕ}
include hd hasc

/-- A static value keeps its time, whatever is added to the history. -/
theorem aligned_update_static_iff
    (hdata : d.data key = some (value, oldTimestamp, .kValueStatic)) :
    (Call.update key value timestamp .kValueStatic).Atomic d ∧
        ((Call.update key value timestamp .kValueStatic).after d).Aligned ↔
      timestamp ≤ oldTimestamp := by
  obtain ⟨timestamps, htimes⟩ := hd.exists_updateTimestamps hdata
  have hlast := hd.getLastD_eq hasc hdata htimes
  simp only [Call.Atomic, Call.after, Call.run, update_run_of_static hdata]
  rcases lt_or_ge timestamp oldTimestamp with hlt | hle
  · rw [pushTimestamp_run_of_lt htimes (hlast ▸ hlt)]
    exact iff_of_true ⟨fun _ => rfl, hd⟩ hlt.le
  · rw [pushTimestamp_run_of_le htimes (hlast ▸ hle)]
    constructor
    · rintro ⟨-, haligned⟩
      exact (haligned.newest key value oldTimestamp _ _ hdata
        withPushed_updateTimestamps_self).2 timestamp mem_pushed_self
    · intro hge
      obtain rfl : timestamp = oldTimestamp := le_antisymm hge hle
      refine ⟨fun h => absurd rfl h, hd.of_key key (fun other hne =>
        ⟨rfl, withPushed_updateTimestamps_of_ne hne⟩) ?_ ?_⟩
      · rw [withPushed_updateTimestamps_self]
        exact congrArg isSome hdata
      · intro newValue newTimestamp newType ts hnew hts
        rw [withPushed_updateTimestamps_self, some.injEq] at hts
        cases hdata.symm.trans hnew
        subst hts
        exact ⟨mem_pushed_self, fun t => le_of_mem_pushed (hasc key _ htimes).2 hlast.le⟩

/-- A dynamic value is stored before the history refuses its time. -/
theorem aligned_update_dynamic_iff
    (hdata : d.data key = some (oldValue, oldTimestamp, .kValueDynamic)) :
    (Call.update key value timestamp .kValueDynamic).Atomic d ∧
        ((Call.update key value timestamp .kValueDynamic).after d).Aligned ↔
      oldTimestamp ≤ timestamp := by
  obtain ⟨timestamps, htimes⟩ := hd.exists_updateTimestamps hdata
  have hlast := hd.getLastD_eq hasc hdata htimes
  have hstored : (d.withValue key value timestamp .kValueDynamic).data key =
      some (value, timestamp, .kValueDynamic) := update_self key _ _
  have htimes' : (d.withValue key value timestamp .kValueDynamic).updateTimestamps key =
      some timestamps := htimes
  simp only [Call.Atomic, Call.after, Call.run, update_run_of_dynamic hdata]
  rcases lt_or_ge timestamp oldTimestamp with hlt | hle
  · rw [pushTimestamp_run_of_lt htimes' (hlast ▸ hlt)]
    refine iff_of_false (fun h => ?_) hlt.not_ge
    have hsame := h.1 (fun h => by cases h)
    have hdata' := congrArg (fun e => e.data key) hsame
    rw [hstored, hdata] at hdata'
    cases hdata'
    exact lt_irrefl _ hlt
  · rw [pushTimestamp_run_of_le htimes' (hlast ▸ hle)]
    refine iff_of_true ⟨fun h => absurd rfl h, hd.of_key key (fun other hne =>
      ⟨update_of_ne hne _ _, withPushed_updateTimestamps_of_ne hne⟩) ?_ ?_⟩ hle
    · rw [withPushed_updateTimestamps_self]
      exact congrArg isSome hstored
    · intro newValue newTimestamp newType ts hnew hts
      rw [withPushed_updateTimestamps_self, some.injEq] at hts
      cases hstored.symm.trans hnew
      subst hts
      exact ⟨mem_pushed_self, fun t => le_of_mem_pushed (hasc key _ htimes).2 (hlast ▸ hle)⟩

/-- One call keeps an aligned object aligned exactly if it is in time. -/
theorem aligned_after_iff (call : Call) :
    call.Atomic d ∧ (call.after d).Aligned ↔ call.InTime d := by
  cases call with
  | insert key value timestamp type =>
    exact iff_of_true ⟨trivial, hd.insert key value timestamp type⟩ trivial
  | remove key => exact iff_of_true ⟨trivial, hd.remove key⟩ trivial
  | update key value timestamp type =>
    cases hdata : d.data key with
    | none =>
      simp only [Call.Atomic, Call.after, Call.run, Call.InTime, update_run_of_none hdata]
      refine iff_of_true ⟨fun _ => trivial, hd⟩ fun v t h => ?_
      rw [hdata] at h
      cases h
    | some entry =>
      obtain ⟨oldValue, oldTimestamp, oldType⟩ := entry
      rcases ne_or_eq oldType type with htype | rfl
      · simp only [Call.Atomic, Call.after, Call.run, Call.InTime,
          update_run_of_type_ne hdata htype]
        refine iff_of_true ⟨fun _ => trivial, hd⟩ fun v t h => ?_
        rw [hdata] at h
        cases h
        exact absurd rfl htype
      · cases oldType with
        | kValueStatic =>
          rcases ne_or_eq oldValue value with hvalue | rfl
          · simp only [Call.Atomic, Call.after, Call.run, Call.InTime,
              update_run_of_value_ne hdata hvalue]
            refine iff_of_true ⟨fun _ => trivial, hd⟩ fun v t h => ?_
            rw [hdata] at h
            cases h
            exact ⟨nofun, fun _ h => absurd h hvalue⟩
          · rw [aligned_update_static_iff hd hasc hdata]
            simp [Call.InTime, hdata]
        | kValueDynamic =>
          rw [aligned_update_dynamic_iff hd hasc hdata]
          simp [Call.InTime, hdata]

end Updates

/-! ### Sequences of calls -/

theorem AlignedThroughout.aligned {calls : List Call} (h : d.AlignedThroughout calls) :
    d.Aligned := by
  cases calls with
  | nil => exact h
  | cons call calls => exact h.1

theorem alignedThroughout_iff (hd : d.Aligned) (hasc : d.Ascending) (calls : List Call) :
    d.AlignedThroughout calls ↔ d.InTimeThroughout calls := by
  induction calls generalizing d with
  | nil => exact iff_of_true hd trivial
  | cons call calls ih =>
    constructor
    · rintro ⟨-, hatomic, hrest⟩
      refine ⟨(aligned_after_iff hd hasc call).mp ⟨hatomic, hrest.aligned⟩, ?_⟩
      exact (ih hrest.aligned (hasc.after call)).mp hrest
    · rintro ⟨hintime, hrest⟩
      obtain ⟨hatomic, haligned⟩ := (aligned_after_iff hd hasc call).mpr hintime
      exact ⟨hd, hatomic, (ih haligned (hasc.after call)).mpr hrest⟩

theorem ofPhysical_aligned (physical : Option Address) : (ofPhysical physical).Aligned where
  keys _ := rfl
  newest _ _ _ _ _ h := by cases h

theorem ofPhysical_ascending (physical : Option Address) : (ofPhysical physical).Ascending :=
  fun _ _ h => by cases h

/-- Values and histories stay aligned and failed updates change nothing,
exactly if no update of a dynamic value goes back in time and no static value
is confirmed with a later time. -/
theorem updates_alignedThroughout (physical : Option Address) (calls : List Call) :
    (ofPhysical physical).AlignedThroughout calls ↔
      (ofPhysical physical).InTimeThroughout calls :=
  alignedThroughout_iff (ofPhysical_aligned physical) (ofPhysical_ascending physical) calls

/-- A temperature of time 10 is updated with a value of time 5: the update
throws, and the earlier value is stored nevertheless. -/
theorem update_earlier_not_atomic :
    ¬ (ofPhysical none).AlignedThroughout
      [.insert "temperature".toList (.int 20) 10 .kValueDynamic,
        .update "temperature".toList (.int 30) 5 .kValueDynamic] := by
  rintro ⟨-, -, -, hatomic, -⟩
  have h := congrArg (fun d => d.data "temperature".toList) (hatomic (by decide +kernel))
  revert h
  decide +kernel

end DistributedData

end Sola.Minhton
