import Mathlib.Data.List.Count
import Sola.Daisi.Paxos

/-!
Replication of accepted proposals
(`daisi/src/path_planning/consensus/paxos/paxos_replication_manager.cpp`).

All acceptors of an instance send its data, and the manager counts the messages
down.  The counter is created by the first message with two less than the
number of participants, and only a later message tests it for zero.
-/

namespace Sola.Daisi

open Sola.Lib Action List
open Sola.Minhton (u32 u32Pred)

structure ReplicationMessage where
  instanceId : ℕ
  proposalId : ℕ
  stationId : ℕ
deriving DecidableEq

/-- What the ledger holds for an instance. -/
structure ReplicationData where
  proposalId : ℕ
  stationId : ℕ
deriving DecidableEq

def ReplicationMessage.data (msg : ReplicationMessage) : ReplicationData :=
  ⟨msg.proposalId, msg.stationId⟩

structure UnfinishedData where
  data : ReplicationData
  remainingReplications : ℕ
deriving DecidableEq

/-- The keys of the outstanding data are the three numbers of a message.  The
calls of the logger are kept in `reported`. -/
structure PaxosReplicationManager where
  log : ℕ → Option ReplicationData
  outstandingData : ReplicationMessage → Option UnfinishedData
  reported : List (ℕ × ReplicationData)

namespace PaxosReplicationManager

abbrev Handler (α : Type) : Type := Action PaxosReplicationManager α

def init : PaxosReplicationManager := ⟨fun _ => none, fun _ => none, []⟩

def processReplicationMessage (settings : PaxosSettings) (msg : ReplicationMessage) :
    Handler Unit := do
  let s ← Action.get
  if (s.log msg.instanceId).isSome then
    Action.throw "already accepted for this instance! Duplicate message"
  else
    match s.outstandingData msg with
    | some unfinished =>
      let remaining := u32Pred unfinished.remainingReplications
      if remaining = 0 then
        Action.modify fun s =>
          { log := Function.update s.log msg.instanceId (some unfinished.data)
            outstandingData := Function.update s.outstandingData msg none
            reported := s.reported ++ [(msg.instanceId, unfinished.data)] }
      else
        Action.modify fun s =>
          { s with
            outstandingData := Function.update s.outstandingData msg
              (some { unfinished with remainingReplications := remaining }) }
    | none =>
      -- this message was received already and the proposer does not replicate
      Action.modify fun s =>
        { s with
          outstandingData := Function.update s.outstandingData msg
            (some ⟨msg.data, u32 (settings.numberPaxosParticipants - 2)⟩) }

/-- The manager after some messages. -/
def receive (settings : PaxosSettings) (msgs : List ReplicationMessage) : Handler Unit :=
  Action.forEach msgs (processReplicationMessage settings)

/-! ### Completion -/

/-- Messages of which each instance has at most `bound`, all with its data. -/
structure Traffic (bound : ℕ) (msgs : List ReplicationMessage) : Prop where
  agree : ∀ msg ∈ msgs, ∀ msg' ∈ msgs, msg.instanceId = msg'.instanceId → msg = msg'
  count_le : ∀ msg, msgs.count msg ≤ bound

theorem Traffic.sublist {bound : ℕ} {msgs msgs' : List ReplicationMessage}
    (h : Traffic bound msgs') (hsub : msgs.Sublist msgs') : Traffic bound msgs :=
  ⟨fun m hm m' hm' => h.agree m (hsub.subset hm) m' (hsub.subset hm'),
    fun m => (hsub.count_le m).trans (h.count_le m)⟩

/-- The manager handles a message and reports its instance if that was the message with the
given number. -/
def ReportsAt (settings : PaxosSettings) (number : ℕ) (msgs : List ReplicationMessage)
    (msg : ReplicationMessage) : Prop :=
  ∃ s s', receive settings msgs init = (s, .ok ()) ∧
    processReplicationMessage settings msg s = (s', .ok ()) ∧
    s'.reported = s.reported ++
      if (msgs ++ [msg]).count msg = number then
        [(msg.instanceId, msg.data)]
      else []

/-- Every instance is reported when the last one of its messages arrives, and only then. -/
def ReportsAtCompletion (settings : PaxosSettings) : Prop :=
  ∀ msgs msg, Traffic (settings.numberPaxosParticipants - 1) (msgs ++ [msg]) →
    ReportsAt settings (settings.numberPaxosParticipants - 1) msgs msg

/-- How many messages after the first one count the counter down to zero. -/
def countdown (settings : PaxosSettings) : ℕ :=
  if u32 (settings.numberPaxosParticipants - 2) = 0 then 2 ^ 32
  else u32 (settings.numberPaxosParticipants - 2)

variable {settings : PaxosSettings} {msgs : List ReplicationMessage} {msg : ReplicationMessage}
  {s : PaxosReplicationManager}

theorem countdown_bounds :
    0 < countdown settings ∧ countdown settings ≤ 2 ^ 32 ∧
      u32 (countdown settings) = u32 (settings.numberPaxosParticipants - 2) := by
  unfold countdown u32
  split_ifs with h <;> omega

/-- What is outstanding after a number of messages. -/
def entryAfter (settings : PaxosSettings) (msg : ReplicationMessage) (number : ℕ) :
    Option UnfinishedData :=
  if number = 0 ∨ countdown settings < number then none
  else some ⟨msg.data, u32 (countdown settings + 1 - number)⟩

theorem entryAfter_zero : entryAfter settings msg 0 = none := if_pos (.inl rfl)

theorem entryAfter_of_lt {number : ℕ} (h : countdown settings < number) :
    entryAfter settings msg number = none := if_pos (.inr h)

theorem entryAfter_of_le {number : ℕ} (h : number + 1 ≤ countdown settings) :
    entryAfter settings msg (number + 1) =
      some ⟨msg.data, u32 (countdown settings - number)⟩ := by
  rw [entryAfter, if_neg (by omega), Nat.add_sub_add_right]

/-- The message after `number` other ones of its instance. -/
theorem processReplicationMessage_run {number : ℕ} (hlog : s.log msg.instanceId = none)
    (hentry : s.outstandingData msg = entryAfter settings msg number)
    (hle : number ≤ countdown settings) :
    processReplicationMessage settings msg s =
      ({ log := if number = countdown settings then
            Function.update s.log msg.instanceId (some msg.data) else s.log
         outstandingData := Function.update s.outstandingData msg
            (entryAfter settings msg (number + 1))
         reported := s.reported ++
            if number = countdown settings then [(msg.instanceId, msg.data)] else [] },
        .ok ()) := by
  obtain ⟨hpos, hbound, hmod⟩ := countdown_bounds
  rcases number with _ | number
  · rw [entryAfter_zero] at hentry
    rw [if_neg hpos.ne, if_neg hpos.ne, entryAfter_of_le hpos, Nat.sub_zero, hmod]
    simp [processReplicationMessage, hlog, hentry]
  · rw [entryAfter_of_le hle] at hentry
    have hremaining : u32Pred (u32 (countdown settings - number)) =
        countdown settings - (number + 1) := by
      unfold u32Pred u32
      split_ifs <;> omega
    by_cases hlast : number + 1 = countdown settings
    · rw [if_pos hlast, if_pos hlast, entryAfter_of_lt (by omega)]
      simp [processReplicationMessage, hlog, hentry, hremaining, hlast]
    · have hmore : countdown settings - (number + 1) ≠ 0 := by omega
      rw [if_neg hlast, if_neg hlast, entryAfter_of_le (by omega), u32,
        Nat.mod_eq_of_lt (by omega)]
      simp [processReplicationMessage, hlog, hentry, hremaining, hmore]

/-- What the manager knows after some messages. -/
structure Counts (settings : PaxosSettings) (msgs : List ReplicationMessage)
    (s : PaxosReplicationManager) : Prop where
  logged : ∀ i data, s.log i = some data →
    ∃ msg ∈ msgs, msg.instanceId = i ∧ msgs.count msg = countdown settings + 1
  outstanding : ∀ msg, s.outstandingData msg = entryAfter settings msg (msgs.count msg)

/-- One more message. -/
theorem Counts.process (h : Counts settings msgs s)
    (htraffic : Traffic (countdown settings + 1) (msgs ++ [msg])) :
    ∃ s', processReplicationMessage settings msg s = (s', .ok ()) ∧
      Counts settings (msgs ++ [msg]) s' ∧
      s'.reported = s.reported ++
        if msgs.count msg = countdown settings then [(msg.instanceId, msg.data)] else [] := by
  have hself : (msgs ++ [msg]).count msg = msgs.count msg + 1 := by simp [count_append]
  have hother : ∀ m, m ≠ msg → (msgs ++ [msg]).count m = msgs.count m := by
    intro m hm
    simp [count_append, Ne.symm hm]
  have hcount : msgs.count msg ≤ countdown settings := by
    have hle := htraffic.count_le msg
    omega
  -- an instance in the log has had all its messages
  have hlog : s.log msg.instanceId = none := by
    by_contra hsome
    obtain ⟨data, hdata⟩ := Option.ne_none_iff_exists'.mp hsome
    obtain ⟨m, hm, hinstance, hfull⟩ := h.logged _ data hdata
    obtain rfl := htraffic.agree m (by simp [hm]) msg (by simp) hinstance
    omega
  have hlogged : ∀ i data, s.log i = some data → ∃ m ∈ msgs ++ [msg], m.instanceId = i ∧
      (msgs ++ [msg]).count m = countdown settings + 1 := by
    intro i data hdata
    obtain ⟨m, hm, hinstance, hfull⟩ := h.logged i data hdata
    have hne : m ≠ msg := by
      rintro rfl
      omega
    exact ⟨m, by simp [hm], hinstance, (hother m hne).trans hfull⟩
  refine ⟨_, processReplicationMessage_run hlog (h.outstanding msg) hcount, ⟨?_, ?_⟩, rfl⟩
  · intro i data hdata
    dsimp only at hdata
    split_ifs at hdata with hlast
    · by_cases hi : i = msg.instanceId
      · exact ⟨msg, by simp, hi.symm, by omega⟩
      · exact hlogged i data (by rwa [Function.update_of_ne hi] at hdata)
    · exact hlogged i data hdata
  · intro m
    dsimp only
    by_cases hm : m = msg
    · rw [hm, Function.update_self, hself]
    · rw [Function.update_of_ne hm, hother m hm, h.outstanding]

/-- All messages of the traffic. -/
theorem Traffic.receive (h : Traffic (countdown settings + 1) msgs) :
    ∃ s, receive settings msgs init = (s, .ok ()) ∧ Counts settings msgs s := by
  induction msgs using reverseRecOn with
  | nil => exact ⟨init, rfl, ⟨nofun, fun _ => entryAfter_zero.symm⟩⟩
  | append_singleton msgs msg ih =>
    obtain ⟨s, hrun, hcounts⟩ := ih (h.sublist (sublist_append_left _ _))
    obtain ⟨s', hstep, hcounts', _⟩ := hcounts.process h
    refine ⟨s', ?_, hcounts'⟩
    rw [PaxosReplicationManager.receive, forEach_append, forEach_singleton]
    exact (bind_run_ok hrun).trans hstep

theorem reportsAt_iff {number : ℕ} (h : Traffic (countdown settings + 1) (msgs ++ [msg])) :
    ReportsAt settings number msgs msg ↔
      (msgs.count msg + 1 = number ↔ msgs.count msg = countdown settings) := by
  obtain ⟨s, hrun, hcounts⟩ := Traffic.receive (h.sublist (sublist_append_left _ _))
  obtain ⟨s', hstep, _, hreported⟩ := hcounts.process h
  have hself : (msgs ++ [msg]).count msg = msgs.count msg + 1 := by simp [count_append]
  constructor
  · rintro ⟨s₁, s₁', hrun₁, hstep₁, hreported₁⟩
    cases hrun.symm.trans hrun₁
    cases hstep.symm.trans hstep₁
    rw [hreported, append_cancel_left_eq, hself] at hreported₁
    split_ifs at hreported₁ with hl hn <;> simp_all
  · intro hiff
    refine ⟨s, s', hrun, hstep, ?_⟩
    rw [hreported, hself]
    simp only [hiff]

/-- The messages are counted as they should be unless the counter starts at zero or the number
of participants does not fit into it. -/
theorem reportsAtCompletion_iff (hn : 2 ≤ settings.numberPaxosParticipants) :
    ReportsAtCompletion settings ↔
      3 ≤ settings.numberPaxosParticipants ∧ settings.numberPaxosParticipants ≤ 2 ^ 32 + 2 := by
  have hcountdown : countdown settings + 1 = settings.numberPaxosParticipants - 1 ↔
      3 ≤ settings.numberPaxosParticipants ∧
        settings.numberPaxosParticipants ≤ 2 ^ 32 + 2 := by
    unfold countdown u32
    split_ifs <;> omega
  rw [← hcountdown]
  constructor
  · intro h
    -- copies of one message, up to the one that is reported or should be
    let number := min (countdown settings) (settings.numberPaxosParticipants - 2)
    have hcount : (replicate number (⟨0, 0, 0⟩ : ReplicationMessage)).count ⟨0, 0, 0⟩ =
        number := count_replicate_self
    have htraffic : ∀ bound, number < bound →
        Traffic bound (replicate number (⟨0, 0, 0⟩ : ReplicationMessage) ++ [⟨0, 0, 0⟩]) := by
      intro bound hlt
      rw [← replicate_succ']
      refine ⟨fun m hm m' hm' _ => ?_, fun m => ?_⟩
      · rw [(mem_replicate.mp hm).2, (mem_replicate.mp hm').2]
      · exact count_le_length.trans (by rwa [length_replicate])
    have hreports := (reportsAt_iff (htraffic _ (by omega))).mp (h _ _ (htraffic _ (by omega)))
    rw [hcount] at hreports
    omega
  · intro heq msgs msg htraffic
    rw [← heq] at htraffic ⊢
    exact (reportsAt_iff htraffic).mpr (by omega)

theorem reportsAtCompletion_three : ReportsAtCompletion ⟨3, 0, 0, []⟩ :=
  (reportsAtCompletion_iff (by decide)).mpr (by decide)

/-- With two participants the only message of an instance finds no counter yet. -/
theorem not_reportsAtCompletion_two : ¬ ReportsAtCompletion ⟨2, 0, 0, []⟩ := by
  intro h
  obtain ⟨s, s', hrun, hstep, hreported⟩ := h [] ⟨0, 0, 0⟩ ⟨by simp, fun _ => count_le_length⟩
  cases hrun
  cases hstep
  cases hreported

end PaxosReplicationManager

end Sola.Daisi
