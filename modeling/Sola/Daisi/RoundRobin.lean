import Mathlib.Data.List.MinMax
import Sola.Daisi.TaskManagement
import Sola.Lib.Action
import Sola.Lib.Transitions
import Sola.Minhton.RoutingCalculations

/-!
The central assignment of tasks by round robin
(`daisi/src/cpps/logical/algorithms/assignment/round_robin_initiator.cpp`).

For each ability there is a priority queue of participants, and a task goes to
one of those with the fewest assignments among the abilities that fit.  Which of
several least participants a queue has at its top is up to the queue.  There is
one material flow.  Next to the messages sent, the model keeps which acceptances
were processed and whether an end iterator was erased.
-/

namespace Sola.Daisi

open Sola.Lib Action Function
open Sola.Minhton (u32)

structure ParticipantInfoRoundRobin where
  connectionString : ℕ
  ability : AmrStaticAbility
  assignmentCounter : ℕ
deriving DecidableEq

structure RoundRobinTask where
  uuid : ℕ
  abilityRequirement : AmrStaticAbility

/-- What a priority queue has at its top. -/
structure QueueOrder where
  top : List ParticipantInfoRoundRobin → Option ParticipantInfoRoundRobin
  top_eq_none : ∀ q, top q = none → q = []
  top_mem : ∀ q p, top q = some p → p ∈ q
  top_le : ∀ q p, top q = some p → ∀ p' ∈ q, p.assignmentCounter ≤ p'.assignmentCounter

inductive RoundRobinActivity
  | assigned (participant task : ℕ)
  | accepted (task : ℕ)
deriving DecidableEq

/-- The task is assigned after its acceptance has been processed. -/
def RoundRobinActivity.reassigns : RoundRobinActivity → RoundRobinActivity → Bool
  | .accepted task, .assigned _ task' => task = task'
  | _, _ => false

structure RoundRobinInitiator where
  participantsPerAbility : AmrStaticAbility → List ParticipantInfoRoundRobin
  unallocatedTasks : List RoundRobinTask
  assignmentAcceptions : List ℕ
  /-- `processAssignmentAcceptions` is scheduled. -/
  scheduled : Bool
  activities : List RoundRobinActivity
  erasedEnd : Bool

namespace RoundRobinInitiator

abbrev Handler (α : Type) : Type := Action RoundRobinInitiator α

def init : RoundRobinInitiator := ⟨fun _ => [], [], [], false, [], false⟩

def storeParticipant (s : RoundRobinInitiator) (info : ℕ × AmrStaticAbility) :
    RoundRobinInitiator :=
  { s with
    participantsPerAbility := Function.update s.participantsPerAbility info.2
      (s.participantsPerAbility info.2 ++ [⟨info.1, info.2, 0⟩]) }

/-- `AmrFleet::getFittingExistingAbilities`. -/
def getFittingExistingAbilities (fleet : List AmrStaticAbility) (requirement : AmrStaticAbility) :
    List AmrStaticAbility :=
  fleet.filter fun ability => requirement.le ability

/-- Compare with the candidates so far, which all have the same counter. -/
def addCandidate (candidates : List ParticipantInfoRoundRobin) (first : ParticipantInfoRoundRobin) :
    List ParticipantInfoRoundRobin :=
  match candidates with
  | [] => [first]
  | candidate :: _ =>
    if first.assignmentCounter < candidate.assignmentCounter then [first]
    else if first.assignmentCounter = candidate.assignmentCounter then candidates ++ [first]
    else candidates

def possibleCandidates (order : QueueOrder) (s : RoundRobinInitiator) :
    List AmrStaticAbility → List ParticipantInfoRoundRobin →
      Except String (List ParticipantInfoRoundRobin)
  | [], candidates => .ok candidates
  | ability :: abilities, candidates =>
    match order.top (s.participantsPerAbility ability) with
    | none => .error "top of an empty queue"
    | some first => possibleCandidates order s abilities (addCandidate candidates first)

def chooseParticipantForTask (fleet : List AmrStaticAbility) (order : QueueOrder) (random : ℕ)
    (s : RoundRobinInitiator) (task : RoundRobinTask) :
    Except String ParticipantInfoRoundRobin := do
  let fittingAbilities := getFittingExistingAbilities fleet task.abilityRequirement
  if fittingAbilities.isEmpty then
    .error "The task requirements cannot be met by any participant."
  else
    let candidates ← possibleCandidates order s fittingAbilities []
    match candidates[random % candidates.length]? with
    | none => .error "No AMR matches the task requirements"
    | some chosen => return chosen

/-- Remove the top of a queue. -/
def pop (order : QueueOrder) (queue : List ParticipantInfoRoundRobin) :
    List ParticipantInfoRoundRobin :=
  match order.top queue with
  | none => queue
  | some first => queue.erase first

/-- Send the notification and update the queue of the participant. -/
def notify (order : QueueOrder) (task : RoundRobinTask) (chosen : ParticipantInfoRoundRobin)
    (s : RoundRobinInitiator) : RoundRobinInitiator :=
  { s with
    activities := s.activities ++ [.assigned chosen.connectionString task.uuid]
    participantsPerAbility := Function.update s.participantsPerAbility chosen.ability
      (pop order (s.participantsPerAbility chosen.ability) ++
        [{ chosen with assignmentCounter := u32 (chosen.assignmentCounter + 1) }]) }

def assignTask (fleet : List AmrStaticAbility) (order : QueueOrder) (random : ℕ)
    (task : RoundRobinTask) : Handler Unit := do
  let s ← Action.get
  let chosen ← Action.lift (chooseParticipantForTask fleet order random s task)
  Action.modify (notify order task chosen)

/-- The queue and the random number for each task are up to the environment. -/
def distributeMFTasks (fleet : List AmrStaticAbility) (choice : RoundRobinTask → QueueOrder × ℕ)
    (tasks : List RoundRobinTask) (previouslyAllocated : Bool) : Handler Unit := do
  let s ← Action.get
  let tasks := if previouslyAllocated then s.unallocatedTasks else tasks
  Action.modify fun s => { s with unallocatedTasks := tasks }
  Action.forEach tasks fun task => assignTask fleet (choice task).1 (choice task).2 task
  Action.modify fun s => { s with scheduled := true }

def process (task : ℕ) (doesAccept : Bool) : Handler Unit := do
  if doesAccept then
    Action.modify fun s => { s with assignmentAcceptions := s.assignmentAcceptions ++ [task] }
  else Action.throw "The AMR should always accept the task assignment!"

/-- Erase the accepted tasks; `none` if one of them is not there. -/
def eraseAccepted : List RoundRobinTask → List ℕ → Option (List RoundRobinTask)
  | tasks, [] => some tasks
  | tasks, uuid :: uuids =>
    if tasks.any fun task => task.uuid = uuid then
      eraseAccepted (tasks.eraseP fun task => task.uuid = uuid) uuids
    else none

/-- The tasks are erased from a copy of the unallocated ones. -/
def processAssignmentAcceptions (fleet : List AmrStaticAbility)
    (choice : RoundRobinTask → QueueOrder × ℕ) : Handler Unit := do
  let s ← Action.get
  match eraseAccepted s.unallocatedTasks s.assignmentAcceptions with
  | none =>
    Action.modify fun s => { s with erasedEnd := true }
    Action.throw "undefined behaviour"
  | some distributedTasks =>
    Action.modify fun s =>
      { s with activities := s.activities ++ s.assignmentAcceptions.map .accepted }
    if !distributedTasks.isEmpty then distributeMFTasks fleet choice [] true

/-! ### Fairness -/

/-- One call of `assignTask` with the choices of the environment. -/
structure AssignTaskCall where
  task : RoundRobinTask
  order : QueueOrder
  random : ℕ

section Fairness

variable (fleet : List AmrStaticAbility) (s : RoundRobinInitiator) (call : AssignTaskCall)

def assign (s : RoundRobinInitiator) (call : AssignTaskCall) :
    RoundRobinInitiator × Except String Unit :=
  assignTask fleet call.order call.random call.task s

/-- The stored participants of the fleet. -/
def participants : List ParticipantInfoRoundRobin := fleet.flatMap s.participantsPerAbility

/-- Every ability of the fleet that fits the task has a participant. -/
def HasParticipants : Prop :=
  ∀ ability ∈ getFittingExistingAbilities fleet call.task.abilityRequirement,
    s.participantsPerAbility ability ≠ []

/-- A participant with the fewest assignments among those that fit gets the task and one more
assignment, and nothing else changes.  Without a fitting ability there is an exception. -/
def AssignsFairly : Prop :=
  if getFittingExistingAbilities fleet call.task.abilityRequirement = [] then
    ∃ e, assign fleet s call = (s, .error e)
  else
    ∃ chosen ∈ participants fleet s, ∃ s', assign fleet s call = (s', .ok ()) ∧
      s'.activities = s.activities ++ [.assigned chosen.connectionString call.task.uuid] ∧
      call.task.abilityRequirement.le chosen.ability = true ∧
      (∀ p ∈ participants fleet s, call.task.abilityRequirement.le p.ability = true →
        chosen.assignmentCounter ≤ p.assignmentCounter) ∧
      (participants fleet s').Perm
        ({ chosen with assignmentCounter := chosen.assignmentCounter + 1 } ::
          (participants fleet s).erase chosen)

/-- Participants are stored under their ability, which is one of the fleet. -/
def Stored : Prop :=
  ∀ ability, ∀ p ∈ s.participantsPerAbility ability, p.ability = ability ∧ ability ∈ fleet

end Fairness

variable {fleet : List AmrStaticAbility} {s : RoundRobinInitiator} {call : AssignTaskCall}
  {order : QueueOrder} {abilities : List AmrStaticAbility}
  {candidates : List ParticipantInfoRoundRobin} {p : ParticipantInfoRoundRobin}

theorem Stored.mem_participants (h : s.Stored fleet) :
    p ∈ participants fleet s ↔ p ∈ s.participantsPerAbility p.ability := by
  simp only [participants, List.mem_flatMap]
  constructor
  · rintro ⟨ability, -, hp⟩
    rwa [(h ability p hp).1]
  · intro hp
    exact ⟨p.ability, (h p.ability p hp).2, hp⟩

/-- The candidates are at the top of their queues, and nobody in the queues is less. -/
structure Leading (order : QueueOrder) (s : RoundRobinInitiator)
    (abilities : List AmrStaticAbility) (candidates : List ParticipantInfoRoundRobin) :
    Prop where
  top : ∀ c ∈ candidates, ∃ a ∈ abilities, order.top (s.participantsPerAbility a) = some c
  le : ∀ c ∈ candidates, ∀ a ∈ abilities, ∀ p ∈ s.participantsPerAbility a,
    c.assignmentCounter ≤ p.assignmentCounter
  nonempty : abilities ≠ [] → candidates ≠ []

theorem of_mem_addCandidate (h : ∀ c ∈ candidates, ∀ c' ∈ candidates,
      c.assignmentCounter ≤ c'.assignmentCounter) {c : ParticipantInfoRoundRobin}
    (hc : c ∈ addCandidate candidates p) :
    (c = p ∨ c ∈ candidates) ∧ c.assignmentCounter ≤ p.assignmentCounter ∧
      ∀ c' ∈ candidates, c.assignmentCounter ≤ c'.assignmentCounter := by
  cases candidates with
  | nil => simp_all [addCandidate]
  | cons candidate others =>
    have hhead : candidate ∈ candidate :: others := List.mem_cons_self
    unfold addCandidate at hc
    grind

theorem addCandidate_ne_nil : addCandidate candidates p ≠ [] := by
  unfold addCandidate
  split
  · simp
  · split_ifs <;> simp

/-- One round of the loop over the abilities. -/
theorem Leading.addCandidate (h : Leading order s abilities candidates) {ability : AmrStaticAbility}
    (htop : order.top (s.participantsPerAbility ability) = some p) :
    Leading order s (abilities ++ [ability]) (addCandidate candidates p) := by
  have hequal : ∀ c ∈ candidates, ∀ c' ∈ candidates,
      c.assignmentCounter ≤ c'.assignmentCounter := by
    intro c hc c' hc'
    obtain ⟨a, ha, hc'top⟩ := h.top c' hc'
    exact h.le c hc a ha c' (order.top_mem _ _ hc'top)
  refine ⟨fun c hc => ?_, fun c hc a ha q hq => ?_, fun _ => addCandidate_ne_nil⟩
  · rcases (of_mem_addCandidate hequal hc).1 with rfl | hold
    · exact ⟨ability, by simp, htop⟩
    · obtain ⟨a, ha, hatop⟩ := h.top c hold
      exact ⟨a, by simp [ha], hatop⟩
  · obtain ⟨-, hcp, hleast⟩ := of_mem_addCandidate hequal hc
    rcases List.mem_append.mp ha with hold | hnew
    · obtain ⟨c', hc'⟩ := List.exists_mem_of_ne_nil _ (h.nonempty (List.ne_nil_of_mem hold))
      exact (hleast c' hc').trans (h.le c' hc' a hold q hq)
    · rw [List.mem_singleton.mp hnew] at hq
      exact hcp.trans (order.top_le _ p htop q hq)

theorem Leading.possibleCandidates {rest : List AmrStaticAbility}
    (h : Leading order s abilities candidates)
    (hrest : ∀ ability ∈ rest, s.participantsPerAbility ability ≠ []) :
    ∃ candidates', possibleCandidates order s rest candidates = .ok candidates' ∧
      Leading order s (abilities ++ rest) candidates' := by
  induction rest generalizing abilities candidates with
  | nil => exact ⟨candidates, rfl, by rwa [List.append_nil]⟩
  | cons ability rest ih =>
    obtain ⟨p, htop⟩ := Option.ne_none_iff_exists'.mp
      (mt (order.top_eq_none _) (hrest ability (by simp)))
    obtain ⟨candidates', hrun, hleading⟩ := ih (h.addCandidate htop)
      fun a ha => hrest a (by simp [ha])
    refine ⟨candidates', ?_, by rwa [List.append_assoc] at hleading⟩
    rw [RoundRobinInitiator.possibleCandidates, htop]
    exact hrun

/-- The chosen participant is at the top of its queue. -/
theorem exists_chosen (hhas : s.HasParticipants fleet call)
    (hfit : getFittingExistingAbilities fleet call.task.abilityRequirement ≠ []) :
    ∃ chosen, chooseParticipantForTask fleet call.order call.random s call.task = .ok chosen ∧
      Leading call.order s (getFittingExistingAbilities fleet call.task.abilityRequirement)
        [chosen] := by
  have hempty : Leading call.order s [] [] := ⟨by simp, by simp, by simp⟩
  obtain ⟨candidates, hrun, hleading⟩ := hempty.possibleCandidates hhas
  rw [List.nil_append] at hleading
  have hlt : call.random % candidates.length < candidates.length :=
    Nat.mod_lt _ (List.length_pos_iff.mpr (hleading.nonempty hfit))
  refine ⟨candidates[call.random % candidates.length], ?_, ?_⟩
  · simp only [chooseParticipantForTask, List.isEmpty_iff, if_neg hfit, hrun, bind, Except.bind,
      List.getElem?_eq_getElem hlt]
    rfl
  · have hmem := List.getElem_mem hlt
    exact ⟨by simpa using hleading.top _ hmem, by simpa using hleading.le _ hmem, by simp⟩

/-- In the list of all participants one of them is replaced. -/
theorem participants_update {ability : AmrStaticAbility} (hnodup : fleet.Nodup)
    (hability : ability ∈ fleet) {chosen new : ParticipantInfoRoundRobin}
    (hchosen : chosen ∈ s.participantsPerAbility ability) {s' : RoundRobinInitiator}
    (hs' : s'.participantsPerAbility = update s.participantsPerAbility ability
      ((s.participantsPerAbility ability).erase chosen ++ [new])) :
    (participants fleet s').Perm (new :: (participants fleet s).erase chosen) := by
  have hfleet := List.perm_cons_erase hability
  have hothers : (fleet.erase ability).flatMap s'.participantsPerAbility =
      (fleet.erase ability).flatMap s.participantsPerAbility := by
    refine List.flatMap_congr fun a ha => ?_
    rw [hs', update_of_ne]
    rintro rfl
    exact hnodup.not_mem_erase ha
  have hs := hfleet.flatMap_right s.participantsPerAbility
  have hnew := hfleet.flatMap_right s'.participantsPerAbility
  rw [List.flatMap_cons] at hs hnew
  rw [hothers, congrFun hs' ability, update_self, List.append_assoc] at hnew
  have herase := hs.erase chosen
  rw [List.erase_append_left _ hchosen] at herase
  exact hnew.trans (List.perm_middle.trans (herase.symm.cons new))

/-- One call. -/
theorem Stored.assign (h : s.Stored fleet) (hnodup : fleet.Nodup)
    (hhas : s.HasParticipants fleet call)
    (hmax : ∀ p ∈ participants fleet s, p.assignmentCounter + 1 < 2 ^ 32) :
    s.AssignsFairly fleet call ∧ (assign fleet s call).1.Stored fleet := by
  have hrun : RoundRobinInitiator.assign fleet s call =
      (lift (chooseParticipantForTask fleet call.order call.random s call.task) >>=
        fun chosen => Action.modify (notify call.order call.task chosen)) s := rfl
  unfold AssignsFairly
  rw [hrun]
  split_ifs with hfit
  · have hchoose : chooseParticipantForTask fleet call.order call.random s call.task =
        .error "The task requirements cannot be met by any participant." := by
      simp [chooseParticipantForTask, hfit]
    rw [hchoose]
    exact ⟨⟨_, rfl⟩, h⟩
  · obtain ⟨chosen, hchoose, hleading⟩ := exists_chosen hhas hfit
    obtain ⟨ability, hability, htop⟩ := hleading.top chosen (by simp)
    have hmem := call.order.top_mem _ _ htop
    obtain ⟨rfl, hfleet⟩ := h ability chosen hmem
    rw [hchoose, lift_ok_bind_run, modify_run]
    have hqueues : (notify call.order call.task chosen s).participantsPerAbility =
        update s.participantsPerAbility chosen.ability
          ((s.participantsPerAbility chosen.ability).erase chosen ++
            [{ chosen with assignmentCounter := chosen.assignmentCounter + 1 }]) := by
      simp only [notify, pop, htop]
      rw [u32, Nat.mod_eq_of_lt (hmax chosen (h.mem_participants.mpr hmem))]
    refine ⟨⟨chosen, h.mem_participants.mpr hmem, _, rfl, rfl, (List.mem_filter.mp hability).2,
      fun p hp hfits => ?_, participants_update hnodup hfleet hmem hqueues⟩, fun a p hp => ?_⟩
    · have hp := h.mem_participants.mp hp
      exact hleading.le chosen (by simp) p.ability
        (List.mem_filter.mpr ⟨(h p.ability p hp).2, hfits⟩) p hp
    · dsimp only at hp
      rw [hqueues] at hp
      by_cases ha : a = chosen.ability
      · subst ha
        rw [update_self] at hp
        rcases List.mem_append.mp hp with hold | hnew
        · exact h _ p (List.mem_of_mem_erase hold)
        · rw [List.mem_singleton.mp hnew]
          exact ⟨rfl, hfleet⟩
      · rw [update_of_ne ha] at hp
        exact h a p hp

/-! ### Runs -/

def step (fleet : List AmrStaticAbility) (s : RoundRobinInitiator) (call : AssignTaskCall) :
    Option RoundRobinInitiator :=
  some (assign fleet s call).1

/-- The states after storing participants and then calls that meet the condition. -/
def Reachable (fleet : List AmrStaticAbility) (infos : List (ℕ × AmrStaticAbility))
    (C : RoundRobinInitiator → AssignTaskCall → Prop) : RoundRobinInitiator → Prop :=
  Transitions.Reachable (step fleet) C (infos.foldl storeParticipant init)

/-- No two counters differ by more than one. -/
def Balanced (fleet : List AmrStaticAbility) (s : RoundRobinInitiator) : Prop :=
  ∀ p ∈ participants fleet s, ∀ q ∈ participants fleet s,
    p.assignmentCounter ≤ q.assignmentCounter + 1

/-- The task fits all participants. -/
def FitsAll (fleet : List AmrStaticAbility) (s : RoundRobinInitiator) (call : AssignTaskCall) :
    Prop :=
  ∀ p ∈ participants fleet s, call.task.abilityRequirement.le p.ability = true

/-- In all runs of calls that meet `C` tasks are assigned fairly. -/
def Fair (fleet : List AmrStaticAbility) (infos : List (ℕ × AmrStaticAbility))
    (C : RoundRobinInitiator → AssignTaskCall → Prop) : Prop :=
  (∀ s call, Reachable fleet infos C s → C s call → s.AssignsFairly fleet call) ∧
    ∀ s, Reachable fleet infos (fun s call => C s call ∧ FitsAll fleet s call) s → Balanced fleet s

/-- No counter is at the end of its range. -/
def BelowMax (fleet : List AmrStaticAbility) (s : RoundRobinInitiator) : Prop :=
  ∀ p ∈ participants fleet s, p.assignmentCounter + 1 < 2 ^ 32

variable {infos : List (ℕ × AmrStaticAbility)}

theorem stored_infos (h : ∀ info ∈ infos, info.2 ∈ fleet) (hs : s.Stored fleet)
    (hzero : ∀ ability, ∀ p ∈ s.participantsPerAbility ability, p.assignmentCounter = 0) :
    (infos.foldl storeParticipant s).Stored fleet ∧
      ∀ p ∈ participants fleet (infos.foldl storeParticipant s), p.assignmentCounter = 0 := by
  induction infos generalizing s with
  | nil =>
    refine ⟨hs, fun p hp => ?_⟩
    exact hzero p.ability p (hs.mem_participants.mp hp)
  | cons info infos ih =>
    have hmem : ∀ ability, ∀ p ∈ (s.storeParticipant info).participantsPerAbility ability,
        p ∈ s.participantsPerAbility ability ∨ ability = info.2 ∧ p = ⟨info.1, info.2, 0⟩ := by
      intro ability p hp
      by_cases ha : ability = info.2
      · subst ha
        simpa [storeParticipant] using hp
      · simpa [storeParticipant, ha] using hp
    refine ih (fun i hi => h i (by simp [hi])) (fun ability p hp => ?_) fun ability p hp => ?_
    · rcases hmem ability p hp with hold | ⟨rfl, rfl⟩
      · exact hs ability p hold
      · exact ⟨rfl, h info (by simp)⟩
    · rcases hmem ability p hp with hold | ⟨-, rfl⟩
      · exact hzero ability p hold
      · rfl

theorem AssignsFairly.balanced (h : s.AssignsFairly fleet call) (hfits : s.FitsAll fleet call)
    (hs : s.Balanced fleet) : (assign fleet s call).1.Balanced fleet := by
  unfold AssignsFairly at h
  split_ifs at h with hfit
  · obtain ⟨e, hrun⟩ := h
    rwa [hrun]
  · obtain ⟨chosen, hchosen, s', hrun, -, -, hleast, hperm⟩ := h
    rw [hrun]
    have hmem : ∀ p ∈ participants fleet s', p.assignmentCounter = chosen.assignmentCounter + 1 ∨
        p ∈ participants fleet s := by
      intro p hp
      rcases List.mem_cons.mp (hperm.subset hp) with rfl | hold
      · exact .inl rfl
      · exact .inr (List.mem_of_mem_erase hold)
    have hle : ∀ p ∈ participants fleet s, chosen.assignmentCounter ≤ p.assignmentCounter :=
      fun p hp => hleast p hp (hfits p hp)
    intro p hp q hq
    rcases hmem p hp with hp | hp
    · rcases hmem q hq with hq | hq
      · omega
      · have hq := hle q hq
        omega
    · rcases hmem q hq with hq | hq
      · have hp := hs p hp chosen hchosen
        omega
      · exact hs p hp q hq

/-- The ability of the examples. -/
def package : AmrStaticAbility := ⟨.kPackage, 1⟩

/-- The queue that has its first least participant at the top. -/
def firstLeast : QueueOrder where
  top := List.argmin ParticipantInfoRoundRobin.assignmentCounter
  top_eq_none _ := List.argmin_eq_none.mp
  top_mem _ _ := List.argmin_mem
  top_le _ _ h _ hp := List.le_of_mem_argmin hp h

/-- One participant with a number of assignments. -/
def solo (counter : ℕ) (activities : List RoundRobinActivity) : RoundRobinInitiator :=
  { init with
    participantsPerAbility := Function.update (fun _ => []) package
      [⟨0, package, counter⟩]
    activities := activities }

theorem fitting_single : getFittingExistingAbilities [package] package =
    [package] := by
  decide +kernel

theorem solo_assign (counter : ℕ) (activities : List RoundRobinActivity) :
    assign [package] (solo counter activities) ⟨⟨0, package⟩, firstLeast, 0⟩ =
      (solo (u32 (counter + 1)) (activities ++ [.assigned 0 0]), .ok ()) := by
  have hchoose : chooseParticipantForTask [package] firstLeast 0 (solo counter activities)
      ⟨0, package⟩ = .ok ⟨0, package, counter⟩ := by
    simp only [chooseParticipantForTask, fitting_single]
    rfl
  rw [assign, assignTask, get_bind_run, hchoose, lift_ok_bind_run, modify_run, notify]
  simp [solo, pop, firstLeast, update_idem]

inductive RoundRobinEvent
  | assignmentResponse (task : ℕ) (doesAccept : Bool)
  | processing (choice : RoundRobinTask → QueueOrder × ℕ)

/-- An event.  An exception ends the program; here events may follow it. -/
def react (fleet : List AmrStaticAbility) (s : RoundRobinInitiator) :
    RoundRobinEvent → Option RoundRobinInitiator
  | .assignmentResponse task doesAccept => some (process task doesAccept s).1
  | .processing choice =>
    if s.scheduled then
      some (processAssignmentAcceptions fleet choice { s with scheduled := false }).1
    else none

def Safe (s : RoundRobinInitiator) : Prop :=
  s.erasedEnd = false ∧ s.activities.Pairwise fun a b => a.reassigns b = false

instance : DecidablePred Safe := fun _ => inferInstanceAs (Decidable (_ ∧ _))

/-- All runs after the first distribution of the tasks with events that meet `C` are safe. -/
def AlwaysSafe (fleet : List AmrStaticAbility) (infos : List (ℕ × AmrStaticAbility))
    (choice : RoundRobinTask → QueueOrder × ℕ) (tasks : List RoundRobinTask)
    (C : RoundRobinInitiator → RoundRobinEvent → Prop) : Prop :=
  ∀ s, Transitions.Reachable (react fleet) C
    (distributeMFTasks fleet choice tasks false (infos.foldl storeParticipant init)).1 s → s.Safe

/-- Acceptances are processed when there are none or when all tasks have been accepted. -/
def AllOrNone (s : RoundRobinInitiator) : RoundRobinEvent → Prop
  | .assignmentResponse _ _ => True
  | .processing _ => s.assignmentAcceptions = [] ∨
      (s.unallocatedTasks.map RoundRobinTask.uuid).Perm s.assignmentAcceptions

/-- No acceptance has been processed. -/
def Open (s : RoundRobinInitiator) : Prop :=
  s.erasedEnd = false ∧ ∀ task, .accepted task ∉ s.activities

theorem Open.reassigns_eq_false (h : s.Open) {a : RoundRobinActivity} (ha : a ∈ s.activities)
    (b : RoundRobinActivity) : a.reassigns b = false := by
  cases a with
  | assigned participant task => rfl
  | accepted task => exact absurd ha (h.2 task)

theorem Open.safe (h : s.Open) : s.Safe :=
  ⟨h.1, List.pairwise_of_forall_mem_list fun _ ha b _ => h.reassigns_eq_false ha b⟩

theorem distributeMFTasks_open (choice : RoundRobinTask → QueueOrder × ℕ)
    (tasks : List RoundRobinTask) (previouslyAllocated : Bool) :
    Preserves Open (distributeMFTasks fleet choice tasks previouslyAllocated) := by
  have hassign : ∀ task,
      Preserves Open (assignTask fleet (choice task).1 (choice task).2 task) := by
    intro task s hs
    rw [assignTask, get_bind_run]
    cases chooseParticipantForTask fleet (choice task).1 (choice task).2 s task with
    | error e => exact hs
    | ok chosen => exact ⟨hs.1, fun uuid => by simpa [notify] using hs.2 uuid⟩
  intro s hs
  rw [distributeMFTasks, get_bind_run, modify_bind_run]
  refine Preserves.bind (preserves_forEach hassign _) (fun _ s hs => ?_) _ ?_
  · exact hs
  · exact hs

theorem eraseAccepted_of_perm {tasks : List RoundRobinTask} {uuids : List ℕ}
    (h : (tasks.map RoundRobinTask.uuid).Perm uuids) : eraseAccepted tasks uuids = some [] := by
  induction uuids generalizing tasks with
  | nil => rw [List.map_eq_nil_iff.mp h.eq_nil, eraseAccepted]
  | cons uuid uuids ih =>
    have hmem : tasks.any (fun task => task.uuid = uuid) = true := by
      obtain ⟨task, htask, rfl⟩ := List.mem_map.mp (h.symm.subset List.mem_cons_self)
      simpa using ⟨task, htask, rfl⟩
    rw [eraseAccepted, if_pos hmem]
    apply ih
    have herase := h.erase uuid
    rw [List.erase_cons_head, List.erase_eq_eraseP, List.eraseP_map] at herase
    convert herase using 4
    simp only [comp_apply, beq_eq_decide]
    exact decide_eq_decide.mpr eq_comm

/-- What an event keeps: as long as acceptances will be processed none has been. -/
theorem react_safe {event : RoundRobinEvent} {s' : RoundRobinInitiator}
    (h : s.Safe ∧ (s.scheduled = true → s.Open)) (hC : s.AllOrNone event)
    (hs' : react fleet s event = some s') : s'.Safe ∧ (s'.scheduled = true → s'.Open) := by
  cases event with
  | assignmentResponse task doesAccept =>
    obtain rfl := Option.some.inj hs'
    cases doesAccept <;> exact h
  | processing choice =>
    simp only [react] at hs'
    split_ifs at hs' with hscheduled
    obtain rfl := Option.some.inj hs'
    have hopen := h.2 hscheduled
    rcases hC with hnone | hall
    · simp only [processAssignmentAcceptions, get_bind_run, hnone, eraseAccepted]
      suffices hopen' : Open _ from ⟨hopen'.safe, fun _ => hopen'⟩
      have hopen₁ : Open { s with
          scheduled := false
          activities := s.activities ++ List.map .accepted ([] : List ℕ) } :=
        ⟨hopen.1, by simpa using hopen.2⟩
      split_ifs
      · exact distributeMFTasks_open choice [] true _ hopen₁
      · exact hopen₁
    · simp only [processAssignmentAcceptions, get_bind_run, eraseAccepted_of_perm hall]
      refine ⟨⟨hopen.1, List.pairwise_append.mpr ⟨hopen.safe.2, ?_, fun a ha b _ => ?_⟩⟩, nofun⟩
      · exact List.pairwise_map.mpr (List.pairwise_of_forall fun _ _ => rfl)
      · exact hopen.reassigns_eq_false ha b

theorem alwaysSafe (fleet : List AmrStaticAbility) (infos : List (ℕ × AmrStaticAbility))
    (choice : RoundRobinTask → QueueOrder × ℕ) (tasks : List RoundRobinTask) :
    AlwaysSafe fleet infos choice tasks AllOrNone := by
  intro s hs
  have hinit : (infos.foldl storeParticipant init).Open := by
    refine List.foldlRecOn infos storeParticipant (motive := Open) ⟨rfl, by simp [init]⟩ ?_
    intro s hs info _
    exact hs
  have hstart : (distributeMFTasks fleet choice tasks false
      (infos.foldl storeParticipant init)).1.Open :=
    distributeMFTasks_open choice tasks false _ hinit
  exact (hs.invariant (I := fun s => s.Safe ∧ (s.scheduled = true → s.Open))
    ⟨hstart.safe, fun _ => hstart⟩ fun _ _ _ h hC hstep => react_safe h hC hstep).1

/-- The acceptance of one of two tasks. -/
theorem not_alwaysSafe_two :
    ¬ AlwaysSafe [package] [(0, package)] (fun _ => (firstLeast, 0)) [⟨0, package⟩, ⟨1, package⟩]
      fun _ _ => True := by
  intro h
  have hrun : ((Transitions.run (react [package]) (fun _ _ => True)
      (distributeMFTasks [package] (fun _ => (firstLeast, 0)) [⟨0, package⟩, ⟨1, package⟩] false
        ([(0, package)].foldl storeParticipant init)).1
      [.assignmentResponse 0 true, .processing fun _ => (firstLeast, 0)]).any
        fun s => ¬ s.Safe) = true := by
    decide +kernel
  obtain ⟨s, hs, hunsafe⟩ := Transitions.exists_reachable_of_run _ hrun
  exact hunsafe (h s hs)

end RoundRobinInitiator

end Sola.Daisi
