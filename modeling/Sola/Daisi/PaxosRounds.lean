import Mathlib.Data.Finset.Card
import Mathlib.Data.List.NodupEquivFin
import Sola.Daisi.Paxos

/-!
Runs in which one proposal is made after the other.

A call of `findConsensus` comes only while no proposal is running, and no
timeout fires.  Then every proposal is a round of its own.  The counters of
the proposer and the acceptors bound what is still in flight, so a proposal
that has succeeded leaves nothing behind that could disturb the next one.
-/

namespace Sola.Daisi

open Sola.Lib Action RouteCalculationHelper PaxosMessage PaxosAcceptor List Function
open Sola.Minhton (u32 u32Pred)

/-! ### Messages in flight -/

namespace PaxosMessage

def isPrepare : PaxosMessage → Bool
  | .prepare _ => true
  | _ => false

def isAccept : PaxosMessage → Bool
  | .accept _ => true
  | _ => false

def isOk : PaxosMessage → Bool
  | .ok _ => true
  | _ => false

/-- A promise for the proposer `a`. -/
def isPromiseFor (a : ℕ) : PaxosMessage → Bool
  | .promise msg => msg.stationId = a
  | _ => false

/-- A response for the proposer `a`. -/
def isResponseFor (a : ℕ) : PaxosMessage → Bool
  | .response msg => msg.stationId = a
  | _ => false

end PaxosMessage

namespace PaxosNetwork

section Counting

variable {n a r : ℕ} {f : PaxosMessage → Bool} {F : Multiset (ℕ × PaxosMessage)}
  {x : ℕ × PaxosMessage} {l : List PaxosMessage}

/-- The copies in flight of messages of a kind. -/
def total (kind : PaxosMessage → Bool) (F : Multiset (ℕ × PaxosMessage)) : ℕ :=
  F.countP fun x => kind x.2 = true

/-- The copies in flight to a receiver. -/
def totalTo (r : ℕ) (kind : PaxosMessage → Bool) (F : Multiset (ℕ × PaxosMessage)) : ℕ :=
  F.countP fun x => x.1 = r ∧ kind x.2 = true

/-- What a participant has published, on its way to the others. -/
def copiesOf (n sender : ℕ) (published : List PaxosMessage) : Multiset (ℕ × PaxosMessage) :=
  (published.flatMap (copies n sender) : List (ℕ × PaxosMessage))

theorem total_erase (h : x ∈ F) :
    total f (F.erase x) + (if f x.2 = true then 1 else 0) = total f F := by
  have := congrArg (total f) (Multiset.cons_erase h)
  rw [← this, total, total, Multiset.countP_cons]

theorem totalTo_erase (h : x ∈ F) :
    totalTo r f (F.erase x) + (if x.1 = r ∧ f x.2 = true then 1 else 0) =
      totalTo r f F := by
  have := congrArg (totalTo r f) (Multiset.cons_erase h)
  rw [← this, totalTo, totalTo, Multiset.countP_cons]

theorem total_add (F G : Multiset (ℕ × PaxosMessage)) :
    total f (F + G) = total f F + total f G := Multiset.countP_add _ _ _

theorem totalTo_add (F G : Multiset (ℕ × PaxosMessage)) :
    totalTo r f (F + G) = totalTo r f F + totalTo r f G := Multiset.countP_add _ _ _

variable {G : Multiset (ℕ × PaxosMessage)} {msg : PaxosMessage}

theorem total_mono {F : Multiset (ℕ × PaxosMessage)} (h : F ≤ G) :
    total f F ≤ total f G := Multiset.countP_le_of_le _ h

theorem totalTo_mono {F : Multiset (ℕ × PaxosMessage)} (h : F ≤ G) :
    totalTo r f F ≤ totalTo r f G := Multiset.countP_le_of_le _ h

theorem total_pos (h : x ∈ F) (hx : f x.2 = true) : 0 < total f F :=
  Multiset.countP_pos.mpr ⟨x, h, hx⟩

theorem totalTo_pos (h : x ∈ F) (hx : f x.2 = true) : 0 < totalTo x.1 f F :=
  Multiset.countP_pos.mpr ⟨x, h, rfl, hx⟩

theorem length_others (ha : a < n) : ((range n).filter (· ≠ a)).length = n - 1 := by
  have hfilter : (range n).filter (· ≠ a) = (range n).erase a := by
    rw [Nodup.erase_eq_filter nodup_range]
    simp [bne, BEq.beq]
  rw [hfilter, length_erase_of_mem (mem_range.mpr ha), length_range]

theorem mem_copies : x ∈ copies n a msg ↔ x.1 < n ∧ x.1 ≠ a ∧ x.2 = msg := by
  obtain ⟨r, m⟩ := x
  simp [copies]
  tauto

theorem mem_copiesOf : x ∈ copiesOf n a l ↔ x.1 < n ∧ x.1 ≠ a ∧ x.2 ∈ l := by
  simp only [copiesOf, Multiset.mem_coe, mem_flatMap, mem_copies]
  constructor
  · rintro ⟨msg, hmsg, h, h', rfl⟩
    exact ⟨h, h', hmsg⟩
  · rintro ⟨h, h', hmsg⟩
    exact ⟨x.2, hmsg, h, h', rfl⟩

/-- Each message reaches a receiver at most once. -/
theorem totalTo_copiesOf_le : totalTo r f (copiesOf n a l) ≤
    l.countP f := by
  unfold totalTo copiesOf
  rw [Multiset.coe_countP]
  induction l with
  | nil => simp
  | cons msg l ih =>
    rw [flatMap_cons, countP_append, countP_cons]
    have hone : (copies n a msg).countP (fun x => decide (x.1 = r ∧ f x.2 = true)) ≤
        if f msg = true then 1 else 0 := by
      unfold copies
      rw [countP_map]
      split_ifs with hk
      · have hcount : ((range n).filter (· ≠ a)).count r ≤ 1 :=
          (nodup_iff_count_le_one.mp (nodup_range.filter _)) r
        refine le_trans (countP_mono_left fun b _ hb => ?_) hcount
        have : b = r := by simpa [hk] using hb
        simp [this]
      · simp [comp_def, hk]
    omega

theorem totalTo_copiesOf_self : totalTo a f (copiesOf n a l) = 0 := by
  refine Multiset.countP_eq_zero.mpr fun x hx h => ?_
  exact (mem_copiesOf.mp hx).2.1 h.1

theorem total_copiesOf_le (ha : a < n) : total f (copiesOf n a l) ≤
    (n - 1) * l.countP f := by
  unfold total copiesOf
  rw [Multiset.coe_countP]
  induction l with
  | nil => simp
  | cons msg l ih =>
    rw [flatMap_cons, countP_append, countP_cons, Nat.mul_add]
    have hall : (copies n a msg).countP (fun x => decide (f x.2 = true)) ≤
        (n - 1) * if f msg = true then 1 else 0 := by
      unfold copies
      rw [countP_map]
      split_ifs with hk
      · rw [Nat.mul_one, ← length_others ha]
        exact countP_le_length
      · simp [comp_def, hk]
    omega

/-- A message of another kind adds nothing to the count. -/
theorem total_add_copiesOf_of_not (ha : a < n) (hkind : f msg = false) :
    total f (F + copiesOf n a [msg]) = total f F := by
  have hcopies : total f (copiesOf n a [msg]) ≤ (n - 1) * [msg].countP f :=
    total_copiesOf_le ha
  rw [countP_singleton, if_neg (by simp [hkind]), Nat.mul_zero] at hcopies
  rw [total_add]
  omega

theorem totalTo_add_copiesOf_of_not (hkind : f msg = false) :
    totalTo r f (F + copiesOf n a [msg]) = totalTo r f F := by
  have hcopies : totalTo r f (copiesOf n a [msg]) ≤ [msg].countP f := totalTo_copiesOf_le
  rw [countP_singleton, if_neg (by simp [hkind])] at hcopies
  rw [totalTo_add]
  omega

theorem total_add_copiesOf_le (ha : a < n) :
    total f (F + copiesOf n a [msg]) ≤ total f F + (n - 1) := by
  have hcopies : total f (copiesOf n a [msg]) ≤ (n - 1) * [msg].countP f :=
    total_copiesOf_le ha
  have hone : (n - 1) * [msg].countP f ≤ (n - 1) * 1 :=
    Nat.mul_le_mul_left _ (countP_le_length)
  rw [total_add]
  omega

/-- The copies of a kind after a message was handled. -/
theorem total_step (h : (r, msg) ∈ F) (hr : r < n) :
    total f (F.erase (r, msg) + copiesOf n r l) + (if f msg = true then 1 else 0) ≤
      total f F + (n - 1) * l.countP f := by
  have herase : total f (F.erase (r, msg)) + (if f msg = true then 1 else 0) =
      total f F := total_erase h
  have hcopies : total f (copiesOf n r l) ≤ (n - 1) * l.countP f :=
    total_copiesOf_le hr
  rw [total_add]
  omega

theorem totalTo_step (msg : PaxosMessage) :
    totalTo a f (F.erase (r, msg) + copiesOf n r l) ≤
      totalTo a f F + l.countP f := by
  have herase : totalTo a f (F.erase (r, msg)) ≤ totalTo a f F :=
    totalTo_mono (Multiset.erase_le _ _)
  have hcopies : totalTo a f (copiesOf n r l) ≤ l.countP f :=
    totalTo_copiesOf_le
  rw [totalTo_add]
  omega

theorem totalTo_step_self (h : (r, msg) ∈ F) :
    totalTo r f (F.erase (r, msg) + copiesOf n r l) +
      (if f msg = true then 1 else 0) = totalTo r f F := by
  have herase : totalTo r f (F.erase (r, msg)) + (if r = r ∧ f msg = true then 1 else 0) =
      totalTo r f F := totalTo_erase h
  rw [totalTo_add, totalTo_copiesOf_self, ← herase]
  simp

end Counting

end PaxosNetwork

/-! ### Rounds -/

/-- A proposal of a round. -/
structure Round where
  call : ℕ
  station : ℕ
  proposalId : ℕ
  points : PointTimePairs
  startTime : ℚ

namespace Round

/-- The points at their absolute times. -/
def absolute (d : Round) : List (Intersection × ℚ) :=
  d.points.map fun point => (point.1, point.2 + d.startTime)

/-- What the participant `j` stores for the round with number `k`: the
proposer itself keeps times relative to the start. -/
def entry (d : Round) (k j : ℕ) : AcceptedProposal :=
  ⟨k, d.proposalId, d.station, if j = d.station then d.points else d.absolute⟩

/-- The proposal record belongs to the round with number `k`. -/
structure Matches (d : Round) (k : ℕ) (proposal : Proposal) : Prop where
  points : proposal.points = d.points
  startTime : proposal.startTime = d.startTime
  instanceId : proposal.instanceId = k
  proposalId : proposal.proposalId = d.proposalId
  call : proposal.call = some d.call

/-- All participants store the same intersections for a round. -/
theorem map_fst_entry (d : Round) (k j : ℕ) :
    (d.entry k j).data.map Prod.fst = d.points.map Prod.fst := by
  unfold entry absolute
  split_ifs <;> simp

/-- The participant has agreed to all reservations of the round. -/
def Recorded (d : Round) (p : Participant) : Prop :=
  ∀ point ∈ d.points, point.2 + d.startTime ∈ p.agreedData.times point.1

end Round

/-- The finally accepted data of the participant `j` after the rounds. -/
def entries (history : List Round) (j : ℕ) : List AcceptedProposal :=
  history.mapIdx fun k d => d.entry k j

theorem length_entries (history : List Round) (j : ℕ) :
    (entries history j).length = history.length := length_mapIdx

theorem entries_concat (history : List Round) (d : Round) (j : ℕ) :
    entries (history ++ [d]) j = entries history j ++ [d.entry history.length j] := by
  simp [entries, mapIdx_append]

/-- Nobody cares about a promise or a response for somebody else. -/
def Noise (x : ℕ × PaxosMessage) : Prop :=
  match x.2 with
  | .promise msg => msg.stationId ≠ x.1
  | .response msg => msg.stationId ≠ x.1
  | _ => False

/-- The messages of a round with number `k`. -/
def OfRound (k : ℕ) (d : Round) (x : ℕ × PaxosMessage) : Prop :=
  match x.2 with
  | .prepare msg => msg = ⟨k, d.proposalId, d.station⟩ ∧ x.1 ≠ d.station
  | .promise msg => msg = ⟨k, d.proposalId, d.station, false, 0, 0⟩ ∧ x.1 = d.station
  | .accept msg => msg = ⟨k, d.proposalId, d.station, d.absolute⟩ ∧ x.1 ≠ d.station
  | .ok msg => msg.instanceId = k ∧ msg.proposalId = d.proposalId ∧ msg.stationId = d.station
  | .response msg => msg = ⟨k, d.proposalId, d.station⟩ ∧ x.1 = d.station

theorem Noise.not_request {x : ℕ × PaxosMessage} (h : Noise x) : x.2.isPrepare = false ∧
    x.2.isAccept = false ∧ x.2.isOk = false := by
  obtain ⟨r, msg⟩ := x
  cases msg with
  | promise | response => exact ⟨rfl, rfl, rfl⟩
  | prepare | accept | ok => exact h.elim

theorem Noise.not_for {r : ℕ} {msg : PaxosMessage} (h : Noise (r, msg)) :
    msg.isPromiseFor r = false ∧ msg.isResponseFor r = false := by
  cases msg with
  | promise msg => exact ⟨decide_eq_false h, rfl⟩
  | response msg => exact ⟨rfl, decide_eq_false h⟩
  | prepare | accept | ok => exact h.elim

/-- A participant after the rounds of the history, with nothing going on. -/
structure IdleParticipant (history : List Round) (j : ℕ) (p : Participant) : Prop where
  nodeId : p.nodeId = j
  final : p.finallyAcceptedData = entries history j
  accepted : p.acceptedDataCurrentInstance = .none
  proposal : p.currentProposal.initialized = false
  received : p.alreadyReceived = []
  promised : ∀ i, history.length ≤ i → p.instanceToPromised i = none

/-- The proposer of a running round. -/
structure ProposerOk (history : List Round) (d : Round) (p : Participant) : Prop where
  nodeId : p.nodeId = d.station
  isCurrent : d.Matches history.length p.currentProposal
  received : p.alreadyReceived = []
  promised : p.instanceToPromised history.length = some (d.proposalId, d.station)
  later : ∀ i, history.length < i → p.instanceToPromised i = none
  phase :
    (0 < p.currentProposal.neededForQuorum ∧ p.acceptedDataCurrentInstance = .none ∧
      p.finallyAcceptedData = entries history d.station) ∨
    (p.currentProposal.neededForQuorum = 0 ∧ 0 < p.currentProposal.outstandingOks ∧
      p.acceptedDataCurrentInstance = d.entry history.length d.station ∧
      p.finallyAcceptedData = entries history d.station) ∨
    (p.currentProposal.neededForQuorum = 0 ∧ p.currentProposal.outstandingOks = 0 ∧
      p.acceptedDataCurrentInstance = .none ∧
      p.finallyAcceptedData = entries (history ++ [d]) d.station)

/-- What an acceptor in a running round has in every phase. -/
structure AcceptorBase (history : List Round) (j : ℕ) (p : Participant) : Prop where
  nodeId : p.nodeId = j
  proposal : p.currentProposal.initialized = false
  later : ∀ i, history.length < i → p.instanceToPromised i = none

/-- The phases of an acceptor in a running round, with a bound on the messages
that can still raise its count of OK messages. -/
inductive AcceptorOk (n : ℕ) (history : List Round) (d : Round) (j : ℕ) :
    Participant → ℕ → Prop
  | waiting {p : Participant} (count : ℕ) : AcceptorBase history j p →
      p.acceptedDataCurrentInstance = .none → p.finallyAcceptedData = entries history j →
      (p.alreadyReceived = [] ∧ count = 0 ∨
        p.alreadyReceived = [⟨history.length, d.proposalId, d.station, count⟩]) →
      AcceptorOk n history d j p (n - 1 - count)
  | accepted {p : Participant} : AcceptorBase history j p →
      p.acceptedDataCurrentInstance = d.entry history.length j →
      p.finallyAcceptedData = entries history j → p.alreadyReceived = [] →
      p.currentAcceptedInstance = history.length →
      p.currentAcceptedProposalId = d.proposalId →
      p.currentAcceptedStation = d.station → p.remainingOks ≤ n - 2 →
      AcceptorOk n history d j p p.remainingOks
  | finalized {p : Participant} : AcceptorBase history j p →
      p.acceptedDataCurrentInstance = .none →
      p.finallyAcceptedData = entries (history ++ [d]) j → p.alreadyReceived = [] →
      AcceptorOk n history d j p 0

variable {n j : ℕ} {history : List Round} {d : Round} {p : Participant}

theorem AcceptorOk.base {slack : ℕ} (h : AcceptorOk n history d j p slack) :
    AcceptorBase history j p := by
  cases h with
  | waiting _ hbase | accepted hbase | finalized hbase => exact hbase

theorem AcceptorOk.nodeId {slack : ℕ} (h : AcceptorOk n history d j p slack) : p.nodeId = j :=
  h.base.nodeId

/-- Every participant can start the next round. -/
theorem IdleParticipant.canPromise (h : IdleParticipant history j p) (prepare : ℕ × ℕ) :
    p.canPromise history.length prepare = true := by
  simp [Participant.canPromise, h.promised _ le_rfl]

theorem IdleParticipant.waiting (h : IdleParticipant history j p) :
    AcceptorOk n history d j p (n - 1) :=
  .waiting 0 ⟨h.nodeId, h.proposal, fun i hi => h.promised i hi.le⟩ h.accepted h.final
    (.inl ⟨h.received, rfl⟩)

/-- The counters and the timeout do not matter for the round. -/
theorem Round.Matches.counted {k : ℕ} {proposal : Proposal} (h : d.Matches k proposal)
    (needed outstanding : ℕ) (timeout : Option ℕ) :
    d.Matches k { proposal with
      neededForQuorum := needed, outstandingOks := outstanding, timeoutEvent := timeout } :=
  ⟨h.points, h.startTime, h.instanceId, h.proposalId, h.call⟩

theorem ProposerOk.of_needed (h : ProposerOk history d p)
    (hneeded : 0 < p.currentProposal.neededForQuorum) :
    p.acceptedDataCurrentInstance = .none ∧
      p.finallyAcceptedData = entries history d.station := by
  rcases h.phase with ⟨_, hrest⟩ | ⟨hzero, _⟩ | ⟨hzero, _⟩
  · exact hrest
  · omega
  · omega

theorem ProposerOk.of_outstanding (h : ProposerOk history d p)
    (hneeded : p.currentProposal.neededForQuorum = 0)
    (houtstanding : 0 < p.currentProposal.outstandingOks) :
    p.acceptedDataCurrentInstance = d.entry history.length d.station ∧
      p.finallyAcceptedData = entries history d.station := by
  rcases h.phase with ⟨hpos, _⟩ | ⟨_, _, hrest⟩ | ⟨_, hzero, _⟩
  · omega
  · exact hrest
  · omega

theorem ProposerOk.of_all_oks (h : ProposerOk history d p)
    (hneeded : p.currentProposal.neededForQuorum = 0)
    (houtstanding : p.currentProposal.outstandingOks = 0) :
    p.acceptedDataCurrentInstance = .none ∧
      p.finallyAcceptedData = entries (history ++ [d]) d.station := by
  rcases h.phase with ⟨hpos, _⟩ | ⟨_, hpos, _⟩ | ⟨_, _, hrest⟩
  · omega
  · omega
  · exact hrest

/-- An acceptor that has stored the proposal is done with the round. -/
theorem AcceptorOk.of_finished {slack : ℕ} (h : AcceptorOk n history d j p slack)
    (hne : p.finallyAcceptedData.length ≠ history.length) :
    slack = 0 ∧ IdleParticipant (history ++ [d]) j p := by
  cases h with
  | waiting _ _ _ hfinal _ => exact absurd (by rw [hfinal, length_entries]) hne
  | accepted _ _ hfinal _ _ _ _ _ => exact absurd (by rw [hfinal, length_entries]) hne
  | finalized hbase haccepted hfinal hreceived =>
    refine ⟨rfl, hbase.nodeId, hfinal, haccepted, hbase.proposal, hreceived, fun i hi => ?_⟩
    rw [length_append, length_singleton] at hi
    exact hbase.later i (by omega)

namespace PaxosNetwork

/-- Between two rounds. -/
structure Idle (settings : PaxosSettings) (ordered : Prop) (history : List Round)
    (s : PaxosNetwork) : Prop where
  participants : ∀ j < settings.numberPaxosParticipants,
    IdleParticipant history j (s.participants j)
  messages : ∀ x ∈ s.inFlight, x.1 < settings.numberPaxosParticipants ∧ Noise x
  recorded : ordered → ∀ j < settings.numberPaxosParticipants, ∀ d ∈ history,
    d.Recorded (s.participants j)

/-- The acceptors that have not told the proposer that the data is final. -/
def unfinished (n : ℕ) (history : List Round) (d : Round) (s : PaxosNetwork) : Finset ℕ :=
  (Finset.range n).filter fun j => j ≠ d.station ∧
    (s.failed j = true ∨ (s.participants j).finallyAcceptedData.length = history.length)

/-- In a round.  Every counter is at least the number of messages in flight
that can still lower it. -/
structure Running (settings : PaxosSettings) (ordered : Prop) (history : List Round) (d : Round)
    (s : PaxosNetwork) : Prop where
  two_le : 2 ≤ settings.numberPaxosParticipants
  station : d.station < settings.numberPaxosParticipants
  points : d.points ≠ []
  messages : ∀ x ∈ s.inFlight, x.1 < settings.numberPaxosParticipants ∧
    (Noise x ∨ OfRound history.length d x)
  proposer : ProposerOk history d (s.participants d.station)
  acceptors : ∀ j < settings.numberPaxosParticipants, j ≠ d.station →
    ∃ slack, AcceptorOk settings.numberPaxosParticipants history d j (s.participants j) slack ∧
      total isAccept s.inFlight + totalTo j isOk s.inFlight ≤ slack
  promises : total isPrepare s.inFlight +
      totalTo d.station (isPromiseFor d.station) s.inFlight ≤
    (s.participants d.station).currentProposal.neededForQuorum
  preparing : 0 < (s.participants d.station).currentProposal.neededForQuorum →
    (s.participants d.station).currentProposal.outstandingOks =
        settings.numberPaxosParticipants - 1 ∧
      total isAccept s.inFlight = 0 ∧
      (∀ r, totalTo r isOk s.inFlight = 0) ∧
      totalTo d.station (isResponseFor d.station) s.inFlight = 0 ∧
      ∀ j < settings.numberPaxosParticipants, j ≠ d.station →
        AcceptorOk settings.numberPaxosParticipants history d j (s.participants j)
          (settings.numberPaxosParticipants - 1)
  oks : total isAccept s.inFlight +
      totalTo d.station isOk s.inFlight ≤
    (s.participants d.station).currentProposal.outstandingOks
  responses : (s.participants d.station).currentProposal.neededForQuorum = 0 →
    (if 0 < (s.participants d.station).currentProposal.outstandingOks then 1 else 0) +
        (unfinished settings.numberPaxosParticipants history d s).card +
        totalTo d.station (isResponseFor d.station) s.inFlight ≤
      (s.participants d.station).remainingResponses
  recorded : ordered → ∀ j < settings.numberPaxosParticipants, ∀ e ∈ history,
    e.Recorded (s.participants j)
  recordedNow : ordered → ∀ j < settings.numberPaxosParticipants, s.failed j = false →
    (s.participants j).finallyAcceptedData.length ≠ history.length →
      d.Recorded (s.participants j)
  allResponses : ordered → (s.participants d.station).currentProposal.neededForQuorum = 0 →
    0 < (s.participants d.station).currentProposal.outstandingOks →
      (s.participants d.station).remainingResponses = settings.numberPaxosParticipants

/-- What the callbacks say about the rounds.  The first `done` rounds of the
history have succeeded. -/
structure CallbacksOk (history : List Round) (done : ℕ) (s : PaxosNetwork) : Prop where
  nodup : (s.callbacks.map Callback.call).Nodup
  called : ∀ c ∈ s.callbacks, c.call < s.nextCall
  rounds : ∀ d ∈ history, d.call < s.nextCall
  success : ∀ {station call proposal}, .success station call proposal ∈ s.callbacks →
    ∃ k < done, ∃ d, history[k]? = some d ∧ d.station = station ∧ d.call = call ∧
      d.Matches k proposal
  fail : ∀ {station call proposal}, .fail station call proposal ∈ s.callbacks →
    proposal = none
  open_ : ∀ {k d}, done ≤ k → history[k]? = some d → ∀ c ∈ s.callbacks, c.call ≠ d.call

/-- Reservations of different rounds keep the distance. -/
def RoundsApart (delta : ℚ) (d e : Round) : Prop :=
  ∀ point ∈ d.points, ∀ point' ∈ e.points, point.1 = point'.1 →
    Apart delta (point.2 + d.startTime) (point'.2 + e.startTime)

/-- Calls of `findConsensus` with at least one point while nobody has a running
proposal, and no timeouts.  If `ordered`, a proposer gets all OK messages for
its proposal before the first response. -/
def OneAtATime (settings : PaxosSettings) (ordered : Prop) (s : PaxosNetwork) :
    PaxosEvent → Prop
  | .propose _ points _ _ => points ≠ [] ∧ ∀ j < settings.numberPaxosParticipants,
      (s.participants j).currentProposal.initialized = false
  | .deliver receiver (.response msg) => ordered → msg.stationId = receiver →
      (s.participants receiver).currentProposal.outstandingOks = 0
  | .deliver _ _ => True
  | .timeout .. => False

instance (settings : PaxosSettings) (ordered : Prop) [Decidable ordered] (s : PaxosNetwork)
    (e : PaxosEvent) : Decidable (OneAtATime settings ordered s e) :=
  match e with
  | .propose _ points _ _ => inferInstanceAs (Decidable (points ≠ [] ∧ ∀ j < _, _ = false))
  | .deliver receiver (.response msg) =>
    inferInstanceAs (Decidable (ordered → msg.stationId = receiver → _ = 0))
  | .deliver _ (.prepare _) | .deliver _ (.promise _) | .deliver _ (.accept _)
  | .deliver _ (.ok _) => inferInstanceAs (Decidable True)
  | .timeout .. => inferInstanceAs (Decidable False)

end PaxosNetwork

/-! ### Acceptors -/

/-- The occupancy only gets more times. -/
def IntersectionOccupancy.Grows (o o' : IntersectionOccupancy) : Prop :=
  ∀ x, ∀ u ∈ o.times x, u ∈ o'.times x

theorem Round.Recorded.mono {p' : Participant} (h : d.Recorded p)
    (hgrows : p.agreedData.Grows p'.agreedData) : d.Recorded p' :=
  fun point hpoint => hgrows _ _ (h point hpoint)

/-- The activity with other agreed data. -/
def PaxosActivity.withAgreed (st : PaxosActivity) (o : IntersectionOccupancy) : PaxosActivity :=
  { st with participant := { st.participant with agreedData := o } }

/-- Entering points one by one: nothing else changes. -/
theorem wp_recordAll {settings : PaxosSettings} {points : List (Intersection × ℚ)}
    {f : Intersection × ℚ → ℚ} {st : PaxosActivity} :
    wp (forEach points fun point =>
        PaxosProposer.recordAgreed settings point.1 (f point))
      (fun _ st' => ∃ o, st' = st.withAgreed o ∧ st.participant.agreedData.Grows o ∧
        ∀ point ∈ points, f point ∈ o.times point.1)
      (fun st' => ∃ o, st' = st.withAgreed o ∧ st.participant.agreedData.Grows o) st := by
  induction points generalizing st with
  | nil => exact ⟨st.participant.agreedData, rfl, fun _ _ h => h, by simp⟩
  | cons point points ih =>
    rw [forEach_cons, wp_bind]
    simp only [PaxosProposer.recordAgreed, wp_bind, wp_check, wp_modifyParticipant]
    refine ⟨fun _ => ?_, fun _ => ⟨st.participant.agreedData, rfl, fun _ _ h => h⟩⟩
    have hset : st.participant.agreedData.Grows
        (st.participant.agreedData.set point.1 (f point) st.participant.nodeId) :=
      fun x u hu => IntersectionOccupancy.mem_times_set.mpr (.inr hu)
    refine ih.imp ?_ ?_
    · rintro _ st' ⟨o, rfl, hgrows, hall⟩
      refine ⟨o, rfl, fun x u hu => hgrows x u (hset x u hu), fun q hq => ?_⟩
      rcases mem_cons.mp hq with rfl | hq
      · exact hgrows _ _ (IntersectionOccupancy.mem_times_set.mpr (.inl ⟨rfl, rfl⟩))
      · exact hall q hq
    · rintro st' ⟨o, rfl, hgrows⟩
      exact ⟨o, rfl, fun x u hu => hgrows x u (hset x u hu)⟩

/-- How an acceptor handles a message of the round. -/
structure AcceptorOutcome (n : ℕ) (history : List Round) (d : Round) (j : ℕ) (p : Participant)
    (slack : ℕ) (msg : PaxosMessage) (threw : Bool) (st : PaxosActivity) : Prop where
  acceptor : ∃ slack', AcceptorOk n history d j st.participant slack' ∧
    slack ≤ slack' + (if msg.isAccept = true then 1 else 0) +
      (if msg.isOk = true then 1 else 0) ∧
    (msg.isPrepare = true → slack' = slack)
  callbacks : st.callbacks = []
  published : ∀ m ∈ st.published, ∀ r, r ≠ j → Noise (r, m) ∨ OfRound history.length d (r, m)
  requests : st.published.countP isPrepare = 0 ∧
    st.published.countP isAccept = 0
  promises : st.published.countP (isPromiseFor d.station) ≤
    if msg.isPrepare = true then 1 else 0
  oks : st.published.countP isOk ≤ if msg.isAccept = true then 1 else 0
  responses : st.published.countP (isResponseFor d.station) +
      (if threw = true ∨ st.participant.finallyAcceptedData.length = history.length
        then 1 else 0) ≤
    if p.finallyAcceptedData.length = history.length then 1 else 0
  grows : p.agreedData.Grows st.participant.agreedData
  recorded : threw = false → st.participant.finallyAcceptedData.length ≠ history.length →
    p.finallyAcceptedData.length = history.length → d.Recorded st.participant

section Acceptor

variable {n : ℕ} {settings : PaxosSettings} {history : List Round} {d : Round} {j : ℕ}
  {p : Participant} {slack : ℕ}

theorem Round.entry_initialized {k : ℕ} (hd : d.points ≠ []) :
    (d.entry k j).initialized = true := by
  unfold AcceptedProposal.initialized Round.entry Round.absolute
  cases hp : d.points with
  | nil => exact absurd hp hd
  | cons x xs => split_ifs <;> rfl

theorem AcceptorBase.promise (h : AcceptorBase history j p) (v : Option (ℕ × ℕ)) :
    AcceptorBase history j { p with
      instanceToPromised := update p.instanceToPromised history.length v } where
  nodeId := h.nodeId
  proposal := h.proposal
  later i hi := by
    have hne : i ≠ history.length := by omega
    simpa [update_of_ne hne] using h.later i hi

/-- The promises do not matter for the phase. -/
theorem AcceptorOk.promise (h : AcceptorOk n history d j p slack) (v : Option (ℕ × ℕ)) :
    AcceptorOk n history d j { p with
      instanceToPromised := update p.instanceToPromised history.length v } slack := by
  cases h with
  | waiting count hbase haccepted hfinal hreceived =>
    exact .waiting count (hbase.promise v) haccepted hfinal hreceived
  | accepted hbase haccepted hfinal hreceived h₁ h₂ h₃ hle =>
    exact .accepted (p := { p with
      instanceToPromised := update p.instanceToPromised history.length v })
      (hbase.promise v) haccepted hfinal hreceived h₁ h₂ h₃ hle
  | finalized hbase haccepted hfinal hreceived =>
    exact .finalized (hbase.promise v) haccepted hfinal hreceived

variable {msg : PaxosMessage} {threw : Bool} {published : List PaxosMessage}

/-- An acceptor that only changes its state. -/
theorem AcceptorOutcome.silent {p' : Participant} {slack' : ℕ}
    (hp : p.finallyAcceptedData.length = history.length) (h : AcceptorOk n history d j p' slack')
    (hslack : slack ≤ slack' + (if msg.isAccept = true then 1 else 0) +
      (if msg.isOk = true then 1 else 0)) (hsame : msg.isPrepare = true → slack' = slack)
    (hfinal : p'.finallyAcceptedData = p.finallyAcceptedData)
    (hagreed : p'.agreedData = p.agreedData) :
    AcceptorOutcome n history d j p slack msg threw ⟨p', [], []⟩ where
  acceptor := ⟨slack', h, hslack, hsame⟩
  callbacks := rfl
  published := by simp
  requests := by simp
  promises := by simp
  oks := by simp
  responses := by simp [hp, hfinal]
  grows := by rw [hagreed]; exact fun _ _ h => h
  recorded _ hne _ := absurd (by rw [hfinal, hp]) hne

/-- An acceptor in the preparation has not got anything. -/
theorem AcceptorOk.of_preparing (h : AcceptorOk n history d j p slack) (hslack : slack = n - 1)
    (hn : 2 ≤ n) : p.acceptedDataCurrentInstance = .none ∧
      p.finallyAcceptedData = entries history j := by
  cases h with
  | waiting count _ haccepted hfinal _ => exact ⟨haccepted, hfinal⟩
  | accepted _ _ _ _ _ _ _ hle => omega
  | finalized => omega

theorem processPrepareMessage_outcome (hn : 2 ≤ n) (h : AcceptorOk n history d j p (n - 1)) :
    wp (processPrepareMessage ⟨history.length, d.proposalId, d.station⟩)
      (fun _ => AcceptorOutcome n history d j p (n - 1)
        (.prepare ⟨history.length, d.proposalId, d.station⟩) false)
      (AcceptorOutcome n history d j p (n - 1)
        (.prepare ⟨history.length, d.proposalId, d.station⟩) true) ⟨p, [], []⟩ := by
  obtain ⟨haccepted, hfinal⟩ := h.of_preparing rfl hn
  have hlength : p.finallyAcceptedData.length = history.length := by
    rw [hfinal, length_entries]
  have hinit : p.acceptedDataCurrentInstance.initialized = false := by rw [haccepted]; rfl
  simp only [processPrepareMessage, wp_bind, wp_getParticipant,
    wp_ite, wp_promise, wp_pure, hinit, hlength, wp_publishMessage,
    Bool.false_eq_true, and_false, if_false]
  refine ⟨fun _ => ⟨fun h => absurd h (lt_irrefl _), fun _ => ?_⟩, fun _ => ?_⟩
  · refine ⟨⟨n - 1, h.promise _, by omega, fun _ => rfl⟩, rfl, ?_, ⟨rfl, rfl⟩, ?_, Nat.zero_le _,
      ?_, fun _ _ h => h, fun _ hne => absurd hlength hne⟩
    · intro m hm r hr
      obtain rfl : m = _ := mem_singleton.mp hm
      by_cases hrs : r = d.station
      · exact .inr ⟨rfl, hrs⟩
      · exact .inl fun heq => hrs heq.symm
    · simp [isPrepare, isPromiseFor]
    · simp [isResponseFor, hlength]
  · exact .silent hlength h (by omega) (fun _ => rfl) rfl rfl

/-- An accepted proposal for which all OK messages have come. -/
structure ReadyToFinalize (history : List Round) (d : Round) (j : ℕ) (p : Participant) :
    Prop extends AcceptorBase history j p where
  accepted : p.acceptedDataCurrentInstance = d.entry history.length j
  final : p.finallyAcceptedData = entries history j
  received : p.alreadyReceived = []
  acceptedInstance : p.currentAcceptedInstance = history.length
  acceptedProposalId : p.currentAcceptedProposalId = d.proposalId
  acceptedStation : p.currentAcceptedStation = d.station

/-- The data is final, whether or not all of its points are intersections. -/
theorem sendResponseMessage_final (hj : j ≠ d.station) (h : ReadyToFinalize history d j p) :
    wp (sendResponseMessage settings)
      (fun _ st => AcceptorOk n history d j st.participant 0 ∧
        st.participant.finallyAcceptedData.length ≠ history.length ∧
        st.published = published ++ [.response ⟨history.length, d.proposalId, d.station⟩] ∧
        st.callbacks = [] ∧ p.agreedData.Grows st.participant.agreedData ∧
        d.Recorded st.participant)
      (fun st => AcceptorOk n history d j st.participant 0 ∧
        st.participant.finallyAcceptedData.length ≠ history.length ∧
        st.published = published ∧ st.callbacks = [] ∧
        p.agreedData.Grows st.participant.agreedData) ⟨p, published, []⟩ := by
  have hfinal : p.finallyAcceptedData ++ [p.acceptedDataCurrentInstance] =
      entries (history ++ [d]) j := by rw [h.final, h.accepted, entries_concat]
  have hlength : (entries (history ++ [d]) j).length - 1 = history.length := by
    simp [length_entries]
  have hne : (entries (history ++ [d]) j).length ≠ history.length := by
    simp [length_entries]
  have hdata : ((entries (history ++ [d]) j).getLastD .none).data = d.absolute := by
    simp [entries_concat, Round.entry, hj]
  simp only [sendResponseMessage, PaxosProposer.pushFinalized,
    PaxosProposer.resetAccepted, wp_bind, wp_modifyParticipant, wp_getParticipant, wp_check,
    hfinal, hlength, h.acceptedInstance, hdata]
  refine ⟨fun _ => ?_, fun hnot => absurd (decide_eq_true trivial) hnot⟩
  refine wp_recordAll.imp ?_ ?_
  · rintro _ st ⟨o, rfl, hgrows, hall⟩
    simp only [wp_promise, wp_modifyParticipant, wp_publishMessage, wp_bind]
    refine ⟨.finalized ⟨h.nodeId, h.proposal, fun i hi => ?_⟩ rfl rfl h.received, hne, ?_, rfl,
      hgrows, fun point hpoint => ?_⟩
    · have hi' : i ≠ history.length := by omega
      simpa [PaxosActivity.withAgreed, update_of_ne hi'] using h.later i hi
    · simp [PaxosActivity.withAgreed, h.acceptedProposalId, h.acceptedStation]
    · exact hall (point.1, point.2 + d.startTime) (mem_map.mpr ⟨point, hpoint, rfl⟩)
  · rintro st ⟨o, rfl, hgrows⟩
    exact ⟨.finalized ⟨h.nodeId, h.proposal, h.later⟩ rfl rfl h.received, hne, rfl, rfl, hgrows⟩

/-- The outcome of a handler that makes the data final. -/
theorem AcceptorOutcome.final {st : PaxosActivity}
    (hp : p.finallyAcceptedData.length = history.length)
    (h : AcceptorOk n history d j st.participant 0)
    (hfinal : st.participant.finallyAcceptedData.length ≠ history.length)
    (hpublished : st.published = published ++
      if threw = true then [] else [.response ⟨history.length, d.proposalId, d.station⟩])
    (hcallbacks : st.callbacks = []) (hgrows : p.agreedData.Grows st.participant.agreedData)
    (hrecorded : threw = false → d.Recorded st.participant)
    (hslack : slack ≤ (if msg.isAccept = true then 1 else 0) +
      (if msg.isOk = true then 1 else 0)) (hmsg : msg.isPrepare = false)
    (hoks : ∀ m ∈ published, m.isOk = true ∧ OfRound history.length d (j, m))
    (hcount : published.length ≤ if msg.isAccept = true then 1 else 0) :
    AcceptorOutcome n history d j p slack msg threw st := by
  -- only OK messages of the round come before the response
  have hok : ∀ m ∈ published, ∃ ok : OKMessage, m = .ok ok := by
    intro m hm
    have := (hoks m hm).1
    cases m <;> simp [isOk] at this
    exact ⟨_, rfl⟩
  have hzero : ∀ kind : PaxosMessage → Bool, (∀ ok, kind (.ok ok) = false) →
      published.countP kind = 0 := by
    intro kind hkind
    refine countP_eq_zero.mpr fun m hm => ?_
    obtain ⟨ok, rfl⟩ := hok m hm
    simp [hkind]
  refine ⟨⟨0, h, by omega, fun hprepare => by rw [hmsg] at hprepare; cases hprepare⟩,
    hcallbacks, ?_, ?_, ?_, ?_, ?_, hgrows, fun ht _ _ => hrecorded ht⟩
  · intro m hm r hr
    rw [hpublished] at hm
    rcases mem_append.mp hm with hm | hm
    · obtain ⟨ok, rfl⟩ := hok m hm
      exact .inr (hoks _ hm).2
    · split_ifs at hm
      · cases hm
      · obtain rfl : m = _ := mem_singleton.mp hm
        by_cases hrs : r = d.station
        · exact .inr ⟨rfl, hrs⟩
        · exact .inl fun heq => hrs heq.symm
  · rw [hpublished, countP_append, countP_append,
      hzero isPrepare (fun _ => rfl), hzero isAccept (fun _ => rfl)]
    split_ifs <;> exact ⟨rfl, rfl⟩
  · rw [hpublished, countP_append, hzero (isPromiseFor _) (fun _ => rfl)]
    split_ifs <;> simp [isPromiseFor]
  · have hnone : (if threw = true then [] else
        [response ⟨history.length, d.proposalId, d.station⟩]).countP
          isOk = 0 := by
      split_ifs <;> rfl
    rw [hpublished, countP_append, hnone]
    exact countP_le_length.trans hcount
  · rw [hpublished, countP_append, hzero (isResponseFor _) (fun _ => rfl)]
    cases threw with
    | true => simp [hp]
    | false =>
      simp only [Bool.false_eq_true, false_or, if_false]
      rw [if_neg hfinal, if_pos hp]
      simp [isResponseFor]

/-- The OK messages that an acceptor has got before the request to accept. -/
theorem AcceptorOk.counted (h : AcceptorOk n history d j p slack) (hpos : 0 < slack) :
    ∃ count, ((p.alreadyReceived.find? (AlreadyReceivedOKS.isFor · history.length
        d.proposalId d.station)).map (·.alreadyReceived)).getD 0 = count ∧
      p.alreadyReceived.eraseP (AlreadyReceivedOKS.isFor · history.length
        d.proposalId d.station) = [] ∧
      slack ≤ n - 1 - count ∧ AcceptorBase history j p ∧
      p.finallyAcceptedData = entries history j := by
  cases h with
  | waiting count hbase _ hfinal hreceived =>
    rcases hreceived with ⟨hnil, rfl⟩ | hone
    · exact ⟨0, by simp [hnil], by simp [hnil], le_rfl, hbase, hfinal⟩
    · exact ⟨count, by simp [hone, AlreadyReceivedOKS.isFor],
        by simp [hone, AlreadyReceivedOKS.isFor], le_rfl, hbase, hfinal⟩
  | accepted hbase _ hfinal hnil _ _ _ hle =>
    exact ⟨0, by simp [hnil], by simp [hnil], by omega, hbase, hfinal⟩
  | finalized => omega

theorem processAcceptMessage_outcome (hj : j ≠ d.station) (hd : d.points ≠ [])
    (h : AcceptorOk settings.numberPaxosParticipants history d j p slack) (hpos : 0 < slack) :
    wp (processAcceptMessage settings
        ⟨history.length, d.proposalId, d.station, d.absolute⟩)
      (fun _ => AcceptorOutcome settings.numberPaxosParticipants history d j p slack
        (.accept ⟨history.length, d.proposalId, d.station, d.absolute⟩) false)
      (AcceptorOutcome settings.numberPaxosParticipants history d j p slack
        (.accept ⟨history.length, d.proposalId, d.station, d.absolute⟩) true)
      ⟨p, [], []⟩ := by
  obtain ⟨count, hcount, herase, hslack, hbase, hfinal⟩ := h.counted hpos
  have hlength : p.finallyAcceptedData.length = history.length := by
    rw [hfinal, length_entries]
  have hnonempty : (!d.absolute.isEmpty) = true := by
    cases hp : d.points with
    | nil => exact absurd hp hd
    | cons x xs => simp [Round.absolute, hp]
  have hentry : (⟨history.length, d.proposalId, d.station, d.absolute⟩ : AcceptedProposal) =
      d.entry history.length j := by simp [Round.entry, hj]
  have hremaining : u32Sub (settings.numberPaxosParticipants - 2) count =
      settings.numberPaxosParticipants - 2 - count := if_pos (by omega)
  have hround : ∀ r, OfRound history.length d
      (r, .ok ⟨history.length, d.proposalId, d.station, p.nodeId⟩) := fun _ => ⟨rfl, rfl, rfl⟩
  simp only [processAcceptMessage, wp_bind, wp_promisedFor, wp_ite,
    wp_pure, wp_check, wp_getParticipant, wp_modifyParticipant, wp_publishMessage, hcount,
    herase, hremaining, hentry]
  refine ⟨fun _ => ?_, fun _ => ⟨fun _ => ⟨fun hzero => ?_, fun hzero => ?_⟩,
    fun hnot => absurd hnonempty hnot⟩⟩
  · -- not promised (any longer)
    exact .silent hlength (h.promise _) (by simp [isAccept]; omega)
      (by simp [isPrepare]) rfl rfl
  · refine (sendResponseMessage_final (n := settings.numberPaxosParticipants) hj
      (show ReadyToFinalize history d j _ from ?_)).imp ?_ ?_
    · exact ⟨⟨hbase.nodeId, hbase.proposal, (hbase.promise _).later⟩, rfl, hfinal, rfl, rfl, rfl,
        rfl⟩
    · rintro _ st ⟨hok, hne, hpublished, hcallbacks, hgrows, hrecorded⟩
      exact .final hlength hok hne hpublished hcallbacks hgrows (fun _ => hrecorded)
        (by simp [isAccept]; omega) rfl
        (by simpa [isOk] using hround j) (by simp [isAccept])
    · rintro st ⟨hok, hne, hpublished, hcallbacks, hgrows⟩
      exact .final hlength hok hne (by simpa using hpublished) hcallbacks hgrows
        (fun h => by cases h) (by simp [isAccept]; omega) rfl
        (by simpa [isOk] using hround j) (by simp [isAccept])
  · refine ⟨⟨_, .accepted ⟨hbase.nodeId, hbase.proposal, (hbase.promise _).later⟩ rfl hfinal rfl
        rfl rfl rfl ?_, ?_, ?_⟩, rfl, ?_,
      ⟨rfl, rfl⟩, Nat.zero_le _, ?_, ?_, fun _ _ h => h, fun _ hne => absurd hlength hne⟩
    · show settings.numberPaxosParticipants - 2 - count ≤ _
      omega
    · simp [isAccept]
      omega
    · simp [isPrepare]
    · intro m hm r hr
      obtain rfl : m = _ := mem_singleton.mp hm
      exact .inr (hround r)
    · simp [isAccept, isOk]
    · simp [isResponseFor, hlength]

/-- An OK message that comes before the request to accept is counted. -/
theorem saveOK_outcome {count : ℕ} {msg : OKMessage} (hbase : AcceptorBase history j p)
    (haccepted : p.acceptedDataCurrentInstance = .none)
    (hfinal : p.finallyAcceptedData = entries history j)
    (hreceived : p.alreadyReceived = [] ∧ count = 0 ∨
      p.alreadyReceived = [⟨history.length, d.proposalId, d.station, count⟩])
    (hmsg : OfRound history.length d (j, .ok msg)) :
    wp (saveOK msg)
      (fun _ => AcceptorOutcome n history d j p (n - 1 - count) (.ok msg) false)
      (AcceptorOutcome n history d j p (n - 1 - count) (.ok msg) true) ⟨p, [], []⟩ := by
  obtain ⟨hinstance, hproposal, hstation⟩ := hmsg
  have hlength : p.finallyAcceptedData.length = history.length := by
    rw [hfinal, length_entries]
  -- the state with one more message counted
  have hcounted : ∀ threw, AcceptorOutcome n history d j p (n - 1 - count) (.ok msg) threw
      ⟨{ p with alreadyReceived := [⟨history.length, d.proposalId, d.station, count + 1⟩] },
        [], []⟩ := fun threw =>
    .silent hlength (.waiting (count + 1) ⟨hbase.nodeId, hbase.proposal, hbase.later⟩ haccepted
        hfinal (.inr rfl))
      (by simp [isAccept, isOk]; omega)
      (by simp [isPrepare]) rfl rfl
  simp only [saveOK, wp_bind, wp_getParticipant, hinstance, hproposal,
    hstation]
  rcases hreceived with ⟨hnil, rfl⟩ | hone
  · simp only [hnil, find?_nil, wp_modifyParticipant, nil_append]
    exact hcounted false
  · have hfind : p.alreadyReceived.find? (AlreadyReceivedOKS.isFor · history.length
        d.proposalId d.station) = some ⟨history.length, d.proposalId, d.station, count⟩ := by
      simp [hone, AlreadyReceivedOKS.isFor]
    have hreplace : p.alreadyReceived.replaceF (fun ok =>
        if AlreadyReceivedOKS.isFor ok history.length d.proposalId d.station then
          some { ok with alreadyReceived := ok.alreadyReceived + 1 }
        else none) = [⟨history.length, d.proposalId, d.station, count + 1⟩] := by
      simp [hone, AlreadyReceivedOKS.isFor, replaceF]
    simp only [hfind, hreplace, wp_bind, wp_modifyParticipant, wp_check]
    exact ⟨fun _ => hcounted false, fun _ => hcounted true⟩

theorem processOKMessage_outcome (hj : j ≠ d.station) (hd : d.points ≠ [])
    (h : AcceptorOk n history d j p slack) (hpos : 0 < slack) {msg : OKMessage}
    (hmsg : OfRound history.length d (j, .ok msg)) :
    wp (processOKMessage settings msg)
      (fun _ => AcceptorOutcome n history d j p slack (.ok msg) false)
      (AcceptorOutcome n history d j p slack (.ok msg) true) ⟨p, [], []⟩ := by
  obtain ⟨hinstance, hproposal, hstation⟩ := hmsg
  simp only [processOKMessage, wp_bind, wp_getParticipant, wp_ite,
    wp_pure, wp_modifyParticipant]
  cases h with
  | finalized => omega
  | waiting count hbase haccepted hfinal hreceived =>
    refine ⟨fun heq => absurd (heq.symm.trans hstation) (hbase.nodeId ▸ hj), fun _ =>
      ⟨fun _ => saveOK_outcome hbase haccepted hfinal hreceived ⟨hinstance, hproposal, hstation⟩,
        fun hnot => absurd (.inl ?_) hnot⟩⟩
    rw [haccepted]
    rfl
  | accepted hbase haccepted hfinal hnil h₁ h₂ h₃ hle =>
    have hlength : p.finallyAcceptedData.length = history.length := by
      rw [hfinal, length_entries]
    have hpred : u32Pred p.remainingOks = p.remainingOks - 1 := if_neg hpos.ne'
    refine ⟨fun heq => absurd (heq.symm.trans hstation) (hbase.nodeId ▸ hj), fun _ =>
      ⟨fun hother => ?_, fun _ => ⟨fun hother => ?_,
        fun _ => ⟨fun hzero => ?_, fun hzero => ?_⟩⟩⟩⟩
    · -- the message is for the accepted proposal
      rw [haccepted, Round.entry_initialized hd] at hother
      simp [Round.entry, hinstance, hproposal, hstation] at hother
    · simp [h₁, h₂, h₃, hinstance, hproposal, hstation] at hother
    · refine (sendResponseMessage_final (n := n) hj
        (show ReadyToFinalize history d j _ from ?_)).imp ?_ ?_
      · exact ⟨⟨hbase.nodeId, hbase.proposal, hbase.later⟩, haccepted, hfinal, hnil, h₁, h₂, h₃⟩
      · rintro _ st ⟨hok, hne, hpublished, hcallbacks, hgrows, hrecorded⟩
        exact .final hlength hok hne hpublished hcallbacks hgrows (fun _ => hrecorded)
          (by simp [isAccept, isOk]; omega) rfl (by simp)
          (by simp)
      · rintro st ⟨hok, hne, hpublished, hcallbacks, hgrows⟩
        exact .final hlength hok hne (by simpa using hpublished) hcallbacks hgrows
          (fun h => by cases h) (by simp [isAccept, isOk]; omega) rfl
          (by simp) (by simp)
    · refine .silent hlength (.accepted (p := { p with remainingOks := u32Pred p.remainingOks })
        ⟨hbase.nodeId, hbase.proposal, hbase.later⟩ haccepted hfinal hnil h₁ h₂ h₃ ?_) ?_
        (by simp [isPrepare]) rfl rfl
      · show u32Pred p.remainingOks ≤ _
        omega
      · simp [isAccept, isOk]
        omega

end Acceptor

end Sola.Daisi
