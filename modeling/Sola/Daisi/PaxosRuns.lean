import Sola.Daisi.PaxosRounds

/-!
Every round keeps the invariant of the network.

A delivered message is handled by the proposer or by an acceptor of the round,
or nobody cares about it.  When the proposer has got its last response all
participants have stored the proposal, nothing of the round is in flight any
longer and the next call of `findConsensus` finds the network as it was before
the first one, with one entry more everywhere.
-/

namespace Sola.Daisi

open Sola.Lib Action RouteCalculationHelper PaxosMessage List Function PaxosProposer
open Sola.Minhton (u32 u32Pred)

namespace PaxosNetwork

section Rounds

variable {settings : PaxosSettings} {ordered : Prop} {history : List Round} {d : Round}
  {s s' : PaxosNetwork} {station : ℕ}

/-! ### One participant acts -/

/-- The network after a participant has acted. -/
def after (settings : PaxosSettings) (s : PaxosNetwork) (station : ℕ) (threw : Bool)
    (st : PaxosActivity) : PaxosNetwork where
  participants := Function.update s.participants station st.participant
  failed := if threw = true then Function.update s.failed station true else s.failed
  inFlight := s.inFlight + copiesOf settings.numberPaxosParticipants station st.published
  callbacks := s.callbacks ++ st.callbacks
  nextCall := s.nextCall

variable {threw : Bool} {st : PaxosActivity} {j n r : ℕ} {F : Multiset (ℕ × PaxosMessage)}
  {msg : PaxosMessage} {p : Participant} {Q : Unit → PaxosActivity → Prop}
  {E : PaxosActivity → Prop} {callbacks : List Callback} {kind : PaxosMessage → Bool}
  {points : PointTimePairs}

@[simp] theorem after_participants_self :
    (s.after settings station threw st).participants station = st.participant :=
  update_self _ _ _

theorem after_participants_of_ne (h : j ≠ station) :
    (s.after settings station threw st).participants j = s.participants j :=
  update_of_ne h _ _

theorem after_failed_self (h : s.failed station = false) :
    (s.after settings station threw st).failed station = threw := by
  cases threw with
  | false => exact h
  | true => exact update_self _ _ _

theorem eq_false_of_after_failed (h : (s.after settings station threw st).failed station = false) :
    threw = false := by
  cases threw with
  | false => rfl
  | true => exact absurd ((update_self _ _ _).symm.trans h) (by decide)

theorem after_failed_of_ne (h : j ≠ station) :
    (s.after settings station threw st).failed j = s.failed j := by
  cases threw with
  | false => rfl
  | true => exact update_of_ne h _ _

theorem after_unchanged :
    s.after settings station false ⟨s.participants station, [], []⟩ = s := by
  simp [after, copiesOf]

/-- What holds after every way a handler can end holds of the network. -/
theorem act_of_wp {handler : PaxosHandler Unit} {P : PaxosNetwork → Prop}
    (hfailed : s.failed station = true → P s)
    (h : s.failed station = false →
      wp handler (fun _ st => P (s.after settings station false st))
        (fun st => P (s.after settings station true st)) ⟨s.participants station, [], []⟩) :
    P (act settings s station handler) := by
  unfold act
  split_ifs with hf
  · exact hfailed hf
  · have h := h (Bool.eq_false_iff.mpr hf)
    cases hrun : handler ⟨s.participants station, [], []⟩ with
    | mk st r =>
      cases r with
      | ok a => exact (wp_of_run_ok hrun).mp h
      | error e => exact (wp_of_run_error hrun).mp h

/-- What is recorded stays recorded. -/
theorem recorded_after (h : ∀ j < n, ∀ e ∈ history, e.Recorded (s.participants j))
    (hgrows : (s.participants station).agreedData.Grows st.participant.agreedData) :
    ∀ j < n, ∀ e ∈ history, e.Recorded ((s.after settings station threw st).participants j) := by
  intro j hj e he
  by_cases hjs : j = station
  · subst hjs
    rw [after_participants_self]
    exact (h j hj e he).mono hgrows
  · rw [after_participants_of_ne hjs]
    exact h j hj e he

/-- Only the acting participant can record something. -/
theorem recordedNow_after (h : ∀ j < n, s.failed j = false →
      (s.participants j).finallyAcceptedData.length ≠ history.length →
        d.Recorded (s.participants j))
    (hst : station < n → threw = false →
      st.participant.finallyAcceptedData.length ≠ history.length → d.Recorded st.participant) :
    ∀ j < n, (s.after settings station threw st).failed j = false →
      ((s.after settings station threw st).participants j).finallyAcceptedData.length ≠
        history.length → d.Recorded ((s.after settings station threw st).participants j) := by
  intro j hj hnot hlength
  by_cases hjs : j = station
  · subst hjs
    rw [after_participants_self] at hlength ⊢
    exact hst hj (eq_false_of_after_failed hnot) hlength
  · rw [after_participants_of_ne hjs] at hlength ⊢
    rw [after_failed_of_ne hjs] at hnot
    exact h j hj hnot hlength

/-! ### Callbacks -/

theorem CallbacksOk.congr {done : ℕ} (h : CallbacksOk history done s)
    (hcallbacks : s'.callbacks = s.callbacks) (hnext : s.nextCall ≤ s'.nextCall) :
    CallbacksOk history done s' where
  nodup := by rw [hcallbacks]; exact h.nodup
  called c hc := (h.called c (hcallbacks ▸ hc)).trans_le hnext
  rounds d hd := (h.rounds d hd).trans_le hnext
  success hc := h.success (hcallbacks ▸ hc)
  fail hc := h.fail (hcallbacks ▸ hc)
  open_ hk hd c hc := h.open_ hk hd c (hcallbacks ▸ hc)

/-- A call that has not led to a proposal. -/
theorem CallbacksOk.refuse (h : CallbacksOk history history.length s)
    (hcallbacks : s'.callbacks = s.callbacks ++ [.fail station s.nextCall none])
    (hnext : s'.nextCall = s.nextCall + 1) : CallbacksOk history history.length s' where
  nodup := by
    rw [hcallbacks, map_append, nodup_append]
    refine ⟨h.nodup, nodup_singleton _, fun c hc c' hc' => ?_⟩
    obtain ⟨b, hb, rfl⟩ := mem_map.mp hc
    obtain rfl : c' = s.nextCall := mem_singleton.mp hc'
    exact (h.called b hb).ne
  called c hc := by
    rw [hnext]
    rcases mem_append.mp (hcallbacks ▸ hc) with hc | hc
    · exact (h.called c hc).trans (Nat.lt_succ_self _)
    · obtain rfl := mem_singleton.mp hc
      exact Nat.lt_succ_self _
  rounds e he := hnext ▸ (h.rounds e he).trans (Nat.lt_succ_self _)
  success hc := by
    rcases mem_append.mp (hcallbacks ▸ hc) with hc | hc
    · exact h.success hc
    · simp at hc
  fail hc := by
    rcases mem_append.mp (hcallbacks ▸ hc) with hc | hc
    · exact h.fail hc
    · simp at hc
      exact hc.2.2
  open_ hk hd := by
    rw [getElem?_eq_none hk] at hd
    cases hd

/-- A call that starts a round. -/
theorem CallbacksOk.begin (h : CallbacksOk history history.length s) (hcall : d.call = s.nextCall)
    (hcallbacks : s'.callbacks = s.callbacks) (hnext : s'.nextCall = s.nextCall + 1) :
    CallbacksOk (history ++ [d]) history.length s' where
  nodup := by rw [hcallbacks]; exact h.nodup
  called c hc := hnext ▸ (h.called c (hcallbacks ▸ hc)).trans (Nat.lt_succ_self _)
  rounds e he := by
    rw [hnext]
    rcases mem_append.mp he with he | he
    · exact (h.rounds e he).trans (Nat.lt_succ_self _)
    · obtain rfl := mem_singleton.mp he
      omega
  success hc := by
    obtain ⟨k, hk, e, he, hrest⟩ := h.success (hcallbacks ▸ hc)
    exact ⟨k, hk, e, by rwa [getElem?_append_left hk], hrest⟩
  fail hc := h.fail (hcallbacks ▸ hc)
  open_ {k e} hk he c hc := by
    rw [getElem?_append_right hk] at he
    obtain rfl : d = e := by
      rcases hsub : k - history.length with _ | m
      · rw [hsub] at he
        exact Option.some.inj he
      · rw [hsub] at he
        cases he
    rw [hcall]
    exact (h.called c (hcallbacks ▸ hc)).ne

/-- The round succeeds. -/
theorem CallbacksOk.succeed {proposal : Proposal}
    (h : CallbacksOk (history ++ [d]) history.length s)
    (hmatches : d.Matches history.length proposal)
    (hcallbacks : s'.callbacks = s.callbacks ++ [.success d.station d.call proposal])
    (hnext : s'.nextCall = s.nextCall) :
    CallbacksOk (history ++ [d]) (history ++ [d]).length s' where
  nodup := by
    rw [hcallbacks, map_append, nodup_append]
    refine ⟨h.nodup, nodup_singleton _, fun c hc c' hc' => ?_⟩
    obtain ⟨b, hb, rfl⟩ := mem_map.mp hc
    obtain rfl : c' = d.call := mem_singleton.mp hc'
    exact h.open_ le_rfl getElem?_concat_length b hb
  called c hc := by
    rw [hnext]
    rcases mem_append.mp (hcallbacks ▸ hc) with hc | hc
    · exact h.called c hc
    · obtain rfl := mem_singleton.mp hc
      exact h.rounds d (by simp)
  rounds e he := hnext ▸ h.rounds e he
  success hc := by
    rcases mem_append.mp (hcallbacks ▸ hc) with hc | hc
    · obtain ⟨k, hk, hrest⟩ := h.success hc
      exact ⟨k, by simp; omega, hrest⟩
    · obtain ⟨rfl, rfl, rfl⟩ : _ ∧ _ ∧ _ := by simpa using hc
      exact ⟨history.length, by simp, d, getElem?_concat_length, rfl, rfl, hmatches⟩
  fail hc := by
    rcases mem_append.mp (hcallbacks ▸ hc) with hc | hc
    · exact h.fail hc
    · simp at hc
  open_ hk hd := by
    rw [getElem?_eq_none hk] at hd
    cases hd

/-! ### Unfinished acceptors -/

theorem unfinished_congr (h : ∀ j, j ≠ d.station →
    s'.failed j = s.failed j ∧ s'.participants j = s.participants j) :
    unfinished n history d s' = unfinished n history d s := by
  unfold unfinished
  refine Finset.filter_congr fun j _ => and_congr_right fun hj => ?_
  rw [(h j hj).1, (h j hj).2]

theorem unfinished_after_station :
    unfinished n history d (s.after settings d.station threw st) = unfinished n history d s :=
  unfinished_congr fun _ hj => ⟨after_failed_of_ne hj, after_participants_of_ne hj⟩

theorem card_unfinished_lt (hn : d.station < n) : (unfinished n history d s).card < n := by
  have hsub : unfinished n history d s ⊂ Finset.range n := by
    refine Finset.ssubset_iff_subset_ne.mpr ⟨Finset.filter_subset _ _, fun heq => ?_⟩
    have hmem : d.station ∈ unfinished n history d s := heq ▸ Finset.mem_range.mpr hn
    exact (Finset.mem_filter.mp hmem).2.1 rfl
  simpa using Finset.card_lt_card hsub

theorem card_eq_card_erase_add (U : Finset ℕ) (j : ℕ) :
    U.card = (U.erase j).card + if j ∈ U then 1 else 0 := by
  split_ifs with h
  · exact (Finset.card_erase_add_one h).symm
  · rw [Finset.erase_eq_of_notMem h, Nat.add_zero]

/-- Only the acting acceptor can become finished. -/
theorem card_unfinished_after (hn : j < n) (hj : j ≠ d.station) (hfailed : s.failed j = false) :
    (unfinished n history d (s.after settings j threw st)).card +
        (if (s.participants j).finallyAcceptedData.length = history.length then 1 else 0) =
      (unfinished n history d s).card +
        if threw = true ∨ st.participant.finallyAcceptedData.length = history.length
          then 1 else 0 := by
  have herase : (unfinished n history d (s.after settings j threw st)).erase j =
      (unfinished n history d s).erase j := by
    ext i
    simp only [Finset.mem_erase, unfinished, Finset.mem_filter]
    refine and_congr_right fun hi => ?_
    rw [after_failed_of_ne hi, after_participants_of_ne hi]
  have hmem : j ∈ unfinished n history d s ↔
      (s.participants j).finallyAcceptedData.length = history.length := by
    simp [unfinished, hn, hj, hfailed]
  have hmem' : j ∈ unfinished n history d (s.after settings j threw st) ↔
      threw = true ∨ st.participant.finallyAcceptedData.length = history.length := by
    simp [unfinished, hn, hj, after_failed_self hfailed]
  rw [card_eq_card_erase_add (unfinished n history d s) j,
    card_eq_card_erase_add (unfinished n history d (s.after settings j threw st)) j, herase]
  simp only [hmem, hmem']
  omega

/-! ### Messages that change nothing -/

/-- Losing messages keeps the round going. -/
theorem Running.drop (h : Running settings ordered history d s) (hF : F ≤ s.inFlight) :
    Running settings ordered history d { s with inFlight := F } where
  two_le := h.two_le
  station := h.station
  points := h.points
  messages x hx := h.messages x (Multiset.mem_of_le hF hx)
  proposer := h.proposer
  acceptors j hj hne := by
    obtain ⟨slack, hok, hle⟩ := h.acceptors j hj hne
    exact ⟨slack, hok, (Nat.add_le_add (total_mono hF) (totalTo_mono hF)).trans hle⟩
  promises := (Nat.add_le_add (total_mono hF) (totalTo_mono hF)).trans h.promises
  preparing hneeded := by
    obtain ⟨houtstanding, haccept, hok, hresponse, hall⟩ := h.preparing hneeded
    exact ⟨houtstanding, Nat.le_zero.mp (haccept ▸ total_mono hF),
      fun r => Nat.le_zero.mp (hok r ▸ totalTo_mono hF),
      Nat.le_zero.mp (hresponse ▸ totalTo_mono hF), hall⟩
  oks := (Nat.add_le_add (total_mono hF) (totalTo_mono hF)).trans h.oks
  responses hneeded := (Nat.add_le_add_left (totalTo_mono hF) _).trans (h.responses hneeded)
  recorded := h.recorded
  recordedNow := h.recordedNow
  allResponses := h.allResponses

theorem Idle.drop (h : Idle settings ordered history s) (hF : F ≤ s.inFlight) :
    Idle settings ordered history { s with inFlight := F } where
  participants := h.participants
  messages x hx := h.messages x (Multiset.mem_of_le hF hx)
  recorded := h.recorded

/-- A participant ignores noise. -/
theorem wp_noise (hr : p.nodeId = r) (h : Noise (r, msg)) (hQ : Q () ⟨p, [], []⟩) :
    wp (processPaxosMessage settings msg) Q E ⟨p, [], []⟩ := by
  cases msg with
  | promise msg =>
    simp only [processPaxosMessage, processPromiseMessage, wp_bind,
      wp_getParticipant, wp_ite, wp_pure]
    exact ⟨fun _ => hQ, fun heq => absurd (hr ▸ h) heq⟩
  | response msg =>
    simp only [processPaxosMessage, processResponseMessage, wp_bind,
      wp_getParticipant, wp_ite, wp_pure]
    exact ⟨fun _ => hQ, fun heq => absurd (hr ▸ h) heq⟩
  | prepare | accept | ok => exact h.elim

/-! ### Acceptors -/

/-- The step of an acceptor keeps the round going. -/
theorem Running.acceptor_step (h : Running settings ordered history d s)
    (hx : (j, msg) ∈ s.inFlight) (hj : j ≠ d.station) (hfailed : s.failed j = false) {slack : ℕ}
    (hslack : total isAccept s.inFlight +
      totalTo j isOk s.inFlight ≤ slack)
    (hpreparing : 0 < (s.participants d.station).currentProposal.neededForQuorum →
      slack = settings.numberPaxosParticipants - 1 ∧ msg.isPrepare = true)
    (hst : AcceptorOutcome settings.numberPaxosParticipants history d j (s.participants j) slack
      msg threw st) :
    Running settings ordered history d
      ({ s with inFlight := s.inFlight.erase (j, msg) }.after settings j threw st) := by
  have hjlt : j < settings.numberPaxosParticipants := (h.messages _ hx).1
  obtain ⟨slack', hok, hle, hsame⟩ := hst.acceptor
  -- the counts after the step
  have hprepares := total_step (f := isPrepare) (l := st.published) hx hjlt
  have haccepts := total_step (f := isAccept) (l := st.published) hx hjlt
  rw [hst.requests.1] at hprepares
  rw [hst.requests.2] at haccepts
  have hpromises := totalTo_step (n := settings.numberPaxosParticipants) (a := d.station)
    (f := isPromiseFor d.station) (l := st.published) (F := s.inFlight) (r := j) msg
  have hresponses := totalTo_step (n := settings.numberPaxosParticipants) (a := d.station)
    (f := isResponseFor d.station) (l := st.published) (F := s.inFlight) (r := j) msg
  have hoks := fun a => totalTo_step (n := settings.numberPaxosParticipants) (a := a)
    (f := isOk) (l := st.published) (F := s.inFlight) (r := j) msg
  have hokself := totalTo_step_self (n := settings.numberPaxosParticipants)
    (f := isOk) (l := st.published) hx
  have hpromised := hst.promises
  have hoked := hst.oks
  have hresponded := hst.responses
  constructor
  case two_le => exact h.two_le
  case station => exact h.station
  case points => exact h.points
  case messages =>
    intro x hx'
    rcases Multiset.mem_add.mp hx' with hx' | hx'
    · exact h.messages x (Multiset.mem_of_mem_erase hx')
    · obtain ⟨hlt, hne, hm⟩ := mem_copiesOf.mp hx'
      exact ⟨hlt, hst.published _ hm _ hne⟩
  case proposer => rw [after_participants_of_ne hj.symm]; exact h.proposer
  case acceptors =>
    intro i hi hne
    by_cases hij : i = j
    · subst hij
      rw [after_participants_self]
      refine ⟨slack', hok, ?_⟩
      simp only [after]
      omega
    · rw [after_participants_of_ne hij]
      obtain ⟨slack₁, hok₁, hle₁⟩ := h.acceptors i hi hne
      refine ⟨slack₁, hok₁, ?_⟩
      have := hoks i
      simp only [after]
      omega
  case promises =>
    rw [after_participants_of_ne hj.symm]
    have := h.promises
    simp only [after]
    omega
  case preparing =>
    rw [after_participants_of_ne hj.symm]
    intro hneeded
    obtain ⟨houtstanding, haccept, hok', hresponse, hall⟩ := h.preparing hneeded
    obtain ⟨rfl, hprepare⟩ := hpreparing hneeded
    obtain rfl : slack' = settings.numberPaxosParticipants - 1 := hsame hprepare
    have hnot : msg.isAccept = false ∧ msg.isOk = false := by
      cases msg <;> first | exact ⟨rfl, rfl⟩ | cases hprepare
    rw [hnot.1] at hoked
    -- the acceptor has not stored anything, so it has nothing to respond to
    have hbefore := (hall j hjlt hj).of_preparing rfl h.two_le
    have hafter := hok.of_preparing rfl h.two_le
    rw [hbefore.2, hafter.2, length_entries, if_pos (Or.inr rfl), if_pos rfl] at hresponded
    refine ⟨houtstanding, ?_, fun r => ?_, ?_, fun i hi hne => ?_⟩
    · simp only [after]
      omega
    · have := hoks r
      have := hok' r
      simp only [after]
      simp only [Bool.false_eq_true, if_false] at hoked
      omega
    · simp only [after]
      omega
    · by_cases hij : i = j
      · subst hij
        rw [after_participants_self]
        exact hok
      · rw [after_participants_of_ne hij]
        exact hall i hi hne
  case oks =>
    rw [after_participants_of_ne hj.symm]
    have := h.oks
    have := hoks d.station
    simp only [after]
    omega
  case responses =>
    rw [after_participants_of_ne hj.symm]
    intro hneeded
    have := h.responses hneeded
    have hcard : (unfinished settings.numberPaxosParticipants history d
        ({ s with inFlight := s.inFlight.erase (j, msg) }.after settings j threw st)).card + _ =
      (unfinished settings.numberPaxosParticipants history d s).card + _ :=
      card_unfinished_after hjlt hj hfailed
    simp only [after] at hcard ⊢
    omega
  case recorded => exact fun hordered => recorded_after (h.recorded hordered) hst.grows
  case recordedNow =>
    refine fun hordered => recordedNow_after (h.recordedNow hordered) fun _ hnot hlength => ?_
    by_cases hbefore : (s.participants j).finallyAcceptedData.length = history.length
    · exact hst.recorded hnot hlength hbefore
    · exact (h.recordedNow hordered j hjlt hfailed hbefore).mono hst.grows
  case allResponses => rw [after_participants_of_ne hj.symm]; exact h.allResponses

/-! ### The proposer -/

/-- A step of the proposer that sends nothing keeps the round going. -/
theorem Running.proposer_step (h : Running settings ordered history d s) (hF : F ≤ s.inFlight)
    (hproposer : ProposerOk history d p) (hpromises : total isPrepare F +
      totalTo d.station (isPromiseFor d.station) F ≤
        p.currentProposal.neededForQuorum) (hpreparing : 0 < p.currentProposal.neededForQuorum →
      0 < (s.participants d.station).currentProposal.neededForQuorum ∧
      p.currentProposal.outstandingOks =
        (s.participants d.station).currentProposal.outstandingOks)
    (hoks : total isAccept F + totalTo d.station isOk F ≤
      p.currentProposal.outstandingOks) (hresponses : p.currentProposal.neededForQuorum = 0 →
      (if 0 < p.currentProposal.outstandingOks then 1 else 0) +
        (unfinished settings.numberPaxosParticipants history d s).card +
        totalTo d.station (isResponseFor d.station) F ≤ p.remainingResponses)
    (hgrows : (s.participants d.station).agreedData.Grows p.agreedData)
    (hrecorded : ordered → threw = false → p.finallyAcceptedData.length ≠ history.length →
      d.Recorded p) (hall : ordered → p.currentProposal.neededForQuorum = 0 →
      0 < p.currentProposal.outstandingOks →
        p.remainingResponses = settings.numberPaxosParticipants) :
    Running settings ordered history d
      ({ s with inFlight := F }.after settings d.station threw ⟨p, [], []⟩) := by
  have hdrop := h.drop hF
  have hflight : ({ s with inFlight := F }.after settings d.station threw ⟨p, [], []⟩).inFlight =
      F := by simp [after, copiesOf]
  constructor
  case two_le => exact h.two_le
  case station => exact h.station
  case points => exact h.points
  case messages => rw [hflight]; exact hdrop.messages
  case proposer => rw [after_participants_self]; exact hproposer
  case acceptors =>
    intro j hj hne
    rw [hflight, after_participants_of_ne hne]
    exact hdrop.acceptors j hj hne
  case promises => rw [hflight, after_participants_self]; exact hpromises
  case preparing =>
    rw [hflight, after_participants_self]
    intro hneeded
    obtain ⟨hbefore, houtstanding⟩ := hpreparing hneeded
    obtain ⟨houtstanding', haccept, hok, hresponse, hacceptors⟩ := hdrop.preparing hbefore
    refine ⟨houtstanding.trans houtstanding', haccept, hok, hresponse, fun j hj hne => ?_⟩
    rw [after_participants_of_ne hne]
    exact hacceptors j hj hne
  case oks => rw [hflight, after_participants_self]; exact hoks
  case responses =>
    rw [hflight, after_participants_self, unfinished_after_station]
    exact hresponses
  case recorded => exact fun hordered => recorded_after (h.recorded hordered) hgrows
  case recordedNow =>
    exact fun hordered => recordedNow_after (h.recordedNow hordered) fun _ => hrecorded hordered
  case allResponses => rw [after_participants_self]; exact hall

/-- The request to accept starts the second phase of the round. -/
theorem Running.start_accept (h : Running settings ordered history d s) (hF : F ≤ s.inFlight)
    (hproposer : ProposerOk history d p)
    (hneeded : 0 < (s.participants d.station).currentProposal.neededForQuorum)
    (hpromises : total isPrepare F +
      totalTo d.station (isPromiseFor d.station) F = 0)
    (hnone : p.currentProposal.neededForQuorum = 0)
    (houtstanding : p.currentProposal.outstandingOks =
      (s.participants d.station).currentProposal.outstandingOks)
    (hremaining : p.remainingResponses = settings.numberPaxosParticipants)
    (hfinal : p.finallyAcceptedData.length = history.length)
    (hagreed : p.agreedData = (s.participants d.station).agreedData) :
    Running settings ordered history d
      ({ s with inFlight := F }.after settings d.station false
        ⟨p, [.accept ⟨history.length, d.proposalId, d.station, d.absolute⟩], []⟩) := by
  have hdrop := h.drop hF
  obtain ⟨hone, haccept, hok, hresponse, hacceptors⟩ := hdrop.preparing hneeded
  have hcard : (unfinished settings.numberPaxosParticipants history d s).card <
    settings.numberPaxosParticipants := card_unfinished_lt h.station
  obtain ⟨F', hflight⟩ : ∃ F', F + copiesOf settings.numberPaxosParticipants d.station
    [.accept ⟨history.length, d.proposalId, d.station, d.absolute⟩] = F' := ⟨_, rfl⟩
  have hafter : ({ s with inFlight := F }.after settings d.station false
      ⟨p, [.accept ⟨history.length, d.proposalId, d.station, d.absolute⟩], []⟩).inFlight =
      F' := hflight
  -- only the copies of the request are new
  have htotal : total isAccept F' ≤ total isAccept F +
    (settings.numberPaxosParticipants - 1) := hflight ▸ total_add_copiesOf_le h.station
  have haccept : total isAccept F = 0 := haccept
  have hother : ∀ r (kind : PaxosMessage → Bool), (∀ msg, kind (.accept msg) = false) →
      totalTo r kind F' = totalTo r kind F :=
    fun r kind hkind => hflight ▸ totalTo_add_copiesOf_of_not (hkind _)
  have hprepare : total isPrepare F' = total isPrepare F :=
    hflight ▸ total_add_copiesOf_of_not h.station rfl
  constructor
  case two_le => exact h.two_le
  case station => exact h.station
  case points => exact h.points
  case messages =>
    rw [hafter, ← hflight]
    intro x hx
    rcases Multiset.mem_add.mp hx with hx | hx
    · exact hdrop.messages x hx
    · obtain ⟨hlt, hne, hm⟩ := mem_copiesOf.mp hx
      obtain ⟨r, m⟩ := x
      obtain rfl := mem_singleton.mp hm
      exact ⟨hlt, .inr ⟨rfl, hne⟩⟩
  case proposer => rw [after_participants_self]; exact hproposer
  case acceptors =>
    intro j hj hne
    rw [hafter, after_participants_of_ne hne, hother _ _ (fun _ => rfl)]
    refine ⟨_, hacceptors j hj hne, ?_⟩
    have : totalTo j isOk F = 0 := hok j
    omega
  case promises =>
    rw [hafter, after_participants_self, hprepare, hother _ _ (fun _ => rfl)]
    omega
  case preparing =>
    rw [after_participants_self]
    exact fun hpos => absurd hnone hpos.ne'
  case oks =>
    rw [hafter, after_participants_self, hother _ _ (fun _ => rfl), houtstanding]
    have : totalTo d.station isOk F = 0 := hok _
    have : (s.participants d.station).currentProposal.outstandingOks =
      settings.numberPaxosParticipants - 1 := hone
    omega
  case responses =>
    rw [hafter, after_participants_self, unfinished_after_station, hother _ _ (fun _ => rfl)]
    intro _
    have : totalTo d.station (isResponseFor d.station) F = 0 := hresponse
    show _ + (unfinished settings.numberPaxosParticipants history d s).card + _ ≤ _
    rw [hremaining, this]
    split_ifs <;> omega
  case recorded =>
    exact fun hordered => recorded_after (h.recorded hordered) (hagreed ▸ fun _ _ h => h)
  case recordedNow =>
    exact fun hordered => recordedNow_after (h.recordedNow hordered) fun _ _ hlength =>
      absurd hfinal hlength
  case allResponses => rw [after_participants_self]; exact fun _ _ _ => hremaining

/-- The last response has come: the round is over. -/
theorem Running.succeed (h : Running settings ordered history d s) (hF : F ≤ s.inFlight)
    (hp : IdleParticipant (history ++ [d]) d.station p)
    (hneeded : (s.participants d.station).currentProposal.neededForQuorum = 0)
    (hcard : (unfinished settings.numberPaxosParticipants history d s).card = 0)
    (hoks : totalTo d.station isOk F = 0)
    (hresponses : totalTo d.station (isResponseFor d.station) F = 0)
    (hgrows : (s.participants d.station).agreedData.Grows p.agreedData)
    (hrecorded : ordered → d.Recorded p) :
    Idle settings ordered (history ++ [d])
      ({ s with inFlight := F }.after settings d.station false ⟨p, [], callbacks⟩) := by
  have hdrop := h.drop hF
  have hflight : ({ s with inFlight := F }.after settings d.station false
      ⟨p, [], callbacks⟩).inFlight = F := by simp [after, copiesOf]
  -- all acceptors have finished
  have hfinished : ∀ j < settings.numberPaxosParticipants, j ≠ d.station →
      s.failed j = false ∧ (s.participants j).finallyAcceptedData.length ≠ history.length := by
    intro j hj hne
    have hnot : j ∉ unfinished settings.numberPaxosParticipants history d s := by
      rw [Finset.card_eq_zero.mp hcard]
      exact Finset.notMem_empty j
    simpa [unfinished, hj, hne] using hnot
  have hacceptors : ∀ j < settings.numberPaxosParticipants, j ≠ d.station →
      (total isAccept F = 0 ∧ totalTo j isOk F = 0) ∧
      IdleParticipant (history ++ [d]) j (s.participants j) := by
    intro j hj hne
    obtain ⟨slack, hok, hle⟩ := hdrop.acceptors j hj hne
    obtain ⟨rfl, hidle⟩ := hok.of_finished (hfinished j hj hne).2
    exact ⟨by simpa using hle, hidle⟩
  have haccepts : total isAccept F = 0 := by
    have htwo := h.two_le
    by_cases hzero : d.station = 0
    · exact (hacceptors 1 (by omega) (by omega)).1.1
    · exact (hacceptors 0 (by omega) (by omega)).1.1
  have hpromises : total isPrepare F +
      totalTo d.station (isPromiseFor d.station) F ≤ 0 := by
    have := hdrop.promises
    exact hneeded ▸ this
  constructor
  case participants =>
    intro j hj
    by_cases hjd : j = d.station
    · subst hjd
      rw [after_participants_self]
      exact hp
    · rw [after_participants_of_ne hjd]
      exact (hacceptors j hj hjd).2
  case messages =>
    rw [hflight]
    intro x hx
    obtain ⟨hlt, hnoise | hround⟩ := hdrop.messages x hx
    · exact ⟨hlt, hnoise⟩
    · exfalso
      obtain ⟨r, msg⟩ := x
      cases msg with
      | prepare msg =>
        have := total_pos (f := isPrepare) hx rfl
        omega
      | promise msg =>
        obtain ⟨rfl, rfl⟩ : _ ∧ r = d.station := hround
        have := totalTo_pos (f := isPromiseFor d.station) hx
          (by simp [isPromiseFor])
        simp only at this
        omega
      | accept msg =>
        have := total_pos (f := isAccept) hx rfl
        omega
      | ok msg =>
        have hpos := totalTo_pos (f := isOk) hx rfl
        by_cases hrd : r = d.station
        · subst hrd
          exact absurd hoks hpos.ne'
        · exact absurd (hacceptors r hlt hrd).1.2 hpos.ne'
      | response msg =>
        obtain ⟨rfl, rfl⟩ : _ ∧ r = d.station := hround
        have hpos := totalTo_pos (f := isResponseFor d.station) hx
          (by simp [isResponseFor])
        exact absurd hresponses hpos.ne'
  case recorded =>
    intro hordered j hj e he
    by_cases hjd : j = d.station
    · subst hjd
      rw [after_participants_self]
      rcases mem_append.mp he with he | he
      · exact (h.recorded hordered _ hj e he).mono hgrows
      · obtain rfl := mem_singleton.mp he
        exact hrecorded hordered
    · rw [after_participants_of_ne hjd]
      rcases mem_append.mp he with he | he
      · exact h.recorded hordered j hj e he
      · obtain rfl := mem_singleton.mp he
        obtain ⟨hnot, hlength⟩ := hfinished j hj hjd
        exact h.recordedNow hordered j hj hnot hlength

/-! ### Messages for the proposer -/

/-- The round goes on, or it is over and the success has been reported. -/
def Progress (settings : PaxosSettings) (ordered : Prop) (history : List Round) (d : Round)
    (s : PaxosNetwork) (station : ℕ) (threw : Bool) (st : PaxosActivity) : Prop :=
  st.callbacks = [] ∧ Running settings ordered history d (s.after settings station threw st) ∨
  ∃ proposal, d.Matches history.length proposal ∧
    st.callbacks = [.success d.station d.call proposal] ∧
    Idle settings ordered (history ++ [d]) (s.after settings station threw st)

/-- How a message of a round is handled. -/
def Handles (settings : PaxosSettings) (ordered : Prop) (history : List Round) (d : Round)
    (s : PaxosNetwork) (r : ℕ) (msg : PaxosMessage) : Prop :=
  wp (processPaxosMessage settings msg)
    (fun _ => Progress settings ordered history d
      { s with inFlight := s.inFlight.erase (r, msg) } r false)
    (Progress settings ordered history d { s with inFlight := s.inFlight.erase (r, msg) } r true)
    ⟨s.participants r, [], []⟩

/-- A promise for the proposal. -/
theorem Running.promise_step (h : Running settings ordered history d s) {msg : PromiseMessage}
    (hx : (d.station, PaxosMessage.promise msg) ∈ s.inFlight)
    (hmsg : msg = ⟨history.length, d.proposalId, d.station, false, 0, 0⟩) :
    Handles settings ordered history d s d.station (.promise msg) := by
  unfold Handles
  obtain ⟨p, hp⟩ : ∃ p, s.participants d.station = p := ⟨_, rfl⟩
  have hproposer := hp ▸ h.proposer
  have hF := Multiset.erase_le (d.station, PaxosMessage.promise msg) s.inFlight
  have hprepares := total_mono (f := isPrepare) hF
  have hfor : isPromiseFor d.station (.promise msg) = true := by
    simp [isPromiseFor, hmsg]
  have hpromises := totalTo_erase (r := d.station)
    (f := isPromiseFor d.station) hx
  rw [if_pos ⟨rfl, hfor⟩] at hpromises
  have hle := hp ▸ h.promises
  have hneeded : 0 < p.currentProposal.neededForQuorum := by omega
  have hinit : p.currentProposal.initialized = true := by
    simp [Proposal.initialized, hproposer.isCurrent.points, h.points]
  have hcurrent := hproposer.isCurrent
  obtain ⟨haccepted, hfinal⟩ := hproposer.of_needed hneeded
  subst hmsg
  simp only [processPaxosMessage, processPromiseMessage, wp_bind,
    wp_getParticipant, wp_ite, wp_pure, wp_modifyParticipant, hp, hinit,
    hproposer.nodeId, Bool.false_eq_true, false_and, if_false]
  refine ⟨fun hne => absurd rfl hne, fun _ => ⟨fun hnot => ?_, fun _ => ⟨fun hzero => ?_,
    fun hzero => ?_⟩⟩⟩
  · simp at hnot
    omega
  · simp only [startAccept, wp_bind, wp_getParticipant, wp_ite,
      wp_pure, wp_modifyParticipant, wp_cancel, wp_schedule, wp_promisedFor,
      wp_publishMessage, hproposer.promised, Option.getD_some]
    refine ⟨fun hne => absurd rfl hne, fun _ => ?_⟩
    have hmessage : ([] ++ [PaxosMessage.accept ⟨p.currentProposal.instanceId,
        p.currentProposal.proposalId, d.station, p.currentProposal.points.map fun point =>
          (point.1, point.2 + p.currentProposal.startTime)⟩]) =
        [.accept ⟨history.length, d.proposalId, d.station, d.absolute⟩] := by
      simp [hcurrent.points, hcurrent.startTime, hcurrent.instanceId, hcurrent.proposalId,
        Round.absolute]
    rw [hmessage]
    have houtstanding : 0 < p.currentProposal.outstandingOks := by
      have := (hp ▸ h.preparing) hneeded
      have := h.two_le
      omega
    refine .inl ⟨rfl, h.start_accept hF ⟨rfl, hcurrent.counted _ _ _,
      hproposer.received, ?_, ?_, .inr (.inl ⟨hzero, houtstanding, ?_, hfinal⟩)⟩ (hp ▸ hneeded)
      (by omega) hzero (by rw [hp]) rfl (by rw [hfinal, length_entries]) (by rw [hp])⟩
    · exact update_self _ _ _
    · intro i hi
      exact (update_of_ne (by omega) _ _).trans (hproposer.later i hi)
    · simp [Round.entry, hcurrent.points, hcurrent.instanceId,
        hcurrent.proposalId]
  · refine .inl ⟨rfl, h.proposer_step hF ⟨rfl, hcurrent.counted _ _ _,
      hproposer.received, hproposer.promised, hproposer.later,
      .inl ⟨Nat.pos_of_ne_zero hzero, haccepted, hfinal⟩⟩ ?_ ?_ ?_ ?_ ?_ ?_ ?_⟩
    · show _ ≤ p.currentProposal.neededForQuorum - 1
      omega
    · exact fun _ => ⟨hp ▸ hneeded, by rw [hp]⟩
    · exact (hp ▸ (h.drop hF).oks)
    · exact fun hnone => absurd hnone hzero
    · rw [hp]
      exact fun _ _ h => h
    · exact fun _ _ hne => absurd (by rw [hfinal, length_entries]) hne
    · exact fun _ hnone => absurd hnone hzero

/-- A response is counted, and the last one ends the proposal. -/
theorem wp_processResponseMessage {msg : ResponseMessage} {published : List PaxosMessage}
    {call : ℕ} (hstation : msg.stationId = p.nodeId) (hpos : 0 < p.remainingResponses)
    (hcall : p.currentProposal.call = some call) (hlast : p.remainingResponses = 1 →
      Q () ⟨{ p with
          remainingResponses := 0
          timeouts := p.timeouts.filter fun e => some e.1 ≠ p.currentProposal.timeoutEvent
          currentProposal := .none }, published,
        callbacks ++ [.success p.nodeId call p.currentProposal]⟩)
    (hmore : p.remainingResponses ≠ 1 →
      Q () ⟨{ p with remainingResponses := p.remainingResponses - 1 }, published, callbacks⟩) :
    wp (processResponseMessage msg) Q E ⟨p, published, callbacks⟩ := by
  have hpred : u32Pred p.remainingResponses = p.remainingResponses - 1 := if_neg hpos.ne'
  simp only [processResponseMessage, callOfCurrent,
    resetProposal, wp_bind, wp_getParticipant, wp_ite, wp_pure,
    wp_modifyParticipant, hpred, hcall, wp_callBack, wp_cancel]
  refine ⟨fun hne => absurd hstation hne, fun _ => ⟨fun hzero => ?_, fun hzero => ?_⟩⟩
  · have hone : p.remainingResponses = 1 := by omega
    rw [hone]
    exact hlast hone
  · exact hmore (by omega)

/-- A response of an acceptor. -/
theorem Running.response_step (h : Running settings ordered history d s) {msg : ResponseMessage}
    (hx : (d.station, PaxosMessage.response msg) ∈ s.inFlight)
    (hmsg : msg = ⟨history.length, d.proposalId, d.station⟩)
    (hfailed : s.failed d.station = false)
    (hordered : ordered → (s.participants d.station).currentProposal.outstandingOks = 0) :
    Handles settings ordered history d s d.station (.response msg) := by
  unfold Handles
  have hF := Multiset.erase_le (d.station, PaxosMessage.response msg) s.inFlight
  have herase := totalTo_erase (r := d.station) (f := isResponseFor d.station) hx
  rw [if_pos ⟨rfl, by simp [isResponseFor, hmsg]⟩] at herase
  have hrecorded := fun ho => h.recordedNow ho d.station h.station hfailed
  obtain ⟨F, hFeq⟩ : ∃ F, s.inFlight.erase (d.station, PaxosMessage.response msg) = F := ⟨_, rfl⟩
  obtain ⟨p, hp⟩ : ∃ p, s.participants d.station = p := ⟨_, rfl⟩
  have hproposer := hp ▸ h.proposer
  have hcurrent := hproposer.isCurrent
  have hneeded : p.currentProposal.neededForQuorum = 0 := by
    by_contra hne
    have := ((hp ▸ h.preparing) (Nat.pos_of_ne_zero hne)).2.2.2.1
    omega
  have hresponses := (hp ▸ h.responses) hneeded
  rw [hFeq] at hF herase ⊢
  rw [hp] at hordered hrecorded ⊢
  have hoks : total isAccept F + totalTo d.station isOk F ≤
    p.currentProposal.outstandingOks := hp ▸ (h.drop hF).oks
  refine wp_processResponseMessage (by rw [hmsg]; exact hproposer.nodeId.symm) (by omega)
    hcurrent.call (fun hone => ?_) fun hone => ?_
  · -- the last response, so all OK messages have come, too
    have houtstanding : p.currentProposal.outstandingOks = 0 := by
      by_contra hne
      rw [if_pos (Nat.pos_of_ne_zero hne)] at hresponses
      omega
    obtain ⟨haccepted, hfinal⟩ := hproposer.of_all_oks hneeded houtstanding
    refine .inr ⟨p.currentProposal, hcurrent, by simp [hproposer.nodeId], h.succeed hF ?_
      (hp ▸ hneeded) (by omega) (by omega) (by omega) ?_ fun ho => ?_⟩
    · refine ⟨hproposer.nodeId, hfinal, haccepted, rfl, hproposer.received, fun i hi => ?_⟩
      rw [length_append, length_singleton] at hi
      exact hproposer.later i (by omega)
    · rw [hp]
      exact fun _ _ h => h
    · exact (hrecorded ho (by rw [hfinal, length_entries]; simp)).mono fun _ _ h => h
  · refine .inl ⟨rfl, h.proposer_step hF ⟨hproposer.nodeId, hcurrent, hproposer.received,
      hproposer.promised, hproposer.later, hproposer.phase⟩ ?_ ?_ hoks (fun _ => ?_) ?_
      (fun ho _ hne => (hrecorded ho hne).mono fun _ _ h => h)
      fun ho _ hpos => absurd (hordered ho) hpos.ne'⟩
    · exact hp ▸ (h.drop hF).promises
    · rw [hp]
      exact fun hpos => ⟨hpos, rfl⟩
    · simp only
      omega
    · rw [hp]
      exact fun _ _ h => h

/-- The acceptor of the proposer has nothing to do with an OK message. -/
theorem wp_processOKMessage_own {msg : OKMessage}
    (hstation : msg.stationId = st.participant.nodeId) (hQ : Q () st) :
    wp (PaxosAcceptor.processOKMessage settings msg) Q E st := by
  simp only [PaxosAcceptor.processOKMessage, wp_bind, wp_getParticipant, wp_ite,
    wp_pure]
  exact ⟨fun _ => hQ, fun hne => absurd hstation hne⟩

/-- An OK message for the proposer. -/
theorem Running.ok_step (h : Running settings ordered history d s) {msg : OKMessage}
    (hx : (d.station, PaxosMessage.ok msg) ∈ s.inFlight)
    (hmsg : msg.stationId = d.station) :
    Handles settings ordered history d s d.station (.ok msg) := by
  unfold Handles
  have hF := Multiset.erase_le (d.station, PaxosMessage.ok msg) s.inFlight
  have haccepts := total_mono (f := isAccept) hF
  have herase := totalTo_erase (r := d.station) (f := isOk) hx
  rw [if_pos ⟨rfl, rfl⟩] at herase
  obtain ⟨F, hFeq⟩ : ∃ F, s.inFlight.erase (d.station, PaxosMessage.ok msg) = F := ⟨_, rfl⟩
  obtain ⟨p, hp⟩ : ∃ p, s.participants d.station = p := ⟨_, rfl⟩
  have hproposer := hp ▸ h.proposer
  have hcurrent := hproposer.isCurrent
  have hneeded : p.currentProposal.neededForQuorum = 0 := by
    by_contra hne
    have := ((hp ▸ h.preparing) (Nat.pos_of_ne_zero hne)).2.2.1 d.station
    omega
  have hoks := hp ▸ h.oks
  have houtstanding : 0 < p.currentProposal.outstandingOks := by omega
  obtain ⟨haccepted, hfinal⟩ := hproposer.of_outstanding hneeded houtstanding
  have hpred : u32Pred p.currentProposal.outstandingOks = p.currentProposal.outstandingOks - 1 :=
    if_neg houtstanding.ne'
  rw [hFeq] at hF herase haccepts ⊢
  rw [hp]
  have hresponses : (if 0 < p.currentProposal.outstandingOks then 1 else 0) +
      (unfinished settings.numberPaxosParticipants history d s).card +
      totalTo d.station (isResponseFor d.station) F ≤ p.remainingResponses :=
    (hp ▸ (h.drop hF).responses) hneeded
  rw [if_pos houtstanding] at hresponses
  have hpromises : total isPrepare F + totalTo d.station
      (isPromiseFor d.station) F ≤ p.currentProposal.neededForQuorum :=
    hp ▸ (h.drop hF).promises
  have hall := hp ▸ h.allResponses
  have hstation : msg.stationId = p.nodeId := hmsg.trans hproposer.nodeId.symm
  have hstored : p.finallyAcceptedData ++ [p.acceptedDataCurrentInstance] =
      entries (history ++ [d]) d.station := by
    rw [hfinal, haccepted, entries_concat]
  have hlater : ∀ i, (history ++ [d]).length ≤ i → p.instanceToPromised i = none := by
    intro i hi
    rw [length_append, length_singleton] at hi
    exact hproposer.later i (by omega)
  simp only [processPaxosMessage, processOKMessage, wp_bind,
    wp_getParticipant, wp_ite, wp_pure, wp_modifyParticipant, hpred]
  refine ⟨fun hne => absurd hstation hne, fun _ => ⟨fun hzero => ?_, fun hzero => ?_⟩⟩
  · refine wp_processResponseMessage hstation (by omega : 0 < p.remainingResponses) hcurrent.call
      (fun hone => ?_) fun hone => ?_
    · -- all acceptors have responded before, so the proposal is reset
      have hlast : p.remainingResponses = 1 := hone
      simp only [pushFinalized, resetAccepted, wp_bind,
        wp_modifyParticipant, wp_getParticipant, Proposal.none, forEach_nil, wp_pure]
      refine wp_processOKMessage_own hstation (.inr ⟨_, hcurrent.counted
        p.currentProposal.neededForQuorum (p.currentProposal.outstandingOks - 1)
        p.currentProposal.timeoutEvent, by simp [hproposer.nodeId], h.succeed hF
        ⟨hproposer.nodeId, hstored, rfl, rfl, hproposer.received, hlater⟩ (hp ▸ hneeded) (by omega)
        (by omega) (by omega) ?_ fun ho => ?_⟩)
      · rw [hp]
        exact fun _ _ h => h
      · have := hall ho hneeded houtstanding
        have := h.two_le
        omega
    · have hmore : p.remainingResponses ≠ 1 := hone
      simp only [pushFinalized, resetAccepted, wp_bind,
        wp_modifyParticipant, wp_getParticipant]
      -- the data is final, whether or not it can be entered into the agreed data
      have hrunning : ∀ threw o, p.agreedData.Grows o →
          (threw = false → ∀ point ∈ d.points, point.2 + d.startTime ∈ o.times point.1) →
          Running settings ordered history d ({ s with inFlight := F }.after settings d.station
            threw ⟨{ p with
              agreedData := o
              finallyAcceptedData := p.finallyAcceptedData ++ [p.acceptedDataCurrentInstance]
              acceptedDataCurrentInstance := .none
              remainingResponses := p.remainingResponses - 1
              currentProposal := { p.currentProposal with
                outstandingOks := p.currentProposal.outstandingOks - 1 } }, [], []⟩) := by
        intro threw o hgrows hrecorded
        refine h.proposer_step hF ⟨hproposer.nodeId, hcurrent.counted _ _ _, hproposer.received,
          hproposer.promised, hproposer.later, .inr (.inr ⟨hneeded, hzero, rfl, hstored⟩)⟩
          hpromises (fun hpos => absurd hneeded hpos.ne') ?_ (fun _ => ?_) (hp ▸ hgrows)
          (fun _ hthrew _ => hrecorded hthrew) fun _ _ hpos => absurd hzero hpos.ne'
        · simp only
          omega
        · simp only [hzero, lt_irrefl, if_false]
          omega
      refine wp_recordAll.imp ?_ ?_
      · rintro _ st ⟨o, rfl, hgrows, hall⟩
        refine wp_processOKMessage_own hstation (.inl ⟨rfl, hrunning false o hgrows fun _ => ?_⟩)
        intro point hpoint
        have := hall point (hcurrent.points ▸ hpoint)
        rwa [hcurrent.startTime] at this
      · rintro st ⟨o, rfl, hgrows⟩
        exact .inl ⟨rfl, hrunning true o hgrows fun h => by cases h⟩
  · refine wp_processOKMessage_own hstation (.inl ⟨rfl, h.proposer_step hF ⟨hproposer.nodeId,
      hcurrent.counted _ _ _, hproposer.received, hproposer.promised, hproposer.later,
      .inr (.inl ⟨hneeded, Nat.pos_of_ne_zero hzero, haccepted, hfinal⟩)⟩ hpromises
      (fun hpos => absurd hneeded hpos.ne') ?_ (fun _ => ?_) ?_
      (fun _ _ hne => absurd (by rw [hfinal, length_entries]) hne)
      fun ho _ _ => hall ho hneeded houtstanding⟩)
    · simp only
      omega
    · simp only [Nat.pos_of_ne_zero hzero, if_true]
      omega
    · rw [hp]
      exact fun _ _ h => h

/-! ### A new round -/

section

variable (h : Idle settings ordered history s)
include h

/-- Between two rounds nothing is in flight that anybody counts. -/
theorem Idle.totalTo_eq_zero (hkind : ∀ msg, Noise (r, msg) → kind msg = false) :
    totalTo r kind s.inFlight = 0 := by
  refine Multiset.countP_eq_zero.mpr fun x hx hx' => ?_
  obtain ⟨rfl, htrue⟩ := hx'
  rw [hkind x.2 (h.messages x hx).2] at htrue
  cases htrue

theorem Idle.total_eq_zero (hkind : ∀ x, Noise x → kind x.2 = false) :
    total kind s.inFlight = 0 := by
  refine Multiset.countP_eq_zero.mpr fun x hx htrue => ?_
  rw [hkind x (h.messages x hx).2] at htrue
  cases htrue

/-- The first request of a round. -/
theorem Idle.begin (htwo : 2 ≤ settings.numberPaxosParticipants)
    (hstation : d.station < settings.numberPaxosParticipants) (hpoints : d.points ≠ [])
    (hproposer : ProposerOk history d p)
    (hneeded : p.currentProposal.neededForQuorum = settings.numberPaxosParticipants - 1)
    (houtstanding : p.currentProposal.outstandingOks = settings.numberPaxosParticipants - 1)
    (hagreed : p.agreedData = (s.participants d.station).agreedData) :
    Running settings ordered history d (s.after settings d.station false
      ⟨p, [.prepare ⟨history.length, d.proposalId, d.station⟩], []⟩) := by
  obtain ⟨F', hflight⟩ : ∃ F', s.inFlight + copiesOf settings.numberPaxosParticipants d.station
    [.prepare ⟨history.length, d.proposalId, d.station⟩] = F' := ⟨_, rfl⟩
  have hafter : (s.after settings d.station false
      ⟨p, [.prepare ⟨history.length, d.proposalId, d.station⟩], []⟩).inFlight = F' := hflight
  -- only the copies of the request are there, noise apart
  have htotal : total isPrepare F' ≤ total isPrepare s.inFlight +
    (settings.numberPaxosParticipants - 1) := hflight ▸ total_add_copiesOf_le hstation
  have hprepare : total isPrepare s.inFlight = 0 :=
    h.total_eq_zero fun _ hx => hx.not_request.1
  have haccept : total isAccept F' = 0 :=
    (hflight ▸ total_add_copiesOf_of_not hstation rfl).trans
      (h.total_eq_zero fun _ hx => hx.not_request.2.1)
  have hother : ∀ r (kind : PaxosMessage → Bool), (∀ msg, kind (.prepare msg) = false) →
      (∀ msg, Noise (r, msg) → kind msg = false) → totalTo r kind F' = 0 :=
    fun r kind hkind hnoise =>
      (hflight ▸ totalTo_add_copiesOf_of_not (hkind _)).trans (h.totalTo_eq_zero hnoise)
  have hok : ∀ r, totalTo r isOk F' = 0 :=
    fun r => hother r _ (fun _ => rfl) fun _ hx => hx.not_request.2.2
  have hpromise := hother d.station (isPromiseFor d.station) (fun _ => rfl)
    fun _ hx => hx.not_for.1
  have hresponse := hother d.station (isResponseFor d.station) (fun _ => rfl)
    fun _ hx => hx.not_for.2
  have hpos : 0 < p.currentProposal.neededForQuorum := by omega
  constructor
  case two_le => exact htwo
  case station => exact hstation
  case points => exact hpoints
  case messages =>
    rw [hafter, ← hflight]
    intro x hx
    rcases Multiset.mem_add.mp hx with hx | hx
    · exact ⟨(h.messages x hx).1, .inl (h.messages x hx).2⟩
    · obtain ⟨hlt, hne, hm⟩ := mem_copiesOf.mp hx
      obtain ⟨r, m⟩ := x
      obtain rfl := mem_singleton.mp hm
      exact ⟨hlt, .inr ⟨rfl, hne⟩⟩
  case proposer => rw [after_participants_self]; exact hproposer
  case acceptors =>
    intro j hj hne
    rw [hafter, after_participants_of_ne hne, haccept, hok]
    exact ⟨_, (h.participants j hj).waiting, Nat.zero_le _⟩
  case promises =>
    rw [hafter, after_participants_self, hpromise]
    simp only
    omega
  case preparing =>
    rw [hafter, after_participants_self]
    refine fun _ => ⟨houtstanding, haccept, hok, hresponse, fun j hj hne => ?_⟩
    rw [after_participants_of_ne hne]
    exact (h.participants j hj).waiting
  case oks =>
    rw [hafter, haccept, hok]
    exact Nat.zero_le _
  case responses =>
    rw [after_participants_self]
    exact fun hzero => absurd hzero hpos.ne'
  case recorded =>
    exact fun hordered => recorded_after (h.recorded hordered) (hagreed ▸ fun _ _ h => h)
  case recordedNow =>
    refine fun _ => recordedNow_after (fun j hj _ hlength => ?_) fun _ _ hlength => ?_
    · exact absurd (by rw [(h.participants j hj).final, length_entries]) hlength
    · exact absurd (by rw [(hproposer.of_needed hpos).2, length_entries]) hlength
  case allResponses =>
    rw [after_participants_self]
    exact fun _ hzero => absurd hzero hpos.ne'

end

/-- How a call of `findConsensus` between two rounds can end. -/
def Begun (settings : PaxosSettings) (ordered : Prop) (history : List Round) (s : PaxosNetwork)
    (station : ℕ) (st : PaxosActivity) : Prop :=
  st = ⟨s.participants station, [], [.fail station s.nextCall none]⟩ ∨
  ∃ d, d.call = s.nextCall ∧ st.callbacks = [] ∧
    Running settings ordered history d
      ({ s with nextCall := s.nextCall + 1 }.after settings station false st) ∧
    (ordered → ∀ e ∈ history, RoundsApart settings.timeDeltaIntersections e d)

theorem Idle.findConsensus_step (h : Idle settings ordered history s)
    (htwo : 2 ≤ settings.numberPaxosParticipants)
    (hstation : station < settings.numberPaxosParticipants) (hpoints : points ≠ []) (nowMs : ℕ)
    (secondsTillStart : ℚ) :
    wp (findConsensus settings s.nextCall points nowMs secondsTillStart)
      (fun _ => Begun settings ordered history s station) (fun _ => False)
      ⟨s.participants station, [], []⟩ := by
  obtain ⟨p, hp⟩ : ∃ p, s.participants station = p := ⟨_, rfl⟩
  have hidle := hp ▸ h.participants station hstation
  have hlength : p.finallyAcceptedData.length = history.length := by
    rw [hidle.final, length_entries]
  obtain ⟨start, hok, hplanned⟩ := calculatePossibleStartTime_spec points
    ((nowMs + secondsTillStart * 1000) / 1000) settings.maxPreplanningTime
    settings.timeDeltaIntersections p.agreedData
  rw [hp]
  simp only [findConsensus, PaxosProposer.calculatePossibleStartTime, hok,
    wp_bind, wp_getParticipant, wp_lift_ok]
  cases hplanned with
  | missing _ =>
    simp only [wp_callBack]
    exact .inl (by rw [hp, hidle.nodeId]; rfl)
  | found i _ hkeeps _ =>
    simp only [wp_bind, wp_modifyParticipant, wp_schedule, wp_check, hidle.proposal,
      hlength, hidle.canPromise, if_true, wp_promise, wp_publishMessage, hidle.nodeId]
    refine ⟨fun _ => .inr ⟨⟨s.nextCall, station, p.instanceToProposalId history.length, points,
      startTime ((nowMs + secondsTillStart * 1000) / 1000) i⟩, rfl, rfl, ?_,
      fun hordered e he => ?_⟩, fun hnot => absurd rfl hnot⟩
    · have hnext : Idle settings ordered history { s with nextCall := s.nextCall + 1 } :=
        ⟨h.participants, h.messages, h.recorded⟩
      refine hnext.begin htwo hstation hpoints ⟨rfl, ⟨rfl, rfl, rfl, rfl, rfl⟩, hidle.received,
        update_self _ _ _, fun i hi => ?_,
        .inl ⟨?_, hidle.accepted, hidle.final⟩⟩ rfl rfl
        (by rw [hp])
      · exact (update_of_ne hi.ne' _ _).trans (hidle.promised i hi.le)
      · simp only
        omega
    · intro point hpoint point' hpoint' heq
      have hrecorded := hp ▸ h.recorded hordered station hstation e he
      exact (hkeeps point' hpoint' _ (heq ▸ hrecorded point hpoint)).symm

/-- A call that finds no start time. -/
theorem Idle.refuse (h : Idle settings ordered history s) :
    Idle settings ordered history ({ s with nextCall := s.nextCall + 1 }.after settings station
      false ⟨s.participants station, [], [.fail station s.nextCall none]⟩) := by
  have hsame : ({ s with nextCall := s.nextCall + 1 }.after settings station false
      ⟨s.participants station, [], [.fail station s.nextCall none]⟩).participants =
      s.participants := update_eq_self _ _
  refine ⟨?_, ?_, ?_⟩
  · rw [hsame]
    exact h.participants
  · simpa [after, copiesOf] using h.messages
  · rw [hsame]
    exact h.recorded

/-! ### Whole runs -/

/-- The states of a run that makes one proposal after the other. -/
inductive Sequential (settings : PaxosSettings) (ordered : Prop) (s : PaxosNetwork) : Prop
  | idle (history : List Round) : Idle settings ordered history s →
      CallbacksOk history history.length s →
      (ordered → history.Pairwise (RoundsApart settings.timeDeltaIntersections)) →
      Sequential settings ordered s
  | running (history : List Round) (d : Round) : Running settings ordered history d s →
      CallbacksOk (history ++ [d]) history.length s →
      (ordered → (history ++ [d]).Pairwise (RoundsApart settings.timeDeltaIntersections)) →
      Sequential settings ordered s

theorem sequential_init (ordered : Prop) : Sequential settings ordered init := by
  refine .idle [] ?_ ?_ fun _ => Pairwise.nil
  · exact
      { participants := fun _ _ => ⟨rfl, rfl, rfl, rfl, rfl, fun _ _ => rfl⟩
        messages := by simp [init]
        recorded := by simp }
  · exact
      { nodup := nodup_nil
        called := by simp [init]
        rounds := by simp
        success := by simp [init]
        fail := by simp [init]
        open_ := by simp [init] }

/-- A call of `findConsensus` while no proposal is running. -/
theorem Sequential.propose (h : Sequential settings ordered s)
    (htwo : 2 ≤ settings.numberPaxosParticipants)
    (hstation : station < settings.numberPaxosParticipants) (hpoints : points ≠ [])
    (hfree : ∀ j < settings.numberPaxosParticipants,
      (s.participants j).currentProposal.initialized = false) (nowMs : ℕ) (secondsTillStart : ℚ) :
    Sequential settings ordered (act settings { s with nextCall := s.nextCall + 1 } station
      (findConsensus settings s.nextCall points nowMs secondsTillStart)) := by
  cases h with
  | running history d hrunning _ _ =>
    have hnot := hfree d.station hrunning.station
    rw [Proposal.initialized, hrunning.proposer.isCurrent.points] at hnot
    simp [hrunning.points] at hnot
  | idle history hidle hcallbacks hapart =>
    have hnext : Idle settings ordered history { s with nextCall := s.nextCall + 1 } :=
      ⟨hidle.participants, hidle.messages, hidle.recorded⟩
    refine act_of_wp (fun _ => .idle history hnext (hcallbacks.congr rfl (Nat.le_succ _)) hapart)
      fun _ => (hidle.findConsensus_step htwo hstation hpoints nowMs secondsTillStart).imp
        (fun _ st hst => ?_) fun _ hfalse => hfalse.elim
    rcases hst with rfl | ⟨d, hcall, hnone, hrunning, hnew⟩
    · exact .idle history hidle.refuse (hcallbacks.refuse rfl rfl) hapart
    · refine .running history d hrunning (hcallbacks.begin hcall ?_ rfl) fun hordered => ?_
      · simp [after, hnone]
      · rw [pairwise_append]
        exact ⟨hapart hordered, pairwise_singleton _ _, fun e he d' hd' =>
          mem_singleton.mp hd' ▸ hnew hordered e he⟩

theorem Running.nodeId (h : Running settings ordered history d s) (j : ℕ)
    (hj : j < settings.numberPaxosParticipants) : (s.participants j).nodeId = j := by
  by_cases hjd : j = d.station
  · rw [hjd]
    exact h.proposer.nodeId
  · obtain ⟨_, hok, _⟩ := h.acceptors j hj hjd
    exact hok.nodeId

/-- How a delivered message of a round is handled. -/
theorem Running.deliver (h : Running settings ordered history d s) (hx : (r, msg) ∈ s.inFlight)
    (hround : OfRound history.length d (r, msg)) (hfailed : s.failed r = false)
    (hordered : OneAtATime settings ordered s (.deliver r msg)) :
    Handles settings ordered history d s r msg := by
  by_cases hr : r = d.station
  · subst hr
    cases msg with
    | prepare => exact absurd rfl hround.2
    | accept => exact absurd rfl hround.2
    | promise msg => exact h.promise_step hx hround.1
    | ok msg => exact h.ok_step hx hround.2.2
    | response msg =>
      refine h.response_step hx hround.1 hfailed fun ho => hordered ho ?_
      rw [hround.1]
  · have hrlt := (h.messages _ hx).1
    obtain ⟨slack, hok, hle⟩ := h.acceptors r hrlt hr
    cases msg with
    | promise => exact absurd hround.2 hr
    | response => exact absurd hround.2 hr
    | prepare msg =>
      obtain rfl := hround.1
      have hpos : 0 < (s.participants d.station).currentProposal.neededForQuorum :=
        lt_of_lt_of_le (Nat.add_pos_left (total_pos hx rfl) _) h.promises
      obtain ⟨_, haccept, hoks, _, hall⟩ := h.preparing hpos
      have hslack : total isAccept s.inFlight +
          totalTo r isOk s.inFlight ≤ settings.numberPaxosParticipants - 1 := by
        rw [haccept, hoks]
        exact Nat.zero_le _
      refine (processPrepareMessage_outcome h.two_le (hall r hrlt hr)).imp
        (fun _ st hst => .inl ⟨hst.callbacks, ?_⟩) fun st hst => .inl ⟨hst.callbacks, ?_⟩
      · exact h.acceptor_step hx hr hfailed hslack (fun _ => ⟨rfl, rfl⟩) hst
      · exact h.acceptor_step hx hr hfailed hslack (fun _ => ⟨rfl, rfl⟩) hst
    | accept msg =>
      obtain rfl := hround.1
      have hpos : 0 < total isAccept s.inFlight := total_pos hx rfl
      have hlater : ¬ 0 < (s.participants d.station).currentProposal.neededForQuorum :=
        fun hneeded => absurd (h.preparing hneeded).2.1 hpos.ne'
      refine (processAcceptMessage_outcome hr h.points hok (by omega)).imp
        (fun _ st hst => .inl ⟨hst.callbacks, ?_⟩) fun st hst => .inl ⟨hst.callbacks, ?_⟩
      · exact h.acceptor_step hx hr hfailed hle (fun hneeded => absurd hneeded hlater) hst
      · exact h.acceptor_step hx hr hfailed hle (fun hneeded => absurd hneeded hlater) hst
    | ok msg =>
      have hpos : 0 < totalTo r isOk s.inFlight := totalTo_pos hx rfl
      have hlater : ¬ 0 < (s.participants d.station).currentProposal.neededForQuorum :=
        fun hneeded => absurd ((h.preparing hneeded).2.2.1 r) hpos.ne'
      simp only [Handles, processPaxosMessage, processOKMessage, wp_bind,
        wp_getParticipant, wp_ite, wp_pure]
      refine ⟨fun _ => ?_, fun heq => absurd (hround.2.2.symm.trans ?_) (Ne.symm hr)⟩
      · refine (processOKMessage_outcome hr h.points hok (by omega) hround).imp
          (fun _ st hst => .inl ⟨hst.callbacks, ?_⟩) fun st hst => .inl ⟨hst.callbacks, ?_⟩
        · exact h.acceptor_step hx hr hfailed hle (fun hneeded => absurd hneeded hlater) hst
        · exact h.acceptor_step hx hr hfailed hle (fun hneeded => absurd hneeded hlater) hst
      · exact (not_not.mp heq).trans hok.nodeId

/-- What a round has come to, seen from the network. -/
theorem Sequential.of_progress (hcallbacks : CallbacksOk (history ++ [d]) history.length s)
    (hapart : ordered → (history ++ [d]).Pairwise (RoundsApart settings.timeDeltaIntersections))
    (h : Progress settings ordered history d s station threw st) :
    Sequential settings ordered (s.after settings station threw st) := by
  rcases h with ⟨hnone, hrunning⟩ | ⟨proposal, hmatches, hsuccess, hidle⟩
  · exact .running history d hrunning (hcallbacks.congr (by simp [after, hnone]) le_rfl) hapart
  · exact .idle _ hidle (hcallbacks.succeed hmatches (by simp [after, hsuccess]) rfl) hapart

/-- Every event keeps the rounds one after the other. -/
theorem Sequential.step (h : Sequential settings ordered s)
    (htwo : 2 ≤ settings.numberPaxosParticipants) {e : PaxosEvent}
    (hevent : OneAtATime settings ordered s e) (hstep : s.step settings e = some s') :
    Sequential settings ordered s' := by
  cases e with
  | timeout => exact hevent.elim
  | propose station points nowMs secondsTillStart =>
    simp only [PaxosNetwork.step] at hstep
    split_ifs at hstep with hstation
    obtain rfl := Option.some.inj hstep
    exact h.propose htwo hstation hevent.1 hevent.2 nowMs secondsTillStart
  | deliver r msg =>
    simp only [PaxosNetwork.step] at hstep
    split_ifs at hstep with hx
    obtain rfl := Option.some.inj hstep
    have hF := Multiset.erase_le (r, msg) s.inFlight
    cases h with
    | idle history hidle hcallbacks hapart =>
      have hdrop := hidle.drop hF
      have hnext : Sequential settings ordered
          { s with inFlight := s.inFlight.erase (r, msg) } :=
        .idle history hdrop (hcallbacks.congr rfl le_rfl) hapart
      obtain ⟨hr, hnoise⟩ := hidle.messages _ hx
      refine act_of_wp (fun _ => hnext) fun _ =>
        wp_noise (hidle.participants r hr).nodeId hnoise ?_
      exact after_unchanged.symm ▸ hnext
    | running history d hrunning hcallbacks hapart =>
      have hdrop := hrunning.drop hF
      have hcallbacks' : CallbacksOk (history ++ [d]) history.length
        { s with inFlight := s.inFlight.erase (r, msg) } := hcallbacks.congr rfl le_rfl
      have hnext : Sequential settings ordered
          { s with inFlight := s.inFlight.erase (r, msg) } :=
        .running history d hdrop hcallbacks' hapart
      obtain ⟨hr, hnoise | hround⟩ := hrunning.messages _ hx
      · refine act_of_wp (fun _ => hnext) fun _ =>
          wp_noise (hrunning.nodeId r hr) hnoise ?_
        exact after_unchanged.symm ▸ hnext
      · exact act_of_wp (fun _ => hnext) fun hfailed =>
          (hrunning.deliver hx hround hfailed hevent).imp
            (fun _ _ hst => .of_progress hcallbacks' hapart hst)
            fun _ hst => .of_progress hcallbacks' hapart hst

theorem sequential_of_reachable (htwo : 2 ≤ settings.numberPaxosParticipants)
    (h : Reachable settings (OneAtATime settings ordered) s) : Sequential settings ordered s :=
  Transitions.Reachable.invariant h (sequential_init ordered)
    fun _ _ _ hs hevent hstep => hs.step htwo hevent hstep

end Rounds

end PaxosNetwork

end Sola.Daisi
