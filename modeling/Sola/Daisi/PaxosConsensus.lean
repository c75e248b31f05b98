import Sola.Daisi.PaxosRuns

/-!
What the participants agree on.

The proposer never looks at the data that an acceptor has already accepted,
and the counters of OK messages and responses do not belong to a proposal.  So
two proposals at the same time can leave different data with the same index, a
timeout can report the failure of a proposal that everybody stores later, and
a response that overtakes an OK message makes the proposer forget its own
reservations.  With one proposal at a time and without timeouts none of this
happens.
-/

namespace Sola.Daisi

open RouteCalculationHelper Option

namespace PaxosNetwork

section Consensus

variable {settings : PaxosSettings} {ordered : Prop} {s : PaxosNetwork}

theorem getElem?_entries {rounds : List Round} {j k : ℕ} :
    (entries rounds j)[k]? = rounds[k]?.map fun d => d.entry k j := List.getElem?_mapIdx

/-- The rounds of a run.  The first `done` ones have succeeded. -/
structure Rounds (settings : PaxosSettings) (ordered : Prop) (s : PaxosNetwork)
    (rounds : List Round) (done : ℕ) : Prop where
  callbacks : CallbacksOk rounds done s
  stored : ∀ j < settings.numberPaxosParticipants, ∀ k (d : Round), k < done → rounds[k]? = some d →
    (s.participants j).finallyAcceptedData[k]? = some (d.entry k j)
  only : ∀ j < settings.numberPaxosParticipants, ∀ k a,
    (s.participants j).finallyAcceptedData[k]? = some a →
      ∃ d : Round, rounds[k]? = some d ∧ a = d.entry k j
  apart : ordered → rounds.Pairwise (RoundsApart settings.timeDeltaIntersections)

/-- The data of a participant in a round. -/
theorem Running.final_cases {history : List Round} {d : Round}
    (h : Running settings ordered history d s) {j : ℕ}
    (hj : j < settings.numberPaxosParticipants) :
    (s.participants j).finallyAcceptedData = entries history j ∨
      (s.participants j).finallyAcceptedData = entries (history ++ [d]) j := by
  by_cases hjd : j = d.station
  · subst hjd
    rcases h.proposer.phase with ⟨_, _, hfinal⟩ | ⟨_, _, _, hfinal⟩ | ⟨_, _, _, hfinal⟩
    · exact .inl hfinal
    · exact .inl hfinal
    · exact .inr hfinal
  · obtain ⟨_, hok, _⟩ := h.acceptors j hj hjd
    cases hok with
    | waiting _ _ _ hfinal _ => exact .inl hfinal
    | accepted _ _ hfinal _ _ _ _ _ => exact .inl hfinal
    | finalized _ _ hfinal _ => exact .inr hfinal

theorem Sequential.exists_rounds (h : Sequential settings ordered s) :
    ∃ rounds done, Rounds settings ordered s rounds done := by
  cases h with
  | idle history hidle hcallbacks hapart =>
    refine ⟨history, history.length, hcallbacks, fun j hj k d _ hd => ?_, fun j hj k a ha => ?_,
      hapart⟩
    · rw [(hidle.participants j hj).final, getElem?_entries, hd, map_some]
    · rw [(hidle.participants j hj).final, getElem?_entries, map_eq_some_iff] at ha
      obtain ⟨d, hd, rfl⟩ := ha
      exact ⟨d, hd, rfl⟩
  | running history d hrunning hcallbacks hapart =>
    refine ⟨history ++ [d], history.length, hcallbacks, fun j hj k e hk he => ?_,
      fun j hj k a ha => ?_, hapart⟩
    · rw [List.getElem?_append_left hk] at he
      rcases hrunning.final_cases hj with hfinal | hfinal
      · rw [hfinal, getElem?_entries, he, map_some]
      · rw [hfinal, getElem?_entries, List.getElem?_append_left hk, he, map_some]
    · rcases hrunning.final_cases hj with hfinal | hfinal
      · rw [hfinal, getElem?_entries, map_eq_some_iff] at ha
        obtain ⟨e, he, rfl⟩ := ha
        have hk := (List.getElem?_eq_some_iff.mp he).1
        exact ⟨e, by rwa [List.getElem?_append_left hk], rfl⟩
      · rw [hfinal, getElem?_entries, map_eq_some_iff] at ha
        obtain ⟨e, he, rfl⟩ := ha
        exact ⟨e, he, rfl⟩

theorem RoundsApart.symm {delta : ℚ} {d e : Round} (h : RoundsApart delta d e) :
    RoundsApart delta e d :=
  fun _ hpoint _ hpoint' heq => (h _ hpoint' _ hpoint heq.symm).symm

theorem apart_of_ne {delta : ℚ} {rounds : List Round} {k l : ℕ} {d e : Round}
    (h : rounds.Pairwise (RoundsApart delta)) (hd : rounds[k]? = some d)
    (he : rounds[l]? = some e) (hne : k ≠ l) : RoundsApart delta d e := by
  obtain ⟨hk, rfl⟩ := List.getElem?_eq_some_iff.mp hd
  obtain ⟨hl, rfl⟩ := List.getElem?_eq_some_iff.mp he
  rcases Nat.lt_or_gt_of_ne hne with hlt | hlt
  · exact List.pairwise_iff_getElem.mp h k l hk hl hlt
  · exact (List.pairwise_iff_getElem.mp h l k hl hk hlt).symm

/-! ### Agreement -/

/-- Two participants store the data of the same proposal at the same index.
The entries are equal, except that the proposer keeps times relative to the
start. -/
theorem finallyAcceptedData_agree (htwo : 2 ≤ settings.numberPaxosParticipants)
    (h : Reachable settings (OneAtATime settings False) s) {i j k : ℕ}
    (hi : i < settings.numberPaxosParticipants) (hj : j < settings.numberPaxosParticipants)
    {a b : AcceptedProposal} (ha : (s.participants i).finallyAcceptedData[k]? = some a)
    (hb : (s.participants j).finallyAcceptedData[k]? = some b) :
    a.proposalId = b.proposalId ∧ a.stationId = b.stationId ∧
      a.data.map Prod.fst = b.data.map Prod.fst ∧
      (i ≠ a.stationId → j ≠ a.stationId → a = b) := by
  obtain ⟨rounds, done, hrounds⟩ := (sequential_of_reachable htwo h).exists_rounds
  obtain ⟨d, hd, rfl⟩ := hrounds.only i hi k a ha
  obtain ⟨d', hd', rfl⟩ := hrounds.only j hj k b hb
  obtain rfl : d = d' := some.inj (hd.symm.trans hd')
  refine ⟨rfl, rfl, by rw [d.map_fst_entry, d.map_fst_entry], fun hid hjd => ?_⟩
  unfold Round.entry at hid hjd ⊢
  rw [if_neg hid, if_neg hjd]

/-- A run in which both participants store the proposal of station 0. -/
def oneProposal : List PaxosEvent :=
  [.propose 0 [((0, 0), 1)] 0 1,
    .deliver 1 (.prepare ⟨0, 0, 0⟩),
    .deliver 0 (.promise ⟨0, 0, 0, false, 0, 0⟩),
    .deliver 1 (.accept ⟨0, 0, 0, [((0, 0), 2)]⟩),
    .deliver 0 (.ok ⟨0, 0, 0, 1⟩),
    .deliver 0 (.response ⟨0, 0, 0⟩)]

/-- Two participants and two intersections; reservations are one second apart. -/
def twoParticipants : PaxosSettings := ⟨2, 1, 5, [(0, 0), (1, 0)]⟩

theorem finallyAcceptedData_agree_oneProposal :
    ∃ s a b, Reachable twoParticipants (OneAtATime twoParticipants False) s ∧
      (s.participants 0).finallyAcceptedData[0]? = some a ∧
      (s.participants 1).finallyAcceptedData[0]? = some b ∧
      a.proposalId = b.proposalId ∧ a.stationId = b.stationId := by
  obtain ⟨s, hs, ha, hb⟩ := exists_reachable_of_run twoParticipants oneProposal
    (C := OneAtATime twoParticipants False)
    (P := fun s => (s.participants 0).finallyAcceptedData[0]? = some ⟨0, 0, 0, [((0, 0), 1)]⟩ ∧
      (s.participants 1).finallyAcceptedData[0]? = some ⟨0, 0, 0, [((0, 0), 2)]⟩)
    (by decide +kernel)
  obtain ⟨hid, hstation, _⟩ :=
    finallyAcceptedData_agree (by decide) hs (by decide) (by decide) ha hb
  exact ⟨s, _, _, hs, ha, hb, hid, hstation⟩

/-- Three participants. -/
def threeParticipants : PaxosSettings := ⟨3, 1, 5, [(0, 0), (1, 0)]⟩

/-- Station 1 proposes while the proposal of station 0 is being accepted.
Station 2 promises the second proposal and then stores the first one.
Station 0 accepts the second proposal and takes the OK messages for the first
one as reason to store it. -/
theorem finallyAcceptedData_disagree :
    ∃ s, Reachable threeParticipants (fun _ _ => True) s ∧
      (s.participants 0).finallyAcceptedData[0]?.map (·.stationId) = some 1 ∧
      (s.participants 2).finallyAcceptedData[0]?.map (·.stationId) = some 0 :=
  exists_reachable_of_run threeParticipants
    [.propose 0 [((0, 0), 1)] 0 1,
      .deliver 1 (.prepare ⟨0, 0, 0⟩),
      .deliver 2 (.prepare ⟨0, 0, 0⟩),
      .deliver 0 (.promise ⟨0, 0, 0, false, 0, 0⟩),
      .deliver 0 (.promise ⟨0, 0, 0, false, 0, 0⟩),
      .deliver 1 (.accept ⟨0, 0, 0, [((0, 0), 2)]⟩),
      .deliver 2 (.accept ⟨0, 0, 0, [((0, 0), 2)]⟩),
      .propose 1 [((1, 0), 1)] 0 1,
      .deliver 0 (.prepare ⟨0, 0, 1⟩),
      .deliver 2 (.prepare ⟨0, 0, 1⟩),
      .deliver 2 (.ok ⟨0, 0, 0, 1⟩),
      .deliver 1 (.promise ⟨0, 0, 1, true, 0, 0⟩),
      .deliver 1 (.promise ⟨0, 0, 1, true, 0, 0⟩),
      .deliver 0 (.accept ⟨0, 0, 1, [((1, 0), 2)]⟩),
      .deliver 0 (.ok ⟨0, 0, 0, 1⟩),
      .deliver 0 (.ok ⟨0, 0, 0, 2⟩)] (by decide +kernel)

/-! ### Callbacks -/

/-- Every call gets at most one callback.  After a success everybody has the
proposal at its instance; a call that fails has not made a proposal. -/
theorem callbacks_outcome (htwo : 2 ≤ settings.numberPaxosParticipants)
    (h : Reachable settings (OneAtATime settings False) s) :
    (s.callbacks.map Callback.call).Nodup ∧
    (∀ station call proposal, .success station call proposal ∈ s.callbacks →
      ∀ j < settings.numberPaxosParticipants, ∃ a,
        (s.participants j).finallyAcceptedData[proposal.instanceId]? = some a ∧
          a.proposalId = proposal.proposalId ∧ a.stationId = station ∧
          a.data.map Prod.fst = proposal.points.map Prod.fst) ∧
    (∀ station call proposal, .fail station call proposal ∈ s.callbacks → proposal = none) := by
  obtain ⟨rounds, done, hrounds⟩ := (sequential_of_reachable htwo h).exists_rounds
  refine ⟨hrounds.callbacks.nodup, fun station call proposal hc j hj => ?_,
    fun _ _ _ hc => hrounds.callbacks.fail hc⟩
  obtain ⟨k, hk, d, hd, rfl, rfl, hmatches⟩ := hrounds.callbacks.success hc
  refine ⟨d.entry k j, ?_, hmatches.proposalId.symm, rfl, ?_⟩
  · rw [hmatches.instanceId]
    exact hrounds.stored j hj k d hk hd
  · rw [d.map_fst_entry, hmatches.points]

theorem callbacks_outcome_oneProposal :
    ∃ s proposal, Reachable twoParticipants (OneAtATime twoParticipants False) s ∧
      .success 0 0 proposal ∈ s.callbacks ∧
      ∀ j < 2, ∃ a, (s.participants j).finallyAcceptedData[proposal.instanceId]? = some a ∧
        a.proposalId = proposal.proposalId ∧ a.stationId = 0 := by
  obtain ⟨s, hs, hc⟩ := exists_reachable_of_run twoParticipants oneProposal
    (C := OneAtATime twoParticipants False)
    (P := fun s => Callback.success 0 0 ⟨[((0, 0), 1)], 1, 0, 0, 0, 0, some 1, some 0⟩ ∈
      s.callbacks)
    (by decide +kernel)
  obtain ⟨_, hsuccess, _⟩ := callbacks_outcome (by decide) hs
  refine ⟨s, _, hs, hc, fun j hj => ?_⟩
  obtain ⟨a, ha, hid, hstation, _⟩ := hsuccess _ _ _ hc j hj
  exact ⟨a, ha, hid, hstation⟩

/-- The proposals a participant has stored: instance, proposal id and station. -/
def storedIds (p : Participant) : List (ℕ × ℕ × ℕ) :=
  p.finallyAcceptedData.map fun a => (a.instanceId, a.proposalId, a.stationId)

/-- The timeout comes after the request to accept.  The failure is reported,
and then both participants store the proposal.  Its OK message and its
response make the next proposal, which nobody has stored, a success. -/
theorem callbacks_wrong :
    ∃ s p q, Reachable twoParticipants (fun _ _ => True) s ∧
      (.fail 0 0 (some p) ∈ s.callbacks ∧ p.instanceId = 0 ∧ p.proposalId = 0 ∧
        storedIds (s.participants 0) = [(0, 0, 0)] ∧ storedIds (s.participants 1) = [(0, 0, 0)]) ∧
      .success 0 1 q ∈ s.callbacks ∧ q.proposalId = 1 := by
  obtain ⟨s, hs, hfail, hstored, hsuccess⟩ := exists_reachable_of_run twoParticipants
    [.propose 0 [((0, 0), 1)] 0 1,
      .deliver 1 (.prepare ⟨0, 0, 0⟩),
      .deliver 0 (.promise ⟨0, 0, 0, false, 0, 0⟩),
      .timeout 0 1 0,
      .propose 0 [((0, 0), 1)] 0 3,
      .deliver 1 (.accept ⟨0, 0, 0, [((0, 0), 2)]⟩),
      .deliver 0 (.ok ⟨0, 0, 0, 1⟩),
      .deliver 0 (.response ⟨0, 0, 0⟩)] (C := fun _ _ => True)
    (P := fun s => Callback.fail 0 0 (some ⟨[((0, 0), 1)], 1, 0, 0, 0, 1, some 1, some 0⟩) ∈
        s.callbacks ∧
      (storedIds (s.participants 0) = [(0, 0, 0)] ∧ storedIds (s.participants 1) = [(0, 0, 0)]) ∧
      Callback.success 0 1 ⟨[((0, 0), 1)], 3, 0, 1, 1, 0, some 2, some 1⟩ ∈ s.callbacks)
    (by decide +kernel)
  exact ⟨s, _, _, hs, ⟨hfail, rfl, rfl, hstored⟩, hsuccess, rfl⟩

/-! ### Reservations -/

/-- The reservations of different successful proposals keep the distance. -/
theorem successes_apart (htwo : 2 ≤ settings.numberPaxosParticipants)
    (h : Reachable settings (OneAtATime settings True) s) {station station' call call' : ℕ}
    {proposal proposal' : Proposal} (hc : .success station call proposal ∈ s.callbacks)
    (hc' : .success station' call' proposal' ∈ s.callbacks) (hne : call ≠ call')
    {point point' : Intersection × ℚ} (hpoint : point ∈ proposal.points)
    (hpoint' : point' ∈ proposal'.points) (heq : point.1 = point'.1) :
    settings.timeDeltaIntersections <
      |(proposal.startTime + point.2) - (proposal'.startTime + point'.2)| := by
  obtain ⟨rounds, done, hrounds⟩ := (sequential_of_reachable htwo h).exists_rounds
  obtain ⟨k, _, d, hd, _, rfl, hmatches⟩ := hrounds.callbacks.success hc
  obtain ⟨k', _, d', hd', _, rfl, hmatches'⟩ := hrounds.callbacks.success hc'
  rw [hmatches.points] at hpoint
  rw [hmatches'.points] at hpoint'
  have hkk : k ≠ k' := by
    rintro rfl
    exact hne (congrArg Round.call (some.inj (hd.symm.trans hd')))
  have hapart := apart_of_ne (hrounds.apart trivial) hd hd' hkk point hpoint point' hpoint' heq
  rw [hmatches.startTime, hmatches'.startTime, add_comm, add_comm d'.startTime]
  exact hapart.2

theorem successes_apart_twoProposals :
    ∃ s p q, Reachable twoParticipants (OneAtATime twoParticipants True) s ∧
      .success 0 0 p ∈ s.callbacks ∧ .success 0 1 q ∈ s.callbacks ∧
      p.points = [((0, 0), 1)] ∧ q.points = [((0, 0), 1)] ∧
      1 < |(p.startTime + 1) - (q.startTime + 1)| := by
  obtain ⟨s, hs, hp, hq⟩ := exists_reachable_of_run twoParticipants
    (C := OneAtATime twoParticipants True) (oneProposal ++
      [.propose 0 [((0, 0), 1)] 0 3,
        .deliver 1 (.prepare ⟨1, 0, 0⟩),
        .deliver 0 (.promise ⟨1, 0, 0, false, 0, 0⟩),
        .deliver 1 (.accept ⟨1, 0, 0, [((0, 0), 4)]⟩),
        .deliver 0 (.ok ⟨1, 0, 0, 1⟩),
        .deliver 0 (.response ⟨1, 0, 0⟩)])
    (P := fun s => Callback.success 0 0 ⟨[((0, 0), 1)], 1, 0, 0, 0, 0, some 1, some 0⟩ ∈
        s.callbacks ∧
      Callback.success 0 1 ⟨[((0, 0), 1)], 3, 1, 0, 0, 0, some 3, some 1⟩ ∈ s.callbacks)
    (by decide +kernel)
  have hpoint : (((0, 0), 1) : Intersection × ℚ) ∈ [(((0, 0), 1) : Intersection × ℚ)] :=
    List.mem_singleton.mpr rfl
  have hapart := successes_apart (by decide) hs hp hq (by decide) hpoint hpoint rfl
  exact ⟨s, _, _, hs, hp, hq, rfl, rfl, hapart⟩

/-- The response comes before the OK message, so the proposal is reset before
the proposer enters its own reservation, and its next proposal gets the same
time. -/
theorem successes_conflict :
    ∃ s p q, Reachable twoParticipants (fun _ _ => True) s ∧
      .success 0 0 p ∈ s.callbacks ∧ .success 0 1 q ∈ s.callbacks ∧
      p.points = [((0, 0), 1)] ∧ q.points = [((0, 0), 1)] ∧ p.startTime = q.startTime := by
  obtain ⟨s, hs, hp, hq⟩ := exists_reachable_of_run twoParticipants
    [.propose 0 [((0, 0), 1)] 0 1,
      .deliver 1 (.prepare ⟨0, 0, 0⟩),
      .deliver 0 (.promise ⟨0, 0, 0, false, 0, 0⟩),
      .deliver 1 (.accept ⟨0, 0, 0, [((0, 0), 2)]⟩),
      .deliver 0 (.response ⟨0, 0, 0⟩),
      .deliver 0 (.ok ⟨0, 0, 0, 1⟩),
      .propose 0 [((0, 0), 1)] 0 1,
      .deliver 1 (.prepare ⟨1, 0, 0⟩),
      .deliver 0 (.promise ⟨1, 0, 0, false, 0, 0⟩),
      .deliver 1 (.accept ⟨1, 0, 0, [((0, 0), 2)]⟩),
      .deliver 0 (.ok ⟨1, 0, 0, 1⟩),
      .deliver 0 (.response ⟨1, 0, 0⟩)] (C := fun _ _ => True)
    (P := fun s => Callback.success 0 0 ⟨[((0, 0), 1)], 1, 0, 0, 0, 0, some 1, some 0⟩ ∈
        s.callbacks ∧
      Callback.success 0 1 ⟨[((0, 0), 1)], 1, 1, 0, 0, 0, some 3, some 1⟩ ∈ s.callbacks)
    (by decide +kernel)
  exact ⟨s, _, _, hs, hp, hq, rfl, rfl, rfl⟩

end Consensus

end PaxosNetwork

end Sola.Daisi
