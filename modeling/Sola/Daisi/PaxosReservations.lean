import Sola.Daisi.PaxosConsensus

/-!
Who owns a reservation.

The proposer and the acceptors of a proposal enter its reservations into the
agreed data on different ways, but both with the id of their own node.  So
after a proposal is through, every participant believes that it is itself
that has reserved the intersections.  The entries of the finally accepted data
are not the same either, because the proposer keeps times relative to the
start.

For the statement about a single proposal one has to know that its messages
come to an end.  Every message gets a weight that pays for the answers to all
its copies, so each delivery makes the messages in flight lighter.
-/

namespace Sola.Daisi

open Sola.Lib Action RouteCalculationHelper PaxosActivity List PaxosProposer

/-! ### What handlers publish and reserve -/

/-- The participant has the id `j`, and so have all its reservations. -/
structure Participant.OwnedBy (j : ℕ) (p : Participant) : Prop where
  nodeId : p.nodeId = j
  owner : ∀ x, ∀ e ∈ p.agreedData.reservations x, e.2 = j

namespace PaxosMessage

/-- The weight of all answers to one copy of a message. -/
def answers (n : ℕ) : PaxosMessage → ℕ
  | .response _ => 0
  | .ok _ => 1
  | .accept _ => (n * 1 + 1) + 1
  | .promise _ => n * ((n * 1 + 1) + 1) + 1
  | .prepare _ => n * (n * ((n * 1 + 1) + 1) + 1) + 1

/-- The message belongs to the first phase of a proposal of the station. -/
def Prepares (station : ℕ) : PaxosMessage → Prop
  | .prepare msg => msg.stationId = station
  | .promise msg => msg.stationId = station
  | _ => False

/-- One copy of a message with the answers to it, which have at most `n` copies. -/
def weight (n : ℕ) (msg : PaxosMessage) : ℕ := n * msg.answers n + 1

end PaxosMessage

namespace PaxosActivity

/-- The part of the state that reservations and publications are seen from. -/
def visible (st : PaxosActivity) : ℕ × IntersectionOccupancy × List PaxosMessage :=
  (st.participant.nodeId, st.participant.agreedData, st.published)

/-- The weight of the published messages. -/
def cost (n : ℕ) (st : PaxosActivity) : ℕ := (st.published.map (PaxosMessage.weight n)).sum

end PaxosActivity

/-- The handler reserves for the participant itself, and what it publishes
weighs at most `k`. -/
structure Acts {α : Type} (n k : ℕ) (x : PaxosHandler α) : Prop where
  owned : ∀ j, Preserves (fun st => st.participant.OwnedBy j) x
  spends : Spends (cost n) k x

section Acts

variable {α β : Type} {n k l : ℕ} {x : PaxosHandler α} {f : α → PaxosHandler β}

theorem Acts.of_keeps (h : Keeps visible x) : Acts n 0 x := by
  constructor
  · intro j
    refine h.preserves fun st st' heq howned => ?_
    obtain ⟨hid, hagreed, _⟩ : st'.participant.nodeId = st.participant.nodeId ∧
        st'.participant.agreedData = st.participant.agreedData ∧
        st'.published = st.published := by simpa [visible] using heq
    exact ⟨hid.trans howned.nodeId, hagreed ▸ howned.owner⟩
  · refine Keeps.spends fun st => ?_
    have hpublished : (x st).1.published = st.published := by
      have heq := h st
      simp only [visible, Prod.mk.injEq] at heq
      exact heq.2.2
    simp only [cost, hpublished]

theorem Acts.bind (hx : Acts n k x) (hf : ∀ a, Acts n l (f a)) : Acts n (k + l) (x >>= f) :=
  ⟨fun j => (hx.owned j).bind fun a => (hf a).owned j,
    hx.spends.bind fun a => (hf a).spends⟩

theorem Acts.mono (h : Acts n k x) (hkl : k ≤ l) : Acts n l x :=
  ⟨h.owned, h.spends.mono hkl⟩

/-- After something that can not be seen. -/
theorem Acts.after (hx : Keeps visible x) (hf : ∀ a, Acts n k (f a)) : Acts n k (x >>= f) := by
  rw [← Nat.zero_add k]
  exact (Acts.of_keeps hx).bind hf

theorem acts_pure (a : α) : Acts n k (pure a) :=
  (Acts.of_keeps (keeps_pure a)).mono (Nat.zero_le k)

theorem Acts.ite {c : Prop} [Decidable c] {y : PaxosHandler α} (hx : Acts n k x) (hy : Acts n k y) :
    Acts n k (if c then x else y) := by
  split_ifs
  · exact hx
  · exact hy

theorem acts_publishMessage (msg : PaxosMessage) :
    Acts n (msg.weight n) (publishMessage msg) := by
  refine ⟨fun j st h => h, fun st => ?_⟩
  simp [publishMessage, cost]

theorem keeps_getParticipant : Keeps visible getParticipant := fun _ => rfl

theorem keeps_check (condition : Bool) (msg : String) :
    Keeps visible (check condition msg) :=
  (keeps_pure ()).ite (keeps_throw msg)

end Acts

section Handlers

variable {settings : PaxosSettings} {n : ℕ} (msg : OKMessage)

namespace PaxosProposer

theorem keeps_callOfCurrent (callback : ℕ → Callback) :
    Keeps visible (callOfCurrent callback) := by
  refine keeps_getParticipant.bind fun p => ?_
  cases p.currentProposal.call with
  | none => exact keeps_throw _
  | some call => exact fun _ => rfl

theorem keeps_resetProposal : Keeps visible resetProposal :=
  fun _ => rfl

theorem keeps_prepareTimeout (proposalId : ℕ) :
    Keeps visible (prepareTimeout proposalId) := by
  have hfail : ∀ callback, Keeps visible
      (do callOfCurrent callback; resetProposal) :=
    fun callback => (keeps_callOfCurrent callback).bind fun _ => keeps_resetProposal
  refine keeps_getParticipant.bind fun p => ?_
  exact (keeps_pure ()).ite
    ((hfail _).ite ((hfail _).ite (keeps_pure ())))

theorem keeps_processResponseMessage (msg : ResponseMessage) :
    Keeps visible (processResponseMessage msg) := by
  refine keeps_getParticipant.bind fun p => (keeps_pure ()).ite ?_
  refine Keeps.bind (fun _ => rfl) fun _ => Keeps.ite ?_ (keeps_pure ())
  exact (keeps_callOfCurrent _).bind fun _ => Keeps.bind (fun _ => rfl) fun _ =>
    keeps_resetProposal

/-- The weight of a message does not depend on its contents. -/
theorem acts_findConsensus (msg : PrepareMessage) (call : ℕ) (points : PointTimePairs)
    (nowMs : ℕ) (secondsTillStart : ℚ) :
    Acts n (PaxosMessage.weight n (.prepare msg))
      (findConsensus settings call points nowMs secondsTillStart) := by
  refine Acts.after keeps_getParticipant fun p => Acts.after (keeps_lift _) fun start => ?_
  cases start with
  | none => exact (Acts.of_keeps fun _ => rfl).mono (Nat.zero_le _)
  | some start =>
    refine Acts.after (fun _ => rfl) fun _ =>
      Acts.after (fun _ => rfl) fun _ => Acts.after (keeps_check _ _) fun _ =>
      Acts.after (fun _ => rfl) fun _ => ?_
    refine Acts.ite ?_ (acts_pure ())
    exact Acts.after (fun _ => rfl) fun _ => (acts_publishMessage _).mono (Nat.le_refl _)

theorem acts_processPromiseMessage (msg : PromiseMessage) :
    Acts n (PaxosMessage.answers n (.promise msg)) (processPromiseMessage settings msg) := by
  refine Acts.after keeps_getParticipant fun p => Acts.ite (acts_pure ()) <|
    Acts.ite (acts_pure ()) ?_
  refine Acts.after (fun st => ?_) fun _ => Acts.after (fun _ => rfl) fun _ =>
    Acts.ite ?_ (acts_pure ())
  · simp only [modifyParticipant, modify_run]
    split_ifs <;> rfl
  · -- the quorum is complete
    refine Acts.after keeps_getParticipant fun p => Acts.after (fun _ => rfl) fun _ =>
      Acts.after (fun _ => rfl) fun _ =>
      Acts.after (fun _ => rfl) fun _ =>
      Acts.after (fun _ => rfl) fun _ => Acts.ite (acts_pure ()) ?_
    exact Acts.after (fun _ => rfl) fun _ => (acts_publishMessage _).mono (Nat.le_refl _)

/-- A reservation is made with the id of the node. -/
theorem acts_recordAgreed (x : Intersection) (time : ℚ) :
    Acts n 0 (recordAgreed settings x time) := by
  refine Acts.after (keeps_check _ _) fun _ => ⟨fun j st h => ⟨h.nodeId, fun y e he => ?_⟩,
    Keeps.spends fun _ => rfl⟩
  rcases IntersectionOccupancy.mem_of_mem_reservations_set he with rfl | he
  · exact h.nodeId
  · exact h.owner y e he

theorem acts_recordAll (points : List (Intersection × ℚ)) (f : Intersection × ℚ → ℚ) :
    Acts n 0 (forEach points fun point => recordAgreed settings point.1 (f point)) := by
  induction points with
  | nil => exact acts_pure ()
  | cons point points ih => exact (acts_recordAgreed _ _).bind fun _ => ih

theorem acts_processOKMessage : Acts n 0 (processOKMessage settings msg) := by
  refine Acts.after keeps_getParticipant fun p => Acts.ite (acts_pure ()) ?_
  refine Acts.after (fun _ => rfl) fun _ =>
    Acts.ite ?_ (acts_pure ())
  exact Acts.after (keeps_processResponseMessage _) fun _ => Acts.after (fun _ => rfl) fun _ =>
    Acts.after (fun _ => rfl) fun _ => Acts.after keeps_getParticipant fun _ =>
    acts_recordAll _ _

end PaxosProposer

namespace PaxosAcceptor

theorem acts_processPrepareMessage (msg : PrepareMessage) :
    Acts n (PaxosMessage.answers n (.prepare msg)) (processPrepareMessage msg) := by
  refine Acts.after keeps_getParticipant fun p => Acts.ite ?_ (acts_pure ())
  exact Acts.after (fun _ => rfl) fun _ =>
    Acts.ite (acts_pure ()) ((acts_publishMessage _).mono (Nat.le_refl _))

theorem acts_sendResponseMessage : Acts n 1 (sendResponseMessage settings) := by
  refine Acts.after (fun _ => rfl) fun _ => Acts.after keeps_getParticipant fun p =>
    Acts.after (keeps_check _ _) fun _ => Acts.after (fun _ => rfl) fun _ => ?_
  rw [← Nat.zero_add 1]
  refine (acts_recordAll _ _).bind fun _ => Acts.after (fun _ => rfl) fun _ =>
    Acts.after (fun _ => rfl) fun _ => ?_
  exact (acts_publishMessage _).mono (Nat.le_refl 1)

theorem acts_processAcceptMessage (msg : AcceptMessage) :
    Acts n (PaxosMessage.answers n (.accept msg)) (processAcceptMessage settings msg) := by
  refine Acts.after (fun _ => rfl) fun _ => Acts.ite (acts_pure ()) <|
    Acts.after (keeps_check _ _) fun _ => Acts.after keeps_getParticipant fun p =>
    Acts.after (fun _ => rfl) fun _ => ?_
  refine ((acts_publishMessage _).bind fun _ => ?_).mono (Nat.le_refl _)
  exact Acts.ite acts_sendResponseMessage (acts_pure ())

theorem keeps_saveOK : Keeps visible (saveOK msg) := by
  refine keeps_getParticipant.bind fun p => ?_
  split
  · exact Keeps.bind (fun _ => rfl) fun _ => keeps_check _ _
  · exact fun _ => rfl

theorem acts_processOKMessage : Acts n 1 (processOKMessage settings msg) := by
  refine Acts.after keeps_getParticipant fun p => Acts.ite (acts_pure ()) <| Acts.ite ?_ <|
    Acts.ite ?_ ?_
  · exact (Acts.of_keeps (keeps_saveOK msg)).mono (Nat.zero_le 1)
  · exact (Acts.of_keeps (keeps_throw _)).mono (Nat.zero_le 1)
  · exact Acts.after (fun _ => rfl) fun _ =>
      Acts.ite acts_sendResponseMessage (acts_pure ())

end PaxosAcceptor

/-- The weight of a message pays for the handler. -/
theorem acts_processPaxosMessage (msg : PaxosMessage) :
    Acts n (msg.answers n) (processPaxosMessage settings msg) := by
  cases msg with
  | prepare msg => exact PaxosAcceptor.acts_processPrepareMessage msg
  | promise msg => exact acts_processPromiseMessage msg
  | accept msg => exact PaxosAcceptor.acts_processAcceptMessage msg
  | response msg => exact Acts.of_keeps (keeps_processResponseMessage msg)
  | ok msg =>
    exact (acts_processOKMessage msg).bind fun _ =>
      PaxosAcceptor.acts_processOKMessage msg

end Handlers

namespace PaxosNetwork

section Reservations

variable {settings : PaxosSettings} {s s' : PaxosNetwork} {station : ℕ}

/-! ### Owners -/

/-- Every participant has reserved for itself only. -/
def Owned (s : PaxosNetwork) : Prop := ∀ j, (s.participants j).OwnedBy j

theorem owned_init : Owned init := fun _ => ⟨rfl, fun _ _ he => (nomatch he)⟩

theorem Owned.act (h : s.Owned) {k : ℕ} {handler : PaxosHandler Unit}
    (hacts : Acts settings.numberPaxosParticipants k handler) :
    (act settings s station handler).Owned := by
  unfold PaxosNetwork.act
  split_ifs with hfailed
  · exact h
  · intro j
    by_cases hj : j = station
    · subst hj
      show (Function.update s.participants j _ j).OwnedBy j
      rw [Function.update_self]
      exact hacts.owned j _ (h j)
    · show (Function.update s.participants station _ j).OwnedBy j
      rw [Function.update_of_ne hj]
      exact h j

theorem Owned.step (h : s.Owned) {e : PaxosEvent} (hstep : s.step settings e = some s') :
    s'.Owned := by
  cases e with
  | propose station points nowMs secondsTillStart =>
    simp only [PaxosNetwork.step] at hstep
    split_ifs at hstep with hstation
    obtain rfl := Option.some.inj hstep
    exact Owned.act (s := { s with nextCall := s.nextCall + 1 }) h
      (acts_findConsensus ⟨0, 0, 0⟩ _ _ _ _)
  | deliver receiver msg =>
    simp only [PaxosNetwork.step] at hstep
    split_ifs at hstep with hmem
    obtain rfl := Option.some.inj hstep
    exact Owned.act (s := { s with inFlight := s.inFlight.erase (receiver, msg) }) h
      (acts_processPaxosMessage msg)
  | timeout station event proposalId =>
    simp only [PaxosNetwork.step] at hstep
    split_ifs at hstep with hmem
    obtain rfl := Option.some.inj hstep
    exact Owned.act h (Acts.of_keeps
      (Keeps.bind (fun _ => rfl) fun _ =>
        keeps_prepareTimeout proposalId))

/-- In every run everybody owns what it has reserved. -/
theorem owned_of_reachable {C : PaxosNetwork → PaxosEvent → Prop}
    (h : Reachable settings C s) : s.Owned :=
  Transitions.Reachable.invariant h owned_init fun _ _ _ hs _ hstep => hs.step hstep

/-! ### Deliveries come to an end -/

/-- Only messages are delivered. -/
def IsDelivery (_ : PaxosNetwork) : PaxosEvent → Prop
  | .deliver .. => True
  | _ => False

instance (s : PaxosNetwork) (e : PaxosEvent) : Decidable (IsDelivery s e) :=
  match e with
  | .deliver .. => inferInstanceAs (Decidable True)
  | .propose .. | .timeout .. => inferInstanceAs (Decidable False)

/-- The states after deliveries, in any order. -/
def Delivered (settings : PaxosSettings) : PaxosNetwork → PaxosNetwork → Prop :=
  Transitions.Reachable (step settings) IsDelivery

/-- The weight of the messages in flight. -/
def load (n : ℕ) (F : Multiset (ℕ × PaxosMessage)) : ℕ :=
  (F.map fun x => x.2.weight n).sum

theorem load_copiesOf_le (n sender : ℕ) (published : List PaxosMessage) :
    load n (copiesOf n sender published) ≤
      n * (published.map (PaxosMessage.weight n)).sum := by
  induction published with
  | nil => simp [load, copiesOf]
  | cons msg published ih =>
    have hcopies : ((copies n sender msg).map fun x => x.2.weight n).sum ≤
        n * msg.weight n := by
      unfold copies
      rw [map_map]
      refine (sum_le_card_nsmul _ (msg.weight n) ?_).trans ?_
      · intro w hw
        obtain ⟨j, _, rfl⟩ := mem_map.mp hw
        exact le_rfl
      · rw [length_map, Nat.nsmul_eq_mul]
        refine Nat.mul_le_mul_right _ ((length_filter_le _ _).trans ?_)
        rw [length_range]
    have hsplit : load n (copiesOf n sender (msg :: published)) =
        ((copies n sender msg).map fun x => x.2.weight n).sum +
          load n (copiesOf n sender published) := by
      simp [load, copiesOf, flatMap_cons]
    rw [hsplit, map_cons, sum_cons, Nat.mul_add]
    exact Nat.add_le_add hcopies ih

variable {receiver : ℕ} {msg : PaxosMessage}

/-- A delivery makes the messages in flight lighter. -/
theorem load_deliver_lt (hstep : s.step settings (.deliver receiver msg) = some s') :
    load settings.numberPaxosParticipants s'.inFlight <
      load settings.numberPaxosParticipants s.inFlight := by
  simp only [PaxosNetwork.step] at hstep
  split_ifs at hstep with hmem
  obtain rfl := Option.some.inj hstep
  set n := settings.numberPaxosParticipants with hn
  have herase : load n (s.inFlight.erase (receiver, msg)) + msg.weight n = load n s.inFlight := by
    have hcons := congrArg (load n) (Multiset.cons_erase hmem)
    rw [← hcons, load, load, Multiset.map_cons, Multiset.sum_cons, Nat.add_comm]
  unfold PaxosNetwork.act
  split_ifs with hfailed
  · show load n (s.inFlight.erase (receiver, msg)) < load n s.inFlight
    rw [← herase]
    exact Nat.lt_add_of_pos_right (Nat.succ_pos _)
  · set result := processPaxosMessage settings msg ⟨s.participants receiver, [], []⟩
    have hspent : result.1.cost n ≤ msg.answers n := by
      have hacts : Acts n (msg.answers n) (processPaxosMessage settings msg) :=
        acts_processPaxosMessage msg
      have hcost := hacts.spends ⟨s.participants receiver, [], []⟩
      simpa [cost] using hcost
    have hcopies : load n (copiesOf n receiver result.1.published) ≤ n * msg.answers n :=
      (load_copiesOf_le n receiver _).trans (Nat.mul_le_mul_left n hspent)
    have hweight : msg.weight n = n * msg.answers n + 1 := rfl
    calc load n (s.inFlight.erase (receiver, msg) + copiesOf n receiver result.1.published)
        = load n (s.inFlight.erase (receiver, msg)) +
            load n (copiesOf n receiver result.1.published) := by
          simp only [load, Multiset.map_add, Multiset.sum_add]
      _ < load n s.inFlight := by omega

/-- All messages can be delivered, together with all that is published then. -/
theorem exists_delivered (settings : PaxosSettings) (s : PaxosNetwork) :
    ∃ s', Delivered settings s s' ∧ s'.inFlight = 0 := by
  have hlt : ∀ s e s', IsDelivery s e → step settings s e = some s' →
      load settings.numberPaxosParticipants s'.inFlight <
        load settings.numberPaxosParticipants s.inFlight := by
    intro s e s' hevent hstep
    cases e with
    | deliver receiver msg => exact load_deliver_lt hstep
    | propose => exact hevent.elim
    | timeout => exact hevent.elim
  obtain ⟨s', hreach, hlast⟩ := Transitions.exists_terminal
    (fun s => load settings.numberPaxosParticipants s.inFlight) hlt s
  refine ⟨s', hreach, Multiset.eq_zero_of_forall_notMem fun x hx => ?_⟩
  exact hlast _ ⟨.deliver x.1 x.2, trivial, if_pos hx⟩

/-- What is in flight is about a proposal of the station that has no points. -/
structure Pointless (station : ℕ) (final : List AcceptedProposal) (s : PaxosNetwork) : Prop where
  owned : s.Owned
  final : (s.participants station).finallyAcceptedData = final
  free : (s.participants station).currentProposal.initialized = false
  messages : ∀ x ∈ s.inFlight, x.2.Prepares station

variable {final : List AcceptedProposal}

/-- A handler that stores nothing and starts nothing. -/
theorem Pointless.after (h : Pointless station final s) {threw : Bool} {st : PaxosActivity}
    (hfinal : st.participant.finallyAcceptedData = (s.participants receiver).finallyAcceptedData)
    (hfree : (s.participants receiver).currentProposal.initialized = false →
      st.participant.currentProposal.initialized = false)
    (hpublished : ∀ m ∈ st.published, m.Prepares station)
    (howned : (s.after settings receiver threw st).Owned) :
    Pointless station final (s.after settings receiver threw st) := by
  have hmessages : ∀ x ∈ (s.after settings receiver threw st).inFlight,
      x.2.Prepares station := by
    intro x hx
    rcases Multiset.mem_add.mp hx with hx | hx
    · exact h.messages x hx
    · exact hpublished x.2 (mem_copiesOf.mp hx).2.2
  by_cases hreceiver : station = receiver
  · subst hreceiver
    refine ⟨howned, ?_, ?_, hmessages⟩
    · rw [after_participants_self, hfinal, h.final]
    · rw [after_participants_self]
      exact hfree h.free
  · refine ⟨howned, ?_, ?_, hmessages⟩
    · rw [after_participants_of_ne hreceiver, h.final]
    · rw [after_participants_of_ne hreceiver, h.free]

theorem Pointless.deliver (h : Pointless station final s)
    (hstep : s.step settings (.deliver receiver msg) = some s') : Pointless station final s' := by
  have howned : s'.Owned := h.owned.step hstep
  simp only [PaxosNetwork.step] at hstep
  split_ifs at hstep with hmem
  obtain rfl := Option.some.inj hstep
  have hprepares : msg.Prepares station := h.messages _ hmem
  have hdrop : Pointless station final { s with inFlight := s.inFlight.erase (receiver, msg) } :=
    ⟨h.owned, h.final, h.free, fun x hx => h.messages x (Multiset.mem_of_mem_erase hx)⟩
  revert howned
  refine act_of_wp (P := fun s' => s'.Owned → Pointless station final s')
    (fun _ _ => hdrop) fun _ => ?_
  cases msg with
  | prepare msg =>
    simp only [processPaxosMessage, PaxosAcceptor.processPrepareMessage, wp_bind,
      wp_getParticipant, wp_ite, wp_promise, wp_pure, wp_publishMessage]
    refine ⟨fun _ => ⟨fun _ => hdrop.after rfl id (by simp), fun _ => hdrop.after rfl id ?_⟩,
      fun _ => hdrop.after rfl id (by simp)⟩
    intro m hm
    obtain rfl := mem_singleton.mp hm
    split_ifs
    · exact hprepares
    · exact hprepares
  | promise msg =>
    simp only [processPaxosMessage, processPromiseMessage, wp_bind,
      wp_getParticipant, wp_ite, wp_pure]
    refine ⟨fun _ => hdrop.after rfl id (by simp), fun hfor =>
      ⟨fun _ => hdrop.after rfl id (by simp), fun hrunning => ?_⟩⟩
    -- the promise is for the proposer, which has no proposal with points
    have hreceiver : receiver = station := by
      rw [← (h.owned receiver).nodeId, ← hprepares]
      exact (not_not.mp hfor).symm
    refine absurd (.inl ?_) hrunning
    rw [hreceiver, h.free]
    rfl
  | accept | ok | response => exact hprepares.elim

/-! ### The reservations of a proposal -/

/-- Nobody has a running proposal, and all messages have been delivered. -/
structure Quiet (settings : PaxosSettings) (s : PaxosNetwork) : Prop where
  messages : s.inFlight = 0
  free : ∀ j < settings.numberPaxosParticipants,
    (s.participants j).currentProposal.initialized = false

/-- All participants have the same entry at the instance, and they have
reserved the points, from the start time on, for the proposer. -/
structure SameReservation (settings : PaxosSettings) (proposer instanceId : ℕ)
    (points : PointTimePairs) (start : ℚ) (s : PaxosNetwork) : Prop where
  entry : ∃ data, ∀ j < settings.numberPaxosParticipants,
    (s.participants j).finallyAcceptedData[instanceId]?.map (·.data) = some data
  reserved : ∀ j < settings.numberPaxosParticipants, ∀ point ∈ points,
    (point.2 + start, proposer) ∈ (s.participants j).agreedData.reservations point.1

/-- A call of `findConsensus` without points does not start anything. -/
theorem Quiet.propose_nil (hquiet : Quiet settings s) (howned : s.Owned) {nowMs : ℕ}
    {secondsTillStart : ℚ}
    (hstep : s.step settings (.propose station [] nowMs secondsTillStart) = some s') :
    Pointless station (s.participants station).finallyAcceptedData s' := by
  have howned' : s'.Owned := howned.step hstep
  simp only [PaxosNetwork.step] at hstep
  split_ifs at hstep with hstation
  obtain rfl := Option.some.inj hstep
  have hfree := hquiet.free station hstation
  have hcalled : Pointless station (s.participants station).finallyAcceptedData
      { s with nextCall := s.nextCall + 1 } := by
    refine ⟨howned, rfl, hfree, fun x hx => ?_⟩
    rw [hquiet.messages] at hx
    exact absurd hx (Multiset.notMem_zero x)
  revert howned'
  refine act_of_wp (P := fun s' => s'.Owned → Pointless station
    (s.participants station).finallyAcceptedData s') (fun _ _ => hcalled) fun _ => ?_
  simp only [findConsensus, wp_bind, wp_getParticipant, wp_lift]
  refine ⟨fun start _ => ?_, fun _ _ => hcalled.after rfl id (by simp)⟩
  cases start with
  | none =>
    simp only [wp_callBack]
    exact hcalled.after rfl id (by simp)
  | some start =>
    simp only [wp_modifyParticipant, wp_schedule, wp_check, wp_ite, wp_promise,
      wp_publishMessage, wp_pure, wp_bind]
    refine ⟨fun _ => ⟨fun _ => hcalled.after rfl (fun _ => rfl) fun m hm => ?_, fun _ =>
      hcalled.after rfl (fun _ => rfl) (by simp)⟩, fun hrunning => absurd ?_ hrunning⟩
    · obtain rfl := mem_singleton.mp hm
      exact (howned station).nodeId
    · rw [hfree]
      rfl

/-- After a single call of `findConsensus` all messages get delivered in the
end, but in no order of deliveries the participants record the same
reservation: an acceptor records it for itself. -/
theorem reservation_never_shared (htwo : 2 ≤ settings.numberPaxosParticipants)
    {s₀ s₁ : PaxosNetwork} (hs₀ : Reachable settings (fun _ _ => True) s₀)
    (hquiet : Quiet settings s₀) {points : PointTimePairs} {nowMs : ℕ} {secondsTillStart : ℚ}
    (hcall : s₀.step settings (.propose station points nowMs secondsTillStart) = some s₁) :
    (∃ s, Delivered settings s₁ s ∧ s.inFlight = 0) ∧
    ∀ s, Delivered settings s₁ s → s.inFlight = 0 → ∀ start,
      ¬ SameReservation settings station (s₀.participants station).finallyAcceptedData.length
        points start s := by
  refine ⟨exists_delivered settings s₁, fun s hs _ start hsame => ?_⟩
  have howned₀ : s₀.Owned := owned_of_reachable hs₀
  have hstation : station < settings.numberPaxosParticipants := by
    by_contra hnot
    simp only [PaxosNetwork.step, if_neg hnot] at hcall
    cases hcall
  cases points with
  | nil =>
    -- the proposer stores nothing at the instance
    have hpointless : Pointless station (s₀.participants station).finallyAcceptedData s := by
      refine hs.invariant (hquiet.propose_nil howned₀ hcall) fun s e s' h hevent hstep => ?_
      cases e with
      | deliver receiver msg => exact h.deliver hstep
      | propose => exact hevent.elim
      | timeout => exact hevent.elim
    obtain ⟨data, hdata⟩ := hsame.entry
    have hnone := hdata station hstation
    rw [hpointless.final, getElem?_eq_none le_rfl] at hnone
    cases hnone
  | cons point points =>
    have howned : s.Owned :=
      hs.invariant (howned₀.step hcall) fun s e s' h _ hstep => h.step hstep
    obtain ⟨j, hj, hne⟩ : ∃ j < settings.numberPaxosParticipants, j ≠ station := by
      by_cases hzero : station = 0
      · exact ⟨1, by omega, by omega⟩
      · exact ⟨0, by omega, by omega⟩
    have howner := (howned j).owner point.1 _ (hsame.reserved j hj point mem_cons_self)
    exact hne howner.symm

end Reservations

/-- Station 0 proposes to pass an intersection. -/
theorem reservation_never_shared_twoParticipants :
    ∃ s₁, init.step twoParticipants (.propose 0 [((0, 0), 1)] 0 1) = some s₁ ∧
      (∃ s, Delivered twoParticipants s₁ s ∧ s.inFlight = 0) ∧
      ∀ s, Delivered twoParticipants s₁ s → s.inFlight = 0 → ∀ start,
        ¬ SameReservation twoParticipants 0 0 [((0, 0), 1)] start s :=
  ⟨_, rfl, reservation_never_shared (by decide) .refl ⟨rfl, fun _ _ => rfl⟩ rfl⟩

/-- Station 0 reserves the intersection at time 2, and all messages are
delivered.  Both participants believe to have the reservation themselves, and
the entries hold different times. -/
theorem reservation_not_shared :
    ∃ s, Reachable twoParticipants (OneAtATime twoParticipants True) s ∧ s.inFlight = 0 ∧
      (s.participants 0).agreedData.reservations (0, 0) = [(2, 0)] ∧
      (s.participants 1).agreedData.reservations (0, 0) = [(2, 1)] ∧
      (s.participants 0).finallyAcceptedData[0]?.map (·.data) = some [((0, 0), 1)] ∧
      (s.participants 1).finallyAcceptedData[0]?.map (·.data) = some [((0, 0), 2)] :=
  exists_reachable_of_run twoParticipants oneProposal (by decide +kernel)

end PaxosNetwork

end Sola.Daisi
