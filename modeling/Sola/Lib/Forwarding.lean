import Mathlib.Algebra.BigOperators.Group.Multiset.Basic
import Sola.Lib.Transitions

/-!
Messages that cause further messages.

The messages on their way are delivered in any order.  Each delivery reaches
the site of the message and puts the messages it causes on their way.  If every
message answers for a share of the sites, and divides what is left of it after
its own site among the messages it causes, then every run delivers exactly the
sites that the first messages answer for.
-/

namespace Sola.Lib.Forwarding

open Sola.Lib Multiset

variable {M β : Type} [DecidableEq M]

structure Traffic (M β : Type) where
  pending : Multiset M
  delivered : Multiset β

/-- Deliver one of the messages on their way. -/
def deliver (sends : M → List M) (site : M → β) (s : Traffic M β) (msg : M) :
    Option (Traffic M β) :=
  if msg ∈ s.pending then
    some ⟨s.pending.erase msg + sends msg, site msg ::ₘ s.delivered⟩
  else none

/-- Deliver messages in the given order. -/
abbrev deliverAll (sends : M → List M) (site : M → β) :
    Traffic M β → List M → Option (Traffic M β) :=
  Transitions.run (deliver sends site) fun _ _ => True

/-- The messages with the property `Good` divide their shares. -/
structure Divides (sends : M → List M) (site : M → β) (Good : M → Prop)
    (share : M → Multiset β) : Prop where
  good : ∀ msg, Good msg → ∀ next ∈ sends msg, Good next
  share_eq : ∀ msg, Good msg → share msg = site msg ::ₘ ((sends msg).map share).sum

/-- What has been delivered and what the messages on their way answer for make
up `total`. -/
structure Balanced (Good : M → Prop) (share : M → Multiset β) (total : Multiset β)
    (s : Traffic M β) : Prop where
  good : ∀ msg ∈ s.pending, Good msg
  total_eq : s.delivered + (s.pending.map share).sum = total

variable {sends : M → List M} {site : M → β} {Good : M → Prop} {share : M → Multiset β}
  {total : Multiset β} {s s' : Traffic M β} {msgs : List M}

theorem deliverAll_cons_of_mem {msg : M} (hmem : msg ∈ s.pending) :
    deliverAll sends site s (msg :: msgs) =
      deliverAll sends site ⟨s.pending.erase msg + sends msg, site msg ::ₘ s.delivered⟩ msgs := by
  simp only [deliverAll, Transitions.run, if_true, deliver, if_pos hmem, Option.bind_some]

theorem deliver_balanced (hdiv : Divides sends site Good share)
    (hs : Balanced Good share total s) {msg : M} (h : deliver sends site s msg = some s') :
    Balanced Good share total s' := by
  unfold deliver at h
  split_ifs at h with hmem
  obtain rfl := Option.some.inj h
  refine ⟨fun next hnext => ?_, ?_⟩
  · rcases mem_add.mp hnext with hold | hnew
    · exact hs.good next (mem_of_mem_erase hold)
    · exact hdiv.good msg (hs.good msg hmem) next hnew
  · have hbefore := hs.total_eq
    rw [← cons_erase hmem, map_cons, sum_cons,
      hdiv.share_eq msg (hs.good msg hmem)] at hbefore
    simp only [Multiset.map_add, sum_add, map_coe, sum_coe]
    rw [← hbefore, ← singleton_add, ← singleton_add]
    ac_rfl

theorem deliverAll_balanced (hdiv : Divides sends site Good share)
    (hs : Balanced Good share total s) (h : deliverAll sends site s msgs = some s') :
    Balanced Good share total s' :=
  (Transitions.reachable_of_run h).invariant hs fun _ _ _ hi _ hstep =>
    deliver_balanced hdiv hi hstep

/-- Every message of a run is delivered to one site. -/
theorem card_delivered (h : deliverAll sends site s msgs = some s') :
    s'.delivered.card = s.delivered.card + msgs.length := by
  induction msgs generalizing s with
  | nil =>
    obtain rfl := Option.some.inj h
    rfl
  | cons msg msgs ih =>
    simp only [deliverAll, Transitions.run, if_true] at h
    obtain ⟨s₁, hstep, hrest⟩ := Option.bind_eq_some_iff.mp h
    rw [ih hrest]
    unfold deliver at hstep
    split_ifs at hstep
    obtain rfl := Option.some.inj hstep
    simp only [card_cons, List.length_cons]
    omega

/-- What the first messages have and every message hands on, the message to each
delivered site had. -/
theorem exists_of_mem_delivered {P : M → Prop} {first : List M} (hfirst : ∀ msg ∈ first, P msg)
    (hsends : ∀ msg, P msg → ∀ next ∈ sends msg, P next)
    (h : deliverAll sends site ⟨first, 0⟩ msgs = some s) {b : β} (hb : b ∈ s.delivered) :
    ∃ msg, P msg ∧ site msg = b := by
  have hinv : (∀ msg ∈ s.pending, P msg) ∧ ∀ b ∈ s.delivered, ∃ msg, P msg ∧ site msg = b := by
    refine (Transitions.reachable_of_run h).invariant (I := fun s =>
      (∀ msg ∈ s.pending, P msg) ∧ ∀ b ∈ s.delivered, ∃ msg, P msg ∧ site msg = b)
      ⟨hfirst, by simp⟩ ?_
    rintro s msg s' ⟨hpending, hdelivered⟩ - hstep
    unfold deliver at hstep
    split_ifs at hstep with hmem
    obtain rfl := Option.some.inj hstep
    refine ⟨fun next hnext => ?_, fun b hb => ?_⟩
    · rcases mem_add.mp hnext with hold | hnew
      · exact hpending next (mem_of_mem_erase hold)
      · exact hsends msg (hpending msg hmem) next hnew
    · rcases mem_cons.mp hb with rfl | hold
      · exact ⟨msg, hpending msg hmem, rfl⟩
      · exact hdelivered b hold
  exact hinv.2 b hb

/-- As long as messages are on their way one of them can be delivered, and what
they answer for gets less. -/
theorem exists_deliverAll_empty (hdiv : Divides sends site Good share)
    (hs : Balanced Good share total s) :
    ∃ msgs s', deliverAll sends site s msgs = some s' ∧ s'.pending = 0 := by
  induction hk : total.card - s.delivered.card generalizing s with
  | zero =>
    by_cases hempty : s.pending = 0
    · exact ⟨[], s, rfl, hempty⟩
    · -- a message on its way answers for its own site
      obtain ⟨msg, hmem⟩ := exists_mem_of_ne_zero hempty
      have hcard := congrArg card hs.total_eq
      rw [← cons_erase hmem, map_cons, sum_cons,
        hdiv.share_eq msg (hs.good msg hmem), card_add, card_add,
        card_cons] at hcard
      omega
  | succ k ih =>
    by_cases hempty : s.pending = 0
    · exact ⟨[], s, rfl, hempty⟩
    · obtain ⟨msg, hmem⟩ := exists_mem_of_ne_zero hempty
      have hnext := deliver_balanced hdiv hs (if_pos hmem)
      obtain ⟨msgs, s', hrun, hdone⟩ := ih hnext (by
        simp only [card_cons]
        omega)
      exact ⟨msg :: msgs, s', (deliverAll_cons_of_mem hmem).trans hrun, hdone⟩

/-- Every run from the first messages is finite, can be completed, and when no
message is on its way any more it has delivered exactly the sites in `total`. -/
theorem deliverAll_total (hdiv : Divides sends site Good share) {first : List M}
    (hgood : ∀ msg ∈ first, Good msg) (htotal : (first.map share).sum = total) :
    (∀ msgs s, deliverAll sends site ⟨first, 0⟩ msgs = some s →
      msgs.length ≤ total.card ∧ (s.pending = 0 → s.delivered = total)) ∧
    ∃ msgs s, deliverAll sends site ⟨first, 0⟩ msgs = some s ∧ s.pending = 0 := by
  have hs : Balanced Good share total ⟨(first : Multiset M), 0⟩ :=
    ⟨fun msg hmsg => hgood msg hmsg, by
      rw [zero_add, map_coe, sum_coe, htotal]⟩
  refine ⟨fun msgs s h => ?_, exists_deliverAll_empty hdiv hs⟩
  have hbalanced := (deliverAll_balanced hdiv hs h).total_eq
  constructor
  · have hcard := card_delivered h
    rw [← hbalanced, card_add, hcard, card_zero]
    omega
  · intro hdone
    rw [hdone, Multiset.map_zero, sum_zero, add_zero] at hbalanced
    exact hbalanced

end Sola.Lib.Forwarding
