import Mathlib.Data.Nat.Notation
import Mathlib.Logic.Relation
import Mathlib.Tactic.SplitIfs

/-!
Systems that take one step after the other.

`step s e` is the state after the event `e`, if the event is possible in the
state `s`.  A condition `C` on states and events restricts which events happen.
-/

namespace Sola.Lib.Transitions

open Option

variable {S ε : Type} {step : S → ε → Option S} {C : S → ε → Prop} {s₀ s : S}

/-- A step with an event that meets the condition. -/
def Step (step : S → ε → Option S) (C : S → ε → Prop) (s s' : S) : Prop :=
  ∃ e, C s e ∧ step s e = some s'

/-- The states that can be reached from `s₀` by events that meet the condition. -/
def Reachable (step : S → ε → Option S) (C : S → ε → Prop) (s₀ s : S) : Prop :=
  Relation.ReflTransGen (Step step C) s₀ s

variable {I : S → Prop} {s' : S}

/-- What holds at first and is kept by every step holds in every reachable state. -/
theorem Reachable.invariant (h : Reachable step C s₀ s) (h₀ : I s₀)
    (hstep : ∀ s e s', I s → C s e → step s e = some s' → I s') : I s := by
  induction h with
  | refl => exact h₀
  | tail _ hs ih =>
    obtain ⟨e, hC, he⟩ := hs
    exact hstep _ e _ ih hC he

/-- One more event. -/
theorem Reachable.next (h : Reachable step C s₀ s) (e : ε) (hC : C s e)
    (hstep : step s e = some s') : Reachable step C s₀ s' :=
  h.tail ⟨e, hC, hstep⟩

/-- Let events that meet the condition happen in turn. -/
def run (step : S → ε → Option S) (C : S → ε → Prop) [∀ s e, Decidable (C s e)] :
    S → List ε → Option S
  | s, [] => some s
  | s, e :: es => if C s e then (step s e).bind fun s' => run step C s' es else none

theorem reachable_of_run [∀ s e, Decidable (C s e)] {es : List ε}
    (h : run step C s₀ es = some s) : Reachable step C s₀ s := by
  induction es generalizing s₀ with
  | nil =>
    obtain rfl := some.inj h
    exact .refl
  | cons e es ih =>
    simp only [run] at h
    split_ifs at h with hC
    obtain ⟨s₁, hstep, hrest⟩ := bind_eq_some_iff.mp h
    exact .head ⟨e, hC, hstep⟩ (ih hrest)

/-- A run of events shows that a state with a property can be reached. -/
theorem exists_reachable_of_run [∀ s e, Decidable (C s e)] (es : List ε) {P : S → Prop}
    [DecidablePred P] (h : (run step C s₀ es).any (fun s => P s) = true) :
    ∃ s, Reachable step C s₀ s ∧ P s := by
  obtain ⟨s, hs, hP⟩ := (any_eq_true _ _).mp h
  exact ⟨s, reachable_of_run hs, of_decide_eq_true hP⟩

/-- If every step lowers a number, the system comes to a state without a next one. -/
theorem exists_terminal (μ : S → ℕ)
    (hlt : ∀ s e s', C s e → step s e = some s' → μ s' < μ s) (s : S) :
    ∃ s', Reachable step C s s' ∧ ∀ s'', ¬ Step step C s' s'' := by
  induction hn : μ s using Nat.strongRecOn generalizing s with
  | ind n ih =>
    by_cases hmore : ∃ s₁, Step step C s s₁
    · obtain ⟨s₁, e, hC, hstep⟩ := hmore
      obtain ⟨s', hreach, hlast⟩ := ih (μ s₁) (hn ▸ hlt s e s₁ hC hstep) s₁ rfl
      exact ⟨s', .head ⟨e, hC, hstep⟩ hreach, hlast⟩
    · exact ⟨s, .refl, fun s₁ hs₁ => hmore ⟨s₁, hs₁⟩⟩

/-! ### Systems without a choice -/

variable {next : S → Option S}

/-- The state after `k` steps of a system that has at most one next state. -/
def after (next : S → Option S) : ℕ → S → Option S
  | 0, s => some s
  | k + 1, s => (next s).bind (after next k)

theorem after_succ_of_next (h : next s = some s') (k : ℕ) :
    after next (k + 1) s = after next k s' := by
  simp only [after, h, bind_some]

/-- A state without a next one is the last. -/
theorem eq_zero_of_after (h : next s = none) {k : ℕ} (hk : after next k s = some s') : k = 0 := by
  cases k with
  | zero => rfl
  | succ k =>
    simp only [after, h, bind_none] at hk
    cases hk

theorem after_next {s'' : S} {k : ℕ} (hk : after next k s = some s') (hnext : next s' = some s'') :
    after next (k + 1) s = some s'' := by
  induction k generalizing s with
  | zero =>
    obtain rfl := some.inj hk
    rw [after_succ_of_next hnext]
    rfl
  | succ k ih =>
    obtain ⟨s₁, hfirst, hrest⟩ := bind_eq_some_iff.mp hk
    rw [after_succ_of_next hfirst]
    exact ih hrest

/-- Within a set of states that every step stays in, the system goes on for ever. -/
theorem exists_after (hI : ∀ s, I s → ∃ s', next s = some s' ∧ I s') (h : I s) (k : ℕ) :
    ∃ s', after next k s = some s' ∧ I s' := by
  induction k generalizing s with
  | zero => exact ⟨s, rfl, h⟩
  | succ k ih =>
    obtain ⟨s₁, hnext, h₁⟩ := hI s h
    rw [after_succ_of_next hnext]
    exact ih h₁

end Sola.Lib.Transitions
