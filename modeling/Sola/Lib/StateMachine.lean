import Sola.Lib.Action

/-!
State machines given by a transition table, and simulations that work off
pending events.

The rows of a table are tried in turn.  The first one that starts in the
current state and whose guard holds is taken; without such a row nothing
happens.  A simulation handles one pending event after the other until none is
left, and handling an event can add new ones.
-/

namespace Sola.Lib

/-! ### Transition tables -/

/-- A row of a transition table. -/
structure Row (σ S ε : Type) where
  start : S
  event : ε
  target : S
  action : Action σ Unit
  guard : σ → Except String Bool

/-- A guard that always holds. -/
def Row.always {σ : Type} : σ → Except String Bool := fun _ => .ok true

/-- The state after an event, by the first row that can be taken. -/
def handleEvent {σ S ε : Type} [DecidableEq S] [DecidableEq ε] (state : σ → S) (event : ε) :
    List (Row σ S ε) → Action σ S
  | [] => do
      let s ← Action.get
      return state s
  | row :: rows => do
      let s ← Action.get
      if row.event = event ∧ state s = row.start then
        let taken ← Action.lift (row.guard s)
        if taken then
          row.action
          return row.target
        else handleEvent state event rows
      else handleEvent state event rows

/-! ### Simulations -/

/-- A state and the events that are still to be handled. -/
structure Simulation (σ ε : Type) where
  state : σ
  pending : List ε

namespace Simulation

section

variable {σ ε : Type} {handle : ε → Action (Simulation σ ε) Unit} {s s' t : Simulation σ ε}
  {e : ε} {es : List ε}

/-- Handle at most so many events. -/
def run (handle : ε → Action (Simulation σ ε) Unit) : ℕ → Action (Simulation σ ε) Unit
  | 0 => pure ()
  | n + 1 => do
      let s ← Action.get
      match s.pending with
      | [] => pure ()
      | e :: es =>
        Action.modify fun s => { s with pending := es }
        handle e
        run handle n

/-- The simulation ends in the state, with nothing left to handle. -/
def Completes (handle : ε → Action (Simulation σ ε) Unit) (s t : Simulation σ ε) : Prop :=
  ∃ n, run handle n s = (t, .ok ()) ∧ t.pending = []

theorem run_succ_of_ok (hs : s.pending = e :: es)
    (h : handle e { s with pending := es } = (s', .ok ())) (n : ℕ) :
    run handle (n + 1) s = run handle n s' := by
  have hrun : run handle (n + 1) s =
      (handle e >>= fun _ => run handle n) { s with pending := es } := by
    rw [run, Action.get_bind_run, hs]
    rfl
  rw [hrun, Action.bind_run_ok h]

theorem run_succ_of_error {msg : String} (hs : s.pending = e :: es)
    (h : handle e { s with pending := es } = (s', .error msg)) (n : ℕ) :
    run handle (n + 1) s = (s', .error msg) := by
  have hrun : run handle (n + 1) s =
      (handle e >>= fun _ => run handle n) { s with pending := es } := by
    rw [run, Action.get_bind_run, hs]
    rfl
  rw [hrun, Action.bind_run_error h]

theorem completes_of_nil (hs : s.pending = []) : Completes handle s t ↔ t = s := by
  constructor
  · rintro ⟨n, hrun, _⟩
    have hstay : run handle n s = (s, .ok ()) := by
      cases n with
      | zero => rfl
      | succ n =>
        rw [run, Action.get_bind_run, hs]
        rfl
    exact (Prod.mk.inj (hrun.symm.trans hstay)).1
  · rintro rfl
    exact ⟨0, rfl, hs⟩

/-- An event that is handled is one step on the way to the end. -/
theorem completes_of_ok (hs : s.pending = e :: es)
    (h : handle e { s with pending := es } = (s', .ok ())) :
    Completes handle s t ↔ Completes handle s' t := by
  constructor
  · rintro ⟨n, hrun, ht⟩
    cases n with
    | zero =>
      obtain rfl := (Prod.mk.inj hrun).1
      rw [hs] at ht
      cases ht
    | succ n => exact ⟨n, (run_succ_of_ok hs h n).symm.trans hrun, ht⟩
  · rintro ⟨n, hrun, ht⟩
    exact ⟨n + 1, (run_succ_of_ok hs h n).trans hrun, ht⟩

theorem not_completes_of_error {msg : String} (hs : s.pending = e :: es)
    (h : handle e { s with pending := es } = (s', .error msg)) : ¬ Completes handle s t := by
  rintro ⟨n, hrun, ht⟩
  cases n with
  | zero =>
    obtain rfl := (Prod.mk.inj hrun).1
    rw [hs] at ht
    cases ht
  | succ n =>
    rw [run_succ_of_error hs h] at hrun
    cases (Prod.mk.inj hrun).2

end

end Simulation

end Sola.Lib
