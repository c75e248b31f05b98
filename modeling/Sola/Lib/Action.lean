import Mathlib.Data.Multiset.Basic

/-!
Actions: computations on a state that can throw.

The state survives an exception, as the effects of a C++ function before a
`throw` do.  A run of an action is a state together with a value or the text
of the exception.
-/

namespace Sola.Lib

/-- A computation on states `σ` that returns a value of `α` or throws. -/
def Action (σ α : Type) : Type := σ → σ × Except String α

namespace Action

variable {σ α β : Type} (e : String)

instance : Monad (Action σ) where
  pure a := fun s => (s, .ok a)
  bind x f := fun s =>
    match x s with
    | (s', .ok a) => f a s'
    | (s', .error e) => (s', .error e)

/-- Read the state. -/
def get : Action σ σ := fun s => (s, .ok s)

def modify (f : σ → σ) : Action σ Unit := fun s => (f s, .ok ())

def throw (e : String) : Action σ α := fun s => (s, .error e)

/-- A pure computation that can throw. -/
def lift (x : Except String α) : Action σ α := fun s => (s, x)

/-- Run an action for every element of a list in turn. -/
def forEach : List β → (β → Action σ Unit) → Action σ Unit
  | [], _ => pure ()
  | b :: bs, f => do
      f b
      forEach bs f

/-- An action on a part of the state. -/
def zoom {τ : Type} (get : σ → τ) (set : τ → σ → σ) (x : Action τ α) : Action σ α :=
  fun s => (set (x (get s)).1 s, (x (get s)).2)

/-- Go on after an exception, with what has been done before it. -/
def catchAll (x : Action σ Unit) : Action σ Unit := fun s => ((x s).1, .ok ())

/-! ### Running actions -/

@[simp] theorem pure_run (a : α) (s : σ) : (pure a : Action σ α) s = (s, .ok a) := rfl

@[simp] theorem get_run (s : σ) : (get : Action σ σ) s = (s, .ok s) := rfl

@[simp] theorem modify_run (f : σ → σ) (s : σ) : modify f s = (f s, .ok ()) := rfl

@[simp] theorem throw_run (s : σ) : (throw e : Action σ α) s = (s, .error e) := rfl

@[simp] theorem lift_run (x : Except String α) (s : σ) : (lift x : Action σ α) s = (s, x) :=
  rfl

variable {x : Action σ α} {s s' : σ} {f : α → Action σ β} {a : α} {f : α → Action σ β}
  {y : Action σ α}

theorem pure_run_eq_ok {b : α} : (pure a : Action σ α) s = (s', .ok b) ↔ s = s' ∧ a = b := by
  rw [pure_run, Prod.mk.injEq, Except.ok.injEq]

theorem catchAll_run_ok {x : Action σ Unit} (h : x s = (s', .ok ())) :
    catchAll x s = (s', .ok ()) := by
  rw [catchAll, h]

theorem bind_run_ok (h : x s = (s', .ok a)) : (x >>= f) s = f a s' := by
  simp only [bind, h]

theorem bind_run_error {e : String} (h : x s = (s', .error e)) : (x >>= f) s = (s', .error e) := by
  simp only [bind, h]

/-- A run returns or throws. -/
theorem run_cases (x : Action σ α) (s : σ) :
    (∃ s' a, x s = (s', .ok a)) ∨ ∃ s' e, x s = (s', .error e) := by
  rcases hx : x s with ⟨s', e | a⟩
  · exact .inr ⟨s', e, rfl⟩
  · exact .inl ⟨s', a, rfl⟩

/-- A run that returns goes through both parts. -/
theorem bind_run_eq_ok {b : β} :
    (x >>= f) s = (s', .ok b) ↔ ∃ s₁ a, x s = (s₁, .ok a) ∧ f a s₁ = (s', .ok b) := by
  constructor
  · intro h
    obtain ⟨s₁, a, hx⟩ | ⟨s₁, e, hx⟩ := run_cases x s
    · exact ⟨s₁, a, hx, (bind_run_ok hx).symm.trans h⟩
    · cases (bind_run_error hx).symm.trans h
  · rintro ⟨s₁, a, hx, hf⟩
    rw [bind_run_ok hx, hf]

theorem bind_assoc {γ : Type} (x : Action σ α) (f : α → Action σ β) (g : β → Action σ γ) :
    x >>= f >>= g = x >>= fun a => f a >>= g := by
  funext s
  obtain ⟨s₁, a, hx⟩ | ⟨s₁, e, hx⟩ := run_cases x s
  · rw [bind_run_ok hx]
    obtain ⟨s₂, b, hf⟩ | ⟨s₂, e, hf⟩ := run_cases (f a) s₁
    · rw [bind_run_ok ((bind_run_ok hx).trans hf), bind_run_ok hf]
    · rw [bind_run_error ((bind_run_ok hx).trans hf), bind_run_error hf]
  · rw [bind_run_error (bind_run_error hx), bind_run_error hx]

theorem pure_bind (a : α) (f : α → Action σ β) : (pure a : Action σ α) >>= f = f a := rfl

theorem lift_bind_run_eq_ok {x : Except String α} {b : β} :
    ((lift x : Action σ α) >>= f) s = (s', .ok b) ↔ ∃ a, x = .ok a ∧ f a s = (s', .ok b) := by
  rw [bind_run_eq_ok, exists_comm]
  simp only [lift_run, Prod.mk.injEq, and_assoc, exists_eq_left']

theorem zoom_run_eq_ok {τ : Type} {get : σ → τ} {set : τ → σ → σ} {x : Action τ α} :
    zoom get set x s = (s', .ok a) ↔ ∃ t, x (get s) = (t, .ok a) ∧ s' = set t s := by
  rcases hx : x (get s) with ⟨t, r⟩
  simp only [zoom, hx, Prod.mk.injEq, and_assoc, exists_eq_left']
  exact ⟨fun ⟨hs, hr⟩ => ⟨hr, hs.symm⟩, fun ⟨hr, hs⟩ => ⟨hs.symm, hr⟩⟩

theorem zoom_run_ok {τ : Type} {get : σ → τ} {set : τ → σ → σ} {x : Action τ α} {t : τ}
    (h : x (get s) = (t, .ok a)) : zoom get set x s = (set t s, .ok a) := by
  rw [zoom, h]

@[simp] theorem pure_bind_run (a : α) (f : α → Action σ β) (s : σ) :
    ((pure a : Action σ α) >>= f) s = f a s := rfl

@[simp] theorem get_bind_run (f : σ → Action σ β) (s : σ) : (get >>= f) s = f s s := rfl

@[simp] theorem modify_bind_run (g : σ → σ) (f : Unit → Action σ β) (s : σ) :
    (modify g >>= f) s = f () (g s) := rfl

@[simp] theorem throw_bind_run (f : α → Action σ β) (s : σ) :
    ((throw e : Action σ α) >>= f) s = (s, .error e) := rfl

@[simp] theorem lift_ok_bind_run (a : α) (f : α → Action σ β) (s : σ) :
    ((lift (.ok a) : Action σ α) >>= f) s = f a s := rfl

@[simp] theorem forEach_nil (f : β → Action σ Unit) :
    forEach [] f = pure () := rfl

@[simp] theorem forEach_cons (b : β) (bs : List β) (f : β → Action σ Unit) :
    forEach (b :: bs) f = (do f b; forEach bs f) := rfl

theorem forEach_singleton (b : β) (f : β → Action σ Unit) : forEach [b] f = f b := by
  funext s
  rw [forEach_cons]
  obtain ⟨s', _, hrun⟩ | ⟨s', e, hrun⟩ := run_cases (f b) s
  · rw [bind_run_ok hrun, hrun]
    rfl
  · rw [bind_run_error hrun, hrun]

theorem forEach_append (bs bs' : List β) (f : β → Action σ Unit) :
    forEach (bs ++ bs') f = (do forEach bs f; forEach bs' f) := by
  induction bs with
  | nil => rfl
  | cons b bs ih => rw [List.cons_append, forEach_cons, forEach_cons, ih, bind_assoc]

/-- A loop whose rounds all succeed is a fold over the states. -/
theorem forEach_run {g : σ → β → σ} {f : β → Action σ Unit} {bs : List β} {I : σ → Prop} (hI : I s)
    (h : ∀ b ∈ bs, ∀ s, I s → f b s = (g s b, .ok ()) ∧ I (g s b)) :
    forEach bs f s = (bs.foldl g s, .ok ()) := by
  induction bs generalizing s with
  | nil => rfl
  | cons b bs ih =>
    obtain ⟨hb, hI'⟩ := h b (by simp) s hI
    rw [forEach_cons, bind_run_ok hb, List.foldl_cons]
    exact ih hI' fun b' hb' => h b' (by simp [hb'])

/-! ### Weakest preconditions

`wp x Q E s` says how a run of `x` from `s` ends: with a value and a state in
`Q`, or with an exception and a state in `E`.  The `simp` lemmas below push
`wp` through an action down to its tests and updates. -/

/-- The run of `x` from `s` returns in `Q` or throws in `E`. -/
def wp (x : Action σ α) (Q : α → σ → Prop) (E : σ → Prop) (s : σ) : Prop :=
  match x s with
  | (s', .ok a) => Q a s'
  | (s', .error _) => E s'

section Wp

variable {Q : α → σ → Prop} {R : β → σ → Prop} {E : σ → Prop} {s : σ} {x : Action σ α}
  {Q' : α → σ → Prop} {E' : σ → Prop}

theorem wp_of_run_ok {s' : σ} {a : α} (h : x s = (s', .ok a)) : wp x Q E s ↔ Q a s' := by
  simp only [wp, h]

theorem wp_of_run_error {s' : σ} {e : String} (h : x s = (s', .error e)) : wp x Q E s ↔ E s' := by
  simp only [wp, h]

/-- An action that is sure not to throw. -/
theorem exists_run_of_wp (h : wp x Q (fun _ => False) s) : ∃ s' a, x s = (s', .ok a) ∧ Q a s' := by
  rcases run_cases x s with ⟨s', a, hrun⟩ | ⟨s', e, hrun⟩
  · exact ⟨s', a, hrun, (wp_of_run_ok hrun).mp h⟩
  · exact ((wp_of_run_error hrun).mp h).elim

@[simp] theorem wp_pure (a : α) : wp (pure a) Q E s ↔ Q a s := Iff.rfl

@[simp] theorem wp_get {Q : σ → σ → Prop} : wp get Q E s ↔ Q s s := Iff.rfl

@[simp] theorem wp_modify (f : σ → σ) {Q : Unit → σ → Prop} :
    wp (modify f) Q E s ↔ Q () (f s) := Iff.rfl

@[simp] theorem wp_throw : wp (throw e) Q E s ↔ E s := Iff.rfl

@[simp] theorem wp_bind (x : Action σ α) (f : α → Action σ β) :
    wp (x >>= f) R E s ↔ wp x (fun a => wp (f a) R E) E s := by
  obtain ⟨s', a, h⟩ | ⟨s', e, h⟩ := run_cases x s
  · rw [wp_of_run_ok h, wp, bind_run_ok h, ← wp]
  · rw [wp_of_run_error h, wp, bind_run_error h]

/-- `wp_bind` where the state is not given. -/
theorem wp_bind_eq (x : Action σ α) (f : α → Action σ β) :
    wp (x >>= f) R E = wp x (fun a => wp (f a) R E) E :=
  funext fun _ => propext (wp_bind x f)

theorem wp_lift (x : Except String α) :
    wp (lift x) Q E s ↔ (∀ a, x = .ok a → Q a s) ∧ ∀ e, x = .error e → E s := by
  cases x with
  | ok a => simp [wp]
  | error e => simp [wp]

@[simp] theorem wp_lift_ok (a : α) : wp (lift (.ok a)) Q E s ↔ Q a s := Iff.rfl

@[simp] theorem wp_ite (c : Prop) [Decidable c] (x y : Action σ α) :
    wp (if c then x else y) Q E s ↔ (c → wp x Q E s) ∧ (¬ c → wp y Q E s) := by
  split_ifs with h
  · simp [h]
  · simp [h]

/-- A weaker postcondition. -/
theorem wp.imp (h : wp x Q E s) (hQ : ∀ a s, Q a s → Q' a s) (hE : ∀ s, E s → E' s) :
    wp x Q' E' s := by
  obtain ⟨s', a, hx⟩ | ⟨s', e, hx⟩ := run_cases x s
  · exact (wp_of_run_ok hx).mpr (hQ a s' ((wp_of_run_ok hx).mp h))
  · exact (wp_of_run_error hx).mpr (hE s' ((wp_of_run_error hx).mp h))

/-- The rule of the sequence, with a postcondition of the first part. -/
theorem wp.bind (h : wp x Q E s) (hf : ∀ a s, Q a s → wp (f a) R E s) : wp (x >>= f) R E s :=
  (wp_bind x f).mpr (h.imp hf fun _ h => h)

/-- A property of the state in which the run ends. -/
theorem wp_state_iff : wp x (fun _ => E) E s ↔ E (x s).1 := by
  rcases hx : x s with ⟨s', e | a⟩ <;> simp only [wp, hx]

theorem wp_of_forall (x : Action σ α) (hQ : ∀ a s, Q a s) (hE : ∀ s, E s) : wp x Q E s :=
  (wp_state_iff (E := fun _ => True)).mpr trivial |>.imp (fun a s _ => hQ a s) fun s _ => hE s

/-- The rule of the loop: its rounds keep the invariant `I`. -/
theorem wp_forEach {I : σ → Prop} {f : β → Action σ Unit} {bs : List β}
    (h : ∀ b ∈ bs, ∀ s, I s → wp (f b) (fun _ => I) E s) (hI : I s) :
    wp (forEach bs f) (fun _ => I) E s := by
  induction bs generalizing s with
  | nil => exact hI
  | cons b bs ih =>
    exact (h b (by simp) s hI).bind fun _ s' hI' => ih (fun b' hb' => h b' (by simp [hb'])) hI'

end Wp

/-! ### Frames

An action keeps a part of the state if every run ends with the part as it
was, also a run that throws. -/

def Keeps {τ : Type} (part : σ → τ) (x : Action σ α) : Prop := ∀ s, part (x s).1 = part s

section Keeps

variable {τ : Type} {part : σ → τ}

theorem keeps_pure (a : α) : Keeps part (pure a : Action σ α) := fun _ => rfl

theorem keeps_get : Keeps part (get : Action σ σ) := fun _ => rfl

theorem keeps_throw : Keeps part (throw e : Action σ α) := fun _ => rfl

theorem keeps_lift (x : Except String α) : Keeps part (lift x : Action σ α) := fun _ => rfl

theorem keeps_modify {f : σ → σ} (h : ∀ s, part (f s) = part s) : Keeps part (modify f) := h

variable {x : Action σ α}

theorem Keeps.bind (hx : Keeps part x) (hf : ∀ a, Keeps part (f a)) : Keeps part (x >>= f) := by
  intro s
  rw [← wp_state_iff (E := fun s' => part s' = part s)]
  refine (wp_state_iff.mpr (hx s)).bind fun a s' hs => wp_state_iff.mpr ?_
  rw [hf a s', hs]

theorem Keeps.ite {c : Prop} [Decidable c] (hx : Keeps part x) (hy : Keeps part y) :
    Keeps part (if c then x else y) := by
  split_ifs
  · exact hx
  · exact hy

theorem keeps_forEach {f : β → Action σ Unit} (h : ∀ b, Keeps part (f b)) (bs : List β) :
    Keeps part (forEach bs f) := by
  induction bs with
  | nil => exact keeps_pure ()
  | cons b bs ih => exact (h b).bind fun _ => ih

end Keeps

/-! ### Invariants and costs

The two notions go through an action construct by construct.  An action
preserves a property of the state, or raises a number that the state carries
by a bounded amount, also in a run that throws. -/

def Preserves (I : σ → Prop) (x : Action σ α) : Prop := ∀ s, I s → I (x s).1

/-- Every run raises `cost` by at most `k`. -/
def Spends (cost : σ → ℕ) (k : ℕ) (x : Action σ α) : Prop := ∀ s, cost (x s).1 ≤ cost s + k

section Preserves

variable {I : σ → Prop} {cost : σ → ℕ} {k l : ℕ} {x : Action σ α} {f : α → Action σ β}

theorem Keeps.preserves {τ : Type} {part : σ → τ} (h : Keeps part x)
    (hI : ∀ s s', part s' = part s → I s → I s') : Preserves I x :=
  fun s hs => hI s (x s).1 (h s) hs

theorem Keeps.spends (h : Keeps cost x) : Spends cost 0 x :=
  fun s => (h s).le

theorem Preserves.of_run {s s' : σ} {r : Except String α} (hx : Preserves I x) (hI : I s)
    (h : x s = (s', r)) : I s' := by
  have hs := hx s hI
  rwa [h] at hs

theorem Preserves.bind (hx : Preserves I x) (hf : ∀ a, Preserves I (f a)) :
    Preserves I (x >>= f) := by
  intro s hI
  refine wp_state_iff.mp ((wp_state_iff.mpr (hx s hI)).bind fun a s' hs => ?_)
  exact wp_state_iff.mpr (hf a s' hs)

theorem preserves_forEach {f : β → Action σ Unit} (h : ∀ b, Preserves I (f b)) (bs : List β) :
    Preserves I (forEach bs f) := by
  induction bs with
  | nil => exact fun _ hI => hI
  | cons b bs ih => exact (h b).bind fun _ => ih

theorem Spends.bind (hx : Spends cost k x) (hf : ∀ a, Spends cost l (f a)) :
    Spends cost (k + l) (x >>= f) := by
  intro s
  have hs : wp x (fun _ s' => cost s' ≤ cost s + k) (fun s' => cost s' ≤ cost s + (k + l)) s :=
    (wp_state_iff.mpr (hx s)).imp (fun _ _ h => h) fun s' h => h.trans (by omega)
  rw [← wp_state_iff (E := fun s' => cost s' ≤ cost s + (k + l))]
  refine hs.bind fun a s' hs => wp_state_iff.mpr ?_
  have ha := hf a s'
  omega

theorem Spends.mono (h : Spends cost k x) (hkl : k ≤ l) : Spends cost l x :=
  fun s => (h s).trans (Nat.add_le_add_left hkl _)

end Preserves

/-! ### Invariants of runs that return -/

/-- A run that returns maintains `I`; one that throws may break it. -/
def Maintains (I : σ → Prop) (x : Action σ α) : Prop :=
  ∀ s, I s → wp x (fun _ => I) (fun _ => True) s

section Maintains

variable {I : σ → Prop} {x : Action σ α}

theorem Preserves.maintains (h : Preserves I x) : Maintains I x :=
  fun s hI => (wp_state_iff.mpr (h s hI)).imp (fun _ _ h => h) fun _ _ => trivial

theorem Maintains.bind (hx : Maintains I x) (hf : ∀ a, Maintains I (f a)) : Maintains I (x >>= f) :=
  fun s hI => (hx s hI).bind hf

theorem Maintains.ite {c : Prop} [Decidable c] (hx : Maintains I x) (hy : Maintains I y) :
    Maintains I (if c then x else y) := by
  split_ifs
  · exact hx
  · exact hy

/-- What a run that has returned says about its last state. -/
theorem Maintains.of_run (hx : Maintains I x) {s s' : σ} {a : α} (hI : I s)
    (h : x s = (s', .ok a)) : I s' :=
  (wp_of_run_ok h).mp (hx s hI)

end Maintains

/-! ### Inference of frames and invariants

What an action keeps follows from what its parts keep.  Instance search goes
through the constructs, down to the actions for which an instance is given. -/

class Framed {τ : Type} (part : σ → τ) (x : Action σ α) : Prop where
  keeps : Keeps part x

class Maintaining (I : σ → Prop) (x : Action σ α) : Prop where
  maintains : Maintains I x

section Inference

variable {τ : Type} {part : σ → τ} {I : σ → Prop} {x y : Action σ α} {f : α → Action σ β}
  {c : Prop} {_ : Decidable c}

instance (a : α) : Framed part (pure a : Action σ α) := ⟨keeps_pure a⟩

instance (e : String) : Framed part (throw e : Action σ α) := ⟨keeps_throw e⟩

instance (r : Except String α) : Framed part (lift r : Action σ α) := ⟨keeps_lift r⟩

instance [hx : Framed part x] [hf : ∀ a, Framed part (f a)] : Framed part (x >>= f) :=
  ⟨hx.keeps.bind fun a => (hf a).keeps⟩

instance [hx : Framed part x] [hy : Framed part y] : Framed part (if c then x else y) :=
  ⟨hx.keeps.ite hy.keeps⟩

instance {g : β → Action σ Unit} {bs : List β} [hg : ∀ b, Framed part (g b)] :
    Framed part (forEach bs g) :=
  ⟨keeps_forEach (fun b => (hg b).keeps) bs⟩

instance [hx : Maintaining I x] [hf : ∀ a, Maintaining I (f a)] : Maintaining I (x >>= f) :=
  ⟨hx.maintains.bind fun a => (hf a).maintains⟩

instance [hx : Maintaining I x] [hy : Maintaining I y] : Maintaining I (if c then x else y) :=
  ⟨hx.maintains.ite hy.maintains⟩

end Inference

/-! ### Exceptions -/

/-- No run of the action throws `e`. -/
def Avoids (e : String) (x : Action σ α) : Prop := ∀ s, (x s).2 ≠ .error e

section Avoids

variable {e : String}

theorem avoids_pure (a : α) : Avoids e (pure a : Action σ α) := fun _ h => nomatch h

theorem avoids_get : Avoids e (get : Action σ σ) := fun _ h => nomatch h

theorem avoids_modify (f : σ → σ) : Avoids e (modify f) := fun _ h => nomatch h

theorem avoids_throw {e' : String} (h : e' ≠ e) : Avoids e (throw e' : Action σ α) :=
  fun _ hthrow => h (Except.error.inj hthrow)

variable {x : Action σ α}

theorem Avoids.bind (hx : Avoids e x) (hf : ∀ a, Avoids e (f a)) : Avoids e (x >>= f) := by
  intro s
  have hs := hx s
  obtain ⟨s', a, hrun⟩ | ⟨s', e', hrun⟩ := run_cases x s
  · rw [bind_run_ok hrun]
    exact hf a s'
  · rw [hrun] at hs
    rw [bind_run_error hrun]
    exact fun h => hs (congrArg Except.error (Except.error.inj h))

theorem Avoids.ite {c : Prop} [Decidable c] (hx : Avoids e x) (hy : Avoids e y) :
    Avoids e (if c then x else y) := by
  split_ifs
  · exact hx
  · exact hy

end Avoids

end Action

end Sola.Lib
