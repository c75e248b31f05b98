import Mathlib.Data.List.TakeWhile

/-!
Parsing expressions: recognisers of a text with ordered choice.

A parsing expression either consumes a first part of the text and returns a
value, or fails, or is stopped by an exception of a semantic action.  The
second alternative of a choice is tried only if the first one fails.

A recursive rule is a function `F` from parsing expressions to parsing
expressions that uses its argument only after something was consumed.
`recursive F` is then its fixed point.
-/

namespace Sola.Lib

open List

/-- How a parsing expression ends on a text. -/
inductive Outcome (α : Type)
  | ok (a : α) (rest : List Char)
  | fail
  | error (message : String)
deriving DecidableEq

/-- A value or an exception, with the rest of the text. -/
def Outcome.ofExcept {α : Type} (e : Except String α) (r : List Char) : Outcome α :=
  match e with
  | .ok a => .ok a r
  | .error e => .error e

/-- A parsing expression with values of `α`. -/
def Peg (α : Type) : Type := List Char → Outcome α

namespace Peg

variable {α β : Type}

/-! ### Operators -/

instance : Monad Peg where
  pure a := fun l => .ok a l
  bind x f := fun l =>
    match x l with
    | .ok a r => f a r
    | .fail => .fail
    | .error e => .error e

/-- The exception of an action. -/
def throw (e : String) : Peg α := fun _ => .error e

/-- The value of an action that may throw. -/
def lift : Except String α → Peg α
  | .ok a => pure a
  | .error e => throw e

/-- Ordered choice. -/
def choice (x y : Peg α) : Peg α := fun l =>
  match x l with
  | .fail => y l
  | r => r

/-- What is left of the text after the given letters. -/
def strip : List Char → List Char → Option (List Char)
  | [], l => some l
  | _ :: _, [] => none
  | c :: s, d :: l => if c = d then strip s l else none

/-- A literal and the blanks behind it. -/
def literal (blank : Char → Bool) (s : List Char) : Peg Unit := fun l =>
  match strip s l with
  | some r => .ok () (r.dropWhile blank)
  | none => .fail

/-- The longest text of letters of one class, and the blanks behind it. -/
def letters (blank p : Char → Bool) : Peg (List Char) := fun l =>
  .ok (l.takeWhile p) ((l.dropWhile p).dropWhile blank)

/-- As `letters`, with a first letter of another class. -/
def word (blank first p : Char → Bool) : Peg (List Char) := fun l =>
  match l with
  | [] => .fail
  | c :: l =>
    if first c then .ok (c :: l.takeWhile p) ((l.dropWhile p).dropWhile blank) else .fail

@[simp] theorem pure_run (a : α) (l : List Char) : (pure a : Peg α) l = .ok a l := rfl

variable {x y : Peg α} {f : α → Peg β} {l r : List Char} {a : α} (e : Except String α)

theorem bind_run_ok (h : x l = .ok a r) : (x >>= f) l = f a r := by
  show (match x l with
    | .ok a r => f a r
    | .fail => .fail
    | .error e => .error e) = f a r
  rw [h]

theorem bind_run_fail (h : x l = .fail) : (x >>= f) l = .fail := by
  show (match x l with
    | .ok a r => f a r
    | .fail => .fail
    | .error e => .error e) = .fail
  rw [h]

theorem bind_run_error {e : String} (h : x l = .error e) : (x >>= f) l = .error e := by
  show (match x l with
    | .ok a r => f a r
    | .fail => .fail
    | .error e => .error e) = .error e
  rw [h]

instance : LawfulMonad Peg := LawfulMonad.mk' Peg
  (by
    intro α x
    funext l
    show (match x l with
      | .ok a r => .ok a r
      | .fail => .fail
      | .error e => .error e) = x l
    cases x l <;> rfl)
  (fun _ _ => rfl)
  (by
    intro α β γ x f g
    funext l
    show (match (x >>= f) l with
      | .ok b r => g b r
      | .fail => .fail
      | .error e => .error e) = (x >>= fun a => f a >>= g) l
    cases h : x l with
    | ok a r =>
      rw [bind_run_ok h, bind_run_ok h]
      rfl
    | fail => rw [bind_run_fail h, bind_run_fail h]
    | error e => rw [bind_run_error h, bind_run_error h])

theorem bind_eq_ok {b : β} : (x >>= f) l = .ok b r ↔ ∃ a r', x l = .ok a r' ∧ f a r' = .ok b r := by
  show (match x l with
    | .ok a r => f a r
    | .fail => .fail
    | .error e => .error e) = .ok b r ↔ _
  cases x l with
  | ok a r' =>
    refine ⟨fun h => ⟨a, r', rfl, h⟩, ?_⟩
    rintro ⟨a', r'', hx, h⟩
    cases hx
    exact h
  | fail => simp
  | error e => simp

/-- An action does not fail. -/
theorem eq_fail_of_bind (h : (x >>= f) l = .fail) (hf : ∀ a r, f a r ≠ .fail) : x l = .fail := by
  cases hx : x l with
  | ok a r => exact absurd ((bind_run_ok hx).symm.trans h) (hf a r)
  | fail => rfl
  | error e => exact absurd ((bind_run_error hx).symm.trans h) (by simp)

theorem lift_run (l : List Char) : lift e l = .ofExcept e l := by
  cases e <;> rfl

theorem lift_ne_fail (l : List Char) : lift e l ≠ .fail := by
  cases e <;> simp [lift, throw]

theorem choice_of_ok (h : x l = .ok a r) : choice x y l = .ok a r := by
  rw [choice, h]

theorem choice_of_fail (h : x l = .fail) : choice x y l = y l := by
  rw [choice, h]

theorem choice_of_error {e : String} (h : x l = .error e) : choice x y l = .error e := by
  rw [choice, h]

theorem choice_of_ofExcept {e : Except String α} (h : x l = .ofExcept e r) :
    choice x y l = .ofExcept e r := by
  cases e with
  | ok a => exact choice_of_ok h
  | error e => exact choice_of_error h

theorem choice_eq_ok : choice x y l = .ok a r ↔ x l = .ok a r ∨ x l = .fail ∧ y l = .ok a r := by
  rw [choice]
  cases x l <;> simp

/-! ### Literals and words -/

section Words

variable {blank first p : Char → Bool} {s l r : List Char} {c d : Char}

theorem strip_append (s l : List Char) : strip s (s ++ l) = some l := by
  induction s with
  | nil => rfl
  | cons c s ih => rw [cons_append, strip, if_pos rfl, ih]

theorem length_of_strip (h : strip s l = some r) : r.length + s.length = l.length := by
  induction s generalizing l with
  | nil =>
    rw [strip] at h
    cases h
    rfl
  | cons c s ih =>
    cases l with
    | nil => simp [strip] at h
    | cons d l =>
      rw [strip] at h
      split_ifs at h with hcd
      rw [length_cons, length_cons, ← ih h]
      omega

theorem literal_append (s l : List Char) :
    literal blank s (s ++ l) = .ok () (l.dropWhile blank) := by
  rw [literal, strip_append]

/-- Another first letter. -/
theorem literal_of_ne (h : c ≠ d) : literal blank (c :: s) (d :: l) = .fail := by
  rw [literal, strip, if_neg h]

theorem literal_eq_ok {u : Unit} (h : literal blank s l = .ok u r) :
    r.length + s.length ≤ l.length := by
  rw [literal] at h
  cases hs : strip s l with
  | none => rw [hs] at h; cases h
  | some r' =>
    rw [hs] at h
    cases h
    rw [← length_of_strip hs]
    exact Nat.add_le_add_right (length_dropWhile_le _ _) _

theorem exists_of_literal_ok {u : Unit} (h : literal blank (c :: s) l = .ok u r) :
    ∃ l', l = c :: l' := by
  cases l with
  | nil => cases h
  | cons d l =>
    by_cases hcd : c = d
    · exact ⟨l, by rw [hcd]⟩
    · rw [literal_of_ne hcd] at h
      cases h

variable {a : List Char}

theorem exists_of_word_ok (h : word blank first p l = .ok a r) :
    ∃ c l', l = c :: l' ∧ first c = true := by
  cases l with
  | nil => cases h
  | cons c l =>
    rw [word] at h
    split_ifs at h with hc
    exact ⟨c, l, rfl, hc⟩

theorem letters_append (blank : Char → Bool) (hs : ∀ c ∈ s, p c = true)
    (hl : ∀ c ∈ l.head?, p c = false) :
    letters blank p (s ++ l) = .ok s (l.dropWhile blank) := by
  have htake : l.takeWhile p = [] := by
    cases l with
    | nil => rfl
    | cons c l => exact takeWhile_cons_of_neg (by simp [hl c rfl])
  have hdrop : l.dropWhile p = l := by
    cases l with
    | nil => rfl
    | cons c l => exact dropWhile_cons_of_neg (by simp [hl c rfl])
  rw [letters, takeWhile_append_of_pos hs, dropWhile_append_of_pos hs, htake, hdrop,
    append_nil]

theorem letters_eq_ok (h : letters blank p l = .ok a r) :
    (∀ c ∈ a, p c = true) ∧ r.length ≤ l.length := by
  cases h
  exact ⟨fun c hc => mem_takeWhile_imp hc,
    (length_dropWhile_le _ _).trans (length_dropWhile_le _ _)⟩

theorem word_append (hc : first c = true) (hs : ∀ c ∈ s, p c = true)
    (hl : ∀ c ∈ l.head?, p c = false) :
    word blank first p (c :: s ++ l) = .ok (c :: s) (l.dropWhile blank) := by
  have h := letters_append blank hs hl
  rw [letters] at h
  rw [cons_append, word, if_pos hc]
  simp only [Outcome.ok.injEq] at h ⊢
  rw [h.1, h.2]
  exact ⟨rfl, rfl⟩

theorem word_eq_ok (h : word blank first p l = .ok a r) :
    (∃ c s, a = c :: s ∧ first c = true ∧ ∀ c ∈ s, p c = true) ∧ r.length < l.length := by
  cases l with
  | nil => cases h
  | cons c l =>
    rw [word] at h
    split_ifs at h with hc
    cases h
    refine ⟨⟨c, _, rfl, hc, fun _ hd => mem_takeWhile_imp hd⟩, ?_⟩
    exact Nat.lt_succ_of_le
      ((length_dropWhile_le _ _).trans (length_dropWhile_le _ _))

end Words

/-! ### Recursive rules -/

/-- `x` and `y` agree on the texts with fewer than `n` letters. -/
def AgreeBelow (n : ℕ) (x y : Peg α) : Prop := ∀ l : List Char, l.length < n → x l = y l

/-- The text does not get longer. -/
def Shrinks (x : Peg α) : Prop := ∀ l a r, x l = .ok a r → r.length ≤ l.length

/-- What a rule has to satisfy: it keeps `Shrinks`, and on a text it depends
only on how its argument works on shorter texts. -/
structure IsRule (F : Peg α → Peg α) : Prop where
  shrinks : ∀ x, Shrinks x → Shrinks (F x)
  depends : ∀ x y n, Shrinks x → AgreeBelow n x y → AgreeBelow (n + 1) (F x) (F y)

/-- The rule applied `n` times to the expression that always fails. -/
def unroll (F : Peg α → Peg α) : ℕ → Peg α
  | 0 => fun _ => .fail
  | n + 1 => F (unroll F n)

/-- The fixed point of a rule: the text bounds the depth of the recursion. -/
def recursive (F : Peg α → Peg α) : Peg α := fun l => unroll F (l.length + 1) l

section Recursive

variable {F : Peg α → Peg α} (hF : IsRule F)
include hF

theorem unroll_shrinks (n : ℕ) : Shrinks (unroll F n) := by
  induction n with
  | zero =>
    intro l a r h
    cases h
  | succ n ih => exact hF.shrinks _ ih

theorem unroll_agree (n k : ℕ) : AgreeBelow n (unroll F n) (unroll F (n + k)) := by
  induction n with
  | zero => exact fun _ h => absurd h (Nat.not_lt_zero _)
  | succ n ih =>
    rw [Nat.succ_add]
    exact hF.depends _ _ n (unroll_shrinks hF n) ih

/-- Enough repetitions of the rule give the fixed point. -/
theorem unroll_agree_recursive (n : ℕ) : AgreeBelow n (unroll F n) (recursive F) := by
  intro l hl
  obtain ⟨k, rfl⟩ := Nat.exists_eq_add_of_le hl
  exact (unroll_agree hF (l.length + 1) k l (Nat.lt_succ_self _)).symm

/-- The equation of the rule. -/
theorem recursive_eq (l : List Char) : recursive F l = F (recursive F) l :=
  hF.depends _ _ l.length (unroll_shrinks hF _) (unroll_agree_recursive hF _) l
    (Nat.lt_succ_self _)

omit hF in
/-- A property of all values of the rule. -/
theorem value_of_recursive {P : α → Prop}
    (h : ∀ x : Peg α, (∀ l a r, x l = .ok a r → P a) → ∀ l a r, F x l = .ok a r → P a)
    {l r : List Char} {a : α} (ha : recursive F l = .ok a r) : P a := by
  have hunroll : ∀ n l a r, unroll F n l = .ok a r → P a := by
    intro n
    induction n with
    | zero =>
      intro l a r h
      cases h
    | succ n ih => exact h _ ih
  exact hunroll _ l a r ha

end Recursive

/-! ### Building rules -/

section Rules

variable {x y : Peg α} {f g : α → Peg β} {n : ℕ}

theorem Shrinks.bind (hx : Shrinks x) (hf : ∀ a, Shrinks (f a)) : Shrinks (x >>= f) := by
  intro l b r h
  obtain ⟨a, r', hx', hf'⟩ := bind_eq_ok.mp h
  exact (hf a r' b r hf').trans (hx l a r' hx')

theorem Shrinks.choice (hx : Shrinks x) (hy : Shrinks y) : Shrinks (choice x y) := by
  intro l a r h
  rcases choice_eq_ok.mp h with h | ⟨-, h⟩
  · exact hx l a r h
  · exact hy l a r h

theorem Shrinks.pure (a : α) : Shrinks (pure a : Peg α) := by
  intro l b r h
  cases h
  exact le_rfl

theorem Shrinks.throw (e : String) : Shrinks (throw e : Peg α) := by
  intro l b r h
  cases h

theorem Shrinks.lift : Shrinks (lift e) := by
  cases e with
  | ok a => exact .pure a
  | error e => exact .throw e

theorem Shrinks.literal (blank : Char → Bool) (s : List Char) : Shrinks (literal blank s) :=
  fun _ _ _ h => (Nat.le_add_right _ _).trans (literal_eq_ok h)

theorem Shrinks.letters (blank p : Char → Bool) : Shrinks (letters blank p) :=
  fun _ _ _ h => (letters_eq_ok h).2

theorem Shrinks.word (blank first p : Char → Bool) : Shrinks (word blank first p) :=
  fun _ _ _ h => (word_eq_ok h).2.le

theorem AgreeBelow.refl (n : ℕ) (x : Peg α) : AgreeBelow n x x := fun _ _ => rfl

theorem AgreeBelow.bind (hx : Shrinks x) (hxy : AgreeBelow n x y)
    (hfg : ∀ a, AgreeBelow n (f a) (g a)) : AgreeBelow n (x >>= f) (y >>= g) := by
  intro l hl
  show (match x l with
    | .ok a r => f a r
    | .fail => .fail
    | .error e => .error e) = match y l with
    | .ok a r => g a r
    | .fail => .fail
    | .error e => .error e
  rw [← hxy l hl]
  cases h : x l with
  | ok a r => exact hfg a r ((hx l a r h).trans_lt hl)
  | fail => rfl
  | error e => rfl

/-- After a literal the text is shorter. -/
theorem AgreeBelow.literal_bind {blank : Char → Bool} {c : Char} {s : List Char}
    {f g : Unit → Peg β} (hfg : AgreeBelow n (f ()) (g ())) :
    AgreeBelow (n + 1) (literal blank (c :: s) >>= f) (literal blank (c :: s) >>= g) := by
  intro l hl
  cases h : literal blank (c :: s) l with
  | ok a r =>
    rw [bind_run_ok h, bind_run_ok h]
    have hlt := literal_eq_ok h
    rw [length_cons] at hlt
    exact hfg r (by omega)
  | fail => rw [bind_run_fail h, bind_run_fail h]
  | error e =>
    rw [literal] at h
    split at h <;> cases h

theorem AgreeBelow.choice {x' y' : Peg α} (hx : AgreeBelow n x x') (hy : AgreeBelow n y y') :
    AgreeBelow n (choice x y) (choice x' y') := by
  intro l hl
  rw [Peg.choice, Peg.choice, hx l hl, hy l hl]

end Rules

end Peg

end Sola.Lib
