import Mathlib.Data.List.Basic

/-!
Computations that return or throw: sequences and loops over lists.
-/

namespace Sola.Lib

open List

variable {ε α β : Type} {f : α → Except ε β} {l : List α} {ys : List β} {x : Except ε α}

theorem bind_eq_ok {b : β} : (x >>= f) = .ok b ↔ ∃ a, x = .ok a ∧ f a = .ok b := by
  cases x with
  | error e => simp [bind, Except.bind]
  | ok a => simp [bind, Except.bind]

theorem bind₂_eq_ok {γ : Type} {y : Except ε β} {g : α → β → γ} {c : γ} :
    (x >>= fun a => y >>= fun b => pure (g a b)) = .ok c ↔
      ∃ a b, x = .ok a ∧ y = .ok b ∧ g a b = c := by
  cases x <;> cases y <;> simp [bind, Except.bind, pure, Except.pure]

/-- The computation returns a value in `Q` or throws in `E`. -/
def Yields (Q : α → Prop) (E : ε → Prop) : Except ε α → Prop
  | .ok a => Q a
  | .error e => E e

theorem yields_bind {R : β → Prop} {E : ε → Prop} :
    Yields R E (x >>= f) ↔ Yields (fun a => Yields R E (f a)) E x := by
  cases x <;> rfl

theorem Yields.imp {Q Q' : α → Prop} {E : ε → Prop} (h : Yields Q E x) (hQ : ∀ a, Q a → Q' a) :
    Yields Q' E x := by
  cases x with
  | error e => exact h
  | ok a => exact hQ a h

theorem exists_of_mapM_ok (h : l.mapM f = .ok ys) {y : β} (hy : y ∈ ys) : ∃ x ∈ l, f x = .ok y := by
  induction l generalizing ys with
  | nil =>
    cases h
    simp at hy
  | cons x xs ih =>
    rw [mapM_cons, bind₂_eq_ok] at h
    obtain ⟨z, zs, hz, hzs, rfl⟩ := h
    rcases mem_cons.mp hy with rfl | hy
    · exact ⟨x, by simp, hz⟩
    · obtain ⟨x', hx', hf⟩ := ih hzs hy
      exact ⟨x', by simp [hx'], hf⟩

theorem length_of_mapM_ok (h : l.mapM f = .ok ys) : ys.length = l.length := by
  induction l generalizing ys with
  | nil =>
    cases h
    rfl
  | cons x xs ih =>
    rw [mapM_cons, bind₂_eq_ok] at h
    obtain ⟨z, zs, -, hzs, rfl⟩ := h
    rw [length_cons, length_cons, ih hzs]

/-- A loop that succeeds in every round collects the results. -/
theorem mapM_ok {g : α → β} (h : ∀ a ∈ l, f a = .ok (g a)) : l.mapM f = .ok (l.map g) := by
  induction l with
  | nil => rfl
  | cons a l ih =>
    rw [mapM_cons, h a (by simp), ih fun b hb => h b (by simp [hb])]
    rfl

/-- A loop that succeeds in every round, where `g` tells for each result which
round it is from. -/
theorem exists_mapM_ok {g : β → α} (h : ∀ a ∈ l, ∃ b, f a = .ok b ∧ g b = a) :
    ∃ bs, l.mapM f = .ok bs ∧ bs.map g = l := by
  induction l with
  | nil => exact ⟨[], rfl, rfl⟩
  | cons a l ih =>
    obtain ⟨b, hb, hg⟩ := h a (by simp)
    obtain ⟨bs, hbs, hmap⟩ := ih fun a' ha' => h a' (by simp [ha'])
    refine ⟨b :: bs, ?_, by rw [map_cons, hg, hmap]⟩
    rw [mapM_cons, hb, hbs]
    rfl

/-- A loop succeeds if every round does. -/
theorem mapM_ok_iff : (∃ ys, l.mapM f = .ok ys) ↔ ∀ a ∈ l, ∃ y, f a = .ok y := by
  induction l with
  | nil => exact ⟨fun _ => by simp, fun _ => ⟨[], rfl⟩⟩
  | cons a l ih =>
    simp only [mapM_cons, bind₂_eq_ok]
    constructor
    · rintro ⟨ys, y, zs, hy, hzs, -⟩ b hb
      rcases mem_cons.mp hb with rfl | hb
      · exact ⟨y, hy⟩
      · exact ih.mp ⟨zs, hzs⟩ b hb
    · intro h
      obtain ⟨y, hy⟩ := h a (by simp)
      obtain ⟨zs, hzs⟩ := ih.mpr fun b hb => h b (by simp [hb])
      exact ⟨y :: zs, y, zs, hy, hzs, rfl⟩

/-- A loop whose rounds add an element or none, from its first round on. -/
theorem filterMapM_cons_eq_ok {f : α → Except ε (Option β)} {a : α} :
    (a :: l).filterMapM f = .ok ys ↔
      ∃ y zs, f a = .ok y ∧ l.filterMapM f = .ok zs ∧ ys = y.toList ++ zs := by
  rw [filterMapM_cons, bind_eq_ok]
  constructor
  · rintro ⟨y, hy, h⟩
    cases y with
    | none => exact ⟨none, ys, hy, h, rfl⟩
    | some b =>
      obtain ⟨zs, hzs, h⟩ := bind_eq_ok.mp h
      cases h
      exact ⟨some b, zs, hy, hzs, rfl⟩
  · rintro ⟨y, zs, hy, hzs, rfl⟩
    refine ⟨y, hy, ?_⟩
    cases y with
    | none => exact hzs
    | some b => exact bind_eq_ok.mpr ⟨zs, hzs, rfl⟩

theorem filterMapM_ok_iff {f : α → Except ε (Option β)} :
    (∃ ys, l.filterMapM f = .ok ys) ↔ ∀ a ∈ l, ∃ y, f a = .ok y := by
  induction l with
  | nil => exact ⟨fun _ => by simp, fun _ => ⟨[], rfl⟩⟩
  | cons a l ih =>
    rw [forall_mem_cons, ← ih]
    constructor
    · rintro ⟨ys, h⟩
      obtain ⟨y, zs, hy, hzs, -⟩ := filterMapM_cons_eq_ok.mp h
      exact ⟨⟨y, hy⟩, zs, hzs⟩
    · rintro ⟨⟨y, hy⟩, zs, hzs⟩
      exact ⟨_, filterMapM_cons_eq_ok.mpr ⟨y, zs, hy, hzs, rfl⟩⟩

theorem mem_of_filterMapM_ok {f : α → Except ε (Option β)} (h : l.filterMapM f = .ok ys) {y : β} :
    y ∈ ys ↔ ∃ a ∈ l, f a = .ok (some y) := by
  induction l generalizing ys with
  | nil =>
    cases h
    simp
  | cons a l ih =>
    obtain ⟨x, zs, hx, hzs, rfl⟩ := filterMapM_cons_eq_ok.mp h
    simp [ih hzs, hx]

end Sola.Lib
