import Mathlib.Algebra.BigOperators.Group.Multiset.Basic

/-!
Dividing an interval among the points of a chain.

The elements of a multiset stand in an order by their keys.  Every point of a
chain is given the elements from itself up to the next point, and the last one
those up to the end of the interval.  The order is any relation, so that a
chain may run in either direction.
-/

namespace Sola.Lib.Shares

open Multiset

variable {α β : Type} (r : α → α → Prop) [DecidableRel r] (key : β → α)

/-- The elements from `a` on and before `b`. -/
def part (E : Multiset β) (a b : α) : Multiset β :=
  E.filter fun x => ¬ r (key x) a ∧ r (key x) b

/-- The elements strictly between `a` and `b`. -/
def inside (E : Multiset β) (a b : α) : Multiset β :=
  E.filter fun x => r a (key x) ∧ r (key x) b

/-- Every point with the end of its share. -/
def shares {α : Type} (stop : α) : List α → List (α × α)
  | [] => []
  | [a] => [(a, stop)]
  | a :: b :: rest => (a, b) :: shares stop (b :: rest)

variable {r key} {E : Multiset β} {a b c stop t : α}

theorem part_add_part [IsTrans α r] (hab : r a b) (hbc : r b c) :
    part r key E a b + part r key E b c = part r key E a c := by
  unfold part
  rw [← filter_add_not (fun x => r (key x) b)
    (E.filter fun x => ¬ r (key x) a ∧ r (key x) c), filter_filter,
    filter_filter]
  congr 1
  · refine filter_congr fun x _ => ?_
    constructor
    · exact fun h => ⟨h.2, h.1, IsTrans.trans _ _ _ h.2 hbc⟩
    · exact fun h => ⟨h.2.1, h.1⟩
  · refine filter_congr fun x _ => ?_
    constructor
    · exact fun h => ⟨h.1, fun ha => h.1 (IsTrans.trans _ _ _ ha hab), h.2⟩
    · exact fun h => ⟨h.1, h.2.2⟩

/-- The shares of a chain make up the whole from its first point on. -/
theorem sum_shares [IsTrans α r] {rest : List α} (hchain : (a :: rest).Pairwise r)
    (hstop : ∀ x ∈ a :: rest, r x stop) :
    ((shares stop (a :: rest)).map fun s => part r key E s.1 s.2).sum =
      part r key E a stop := by
  induction rest generalizing a with
  | nil => simp [shares]
  | cons b rest ih =>
    obtain ⟨hfirst, hrest⟩ := List.pairwise_cons.mp hchain
    rw [shares, List.map_cons, List.sum_cons,
      ih hrest fun x hx => hstop x (List.mem_cons_of_mem a hx)]
    exact part_add_part (hfirst b (by simp)) (hstop b (by simp))

/-- The shares of a chain make up an interval if there is a point of the chain
at or before every element of the interval. -/
theorem sum_shares_eq_inside [IsStrictTotalOrder α r] {chain : List α}
    (hchain : chain.Pairwise r) (hinside : ∀ y ∈ chain, r t y ∧ r y stop)
    (hreach : ∀ x ∈ E, r t (key x) → r (key x) stop → ∃ y ∈ chain, ¬ r (key x) y) :
    ((shares stop chain).map fun s => part r key E s.1 s.2).sum =
      inside r key E t stop := by
  cases chain with
  | nil =>
    have hnone : inside r key E t stop = 0 := by
      refine filter_eq_nil.mpr fun x hx h => ?_
      obtain ⟨y, hy, -⟩ := hreach x hx h.1 h.2
      cases hy
    rw [hnone]
    rfl
  | cons a rest =>
    rw [sum_shares hchain fun x hx => (hinside x hx).2]
    refine filter_congr fun x hx => ⟨fun h => ⟨?_, h.2⟩, fun h => ⟨?_, h.2⟩⟩
    · rcases trichotomous_of r t (key x) with htx | htx | hxt
      · exact htx
      · exact absurd (htx ▸ (hinside a (by simp)).1) h.1
      · exact absurd (IsTrans.trans _ _ _ hxt (hinside a (by simp)).1) h.1
    · intro hxa
      obtain ⟨y, hy, hxy⟩ := hreach x hx h.1 h.2
      rcases List.mem_cons.mp hy with rfl | hy
      · exact hxy hxa
      · exact hxy (IsTrans.trans _ _ _ hxa ((List.pairwise_cons.mp hchain).1 y hy))

/-- The share of an element is the element itself and what is behind it. -/
theorem part_eq_cons_inside [IsStrictTotalOrder α r] (hnodup : E.Nodup)
    (hkey : ∀ x ∈ E, ∀ y ∈ E, key x = key y → x = y) {x : β} (hx : x ∈ E)
    (hstop : r (key x) stop) :
    part r key E (key x) stop = x ::ₘ inside r key E (key x) stop := by
  have hirrefl : ¬ r (key x) (key x) := irrefl_of r (key x)
  have hpart : (part r key E (key x) stop).Nodup := hnodup.filter _
  have hrest : (x ::ₘ inside r key E (key x) stop).Nodup :=
    nodup_cons.mpr
      ⟨fun h => hirrefl (mem_filter.mp h).2.1, hnodup.filter _⟩
  refine (Nodup.ext hpart hrest).mpr fun y => ?_
  simp only [part, inside, mem_filter, mem_cons]
  constructor
  · rintro ⟨hy, hyx, hys⟩
    rcases trichotomous_of r (key x) (key y) with h | h | h
    · exact Or.inr ⟨hy, h, hys⟩
    · exact Or.inl (hkey y hy x hx h.symm)
    · exact absurd h hyx
  · rintro (rfl | ⟨hy, hxy, hys⟩)
    · exact ⟨hx, hirrefl, hstop⟩
    · exact ⟨hy, fun h => hirrefl (IsTrans.trans _ _ _ hxy h), hys⟩

end Sola.Lib.Shares
