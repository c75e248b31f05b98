import Mathlib.Data.List.Destutter
import Mathlib.Order.Lattice

/-!
One element for each key.

`uniqueBy` keeps the first element of every run of equal keys.  A sorted list
has one run for each of its keys, so that every key is kept exactly once.
-/

namespace Sola.Lib

open List

variable {α κ : Type} [LinearOrder κ] (key : α → κ)

/-- Drop every element with the key of the element that is kept before it. -/
def uniqueBy (l : List α) : List α := l.destutter fun a b => key a ≠ key b

variable {key} {l : List α}

theorem mem_of_mem_uniqueBy {a : α} (h : a ∈ uniqueBy key l) : a ∈ l :=
  (destutter_sublist _ l).subset h

/-- An element that is dropped has the key of one that is kept. -/
theorem exists_mem_destutter' (a : α) (l : List α) {b : α} (hb : b ∈ a :: l) :
    ∃ c ∈ l.destutter' (fun a b => key a ≠ key b) a, key c = key b := by
  induction l generalizing a with
  | nil => exact ⟨b, hb, rfl⟩
  | cons a' l ih =>
    by_cases hne : key a ≠ key a'
    · rw [destutter'_cons, if_pos hne]
      rcases mem_cons.mp hb with rfl | hb
      · exact ⟨b, by simp, rfl⟩
      · obtain ⟨c, hc, hkey⟩ := ih a' hb
        exact ⟨c, mem_cons_of_mem _ hc, hkey⟩
    · rw [destutter'_cons, if_neg hne]
      rcases mem_cons.mp hb with rfl | hb
      · exact ih b (by simp)
      · rcases mem_cons.mp hb with rfl | hb
        · exact ⟨a, mem_destutter' l _ a, not_not.mp hne⟩
        · exact ih a (mem_cons_of_mem _ hb)

theorem exists_mem_uniqueBy {a : α} (h : a ∈ l) : ∃ b ∈ uniqueBy key l, key b = key a := by
  cases l with
  | nil => simp at h
  | cons a' l => exact exists_mem_destutter' a' l h

/-- In a sorted list, neighbors with different keys have increasing ones. -/
theorem nodup_uniqueBy (hsorted : l.Pairwise fun a b => key a ≤ key b) :
    ((uniqueBy key l).map key).Nodup := by
  have hle : (uniqueBy key l).Pairwise fun a b => key a ≤ key b :=
    hsorted.sublist (destutter_sublist _ l)
  have hchain : (uniqueBy key l).IsChain fun a b => key a ≠ key b :=
    isChain_destutter _ l
  have hlt : ((uniqueBy key l).map key).IsChain (· < ·) := by
    rw [isChain_map, isChain_iff_getElem]
    intro i hi
    exact lt_of_le_of_ne (isChain_iff_getElem.mp hle.isChain i hi)
      (isChain_iff_getElem.mp hchain i hi)
  exact hlt.pairwise.imp fun h => h.ne

end Sola.Lib
