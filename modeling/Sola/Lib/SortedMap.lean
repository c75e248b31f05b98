import Mathlib.Data.List.TakeWhile
import Mathlib.Order.Lattice
import Mathlib.Tactic.Tauto

/-!
Maps that are ordered by their keys.

A map is a list of entries with increasing keys.  `upperBound` splits it the
way an iterator to the first greater key does: the entries before the iterator
and the entries from it on.  The two entries next to the iterator are the
nearest ones on both sides, so a bound on all keys can be tested there.
-/

namespace Sola.Lib

open List

/-- A finite map with ordered keys. -/
structure SortedMap (κ α : Type) [LT κ] where
  entries : List (κ × α)
  sorted : entries.Pairwise fun e e' => e.1 < e'.1

namespace SortedMap

variable {κ α : Type} [LinearOrder κ]

/-- The map without entries. -/
def empty : SortedMap κ α := ⟨[], .nil⟩

def keys (m : SortedMap κ α) : List κ := m.entries.map (·.1)

def isEmpty (m : SortedMap κ α) : Bool := m.entries.isEmpty

/-- Whether there is an entry with this key. -/
def contains (m : SortedMap κ α) (k : κ) : Bool := m.entries.any fun e => e.1 = k

/-- The entries up to the key and the entries beyond it. -/
def upperBound (m : SortedMap κ α) (k : κ) : List (κ × α) × List (κ × α) :=
  (m.entries.takeWhile fun e => e.1 ≤ k, m.entries.dropWhile fun e => e.1 ≤ k)

/-- Put an entry at its place in front of the first greater key, or in the
place of the entry with the same key. -/
def insertEntry (k : κ) (a : α) : List (κ × α) → List (κ × α)
  | [] => [(k, a)]
  | e :: es =>
    if k < e.1 then (k, a) :: e :: es
    else if k = e.1 then (k, a) :: es
    else e :: insertEntry k a es

variable {k j : κ} {a : α} {es : List (κ × α)} {m : SortedMap κ α} {e : κ × α}

theorem mem_keys_insertEntry : j ∈ (insertEntry k a es).map (·.1) ↔ j = k ∨ j ∈ es.map (·.1) := by
  induction es with
  | nil => simp [insertEntry]
  | cons e es ih =>
    rw [insertEntry]
    split_ifs with hlt heq
    · simp
    · simp [← heq]
    · simp only [map_cons, mem_cons, ih]
      tauto

theorem keys_insertEntry_perm (h : k ∉ es.map (·.1)) :
    ((insertEntry k a es).map (·.1)).Perm (k :: es.map (·.1)) := by
  induction es with
  | nil => exact List.Perm.refl _
  | cons e es ih =>
    rw [map_cons, mem_cons, not_or] at h
    rw [insertEntry]
    split_ifs with hlt heq
    · exact List.Perm.refl _
    · exact absurd heq h.1
    · exact ((ih h.2).cons e.1).trans (Perm.swap k e.1 _)

theorem insertEntry_sorted (h : es.Pairwise fun e e' => e.1 < e'.1) :
    (insertEntry k a es).Pairwise fun e e' => e.1 < e'.1 := by
  induction es with
  | nil => exact pairwise_singleton _ _
  | cons e es ih =>
    obtain ⟨hhead, htail⟩ := pairwise_cons.mp h
    rw [insertEntry]
    split_ifs with hlt heq
    · refine pairwise_cons.mpr ⟨fun x hx => ?_, h⟩
      rcases mem_cons.mp hx with rfl | hx
      · exact hlt
      · exact lt_trans hlt (hhead x hx)
    · refine pairwise_cons.mpr ⟨fun x hx => ?_, htail⟩
      rw [heq]
      exact hhead x hx
    · refine pairwise_cons.mpr ⟨fun x hx => ?_, ih htail⟩
      have hkey := mem_keys_insertEntry.mp (mem_map_of_mem (f := (·.1)) hx)
      rcases hkey with hk | hk
      · rw [hk]
        exact lt_of_le_of_ne (not_lt.mp hlt) (Ne.symm heq)
      · obtain ⟨y, hy, hyx⟩ := mem_map.mp hk
        rw [← hyx]
        exact hhead y hy

/-- `m[k] = a`. -/
def insert (m : SortedMap κ α) (k : κ) (a : α) : SortedMap κ α :=
  ⟨insertEntry k a m.entries, insertEntry_sorted m.sorted⟩

/-! ### Keys -/

@[simp] theorem keys_empty : (empty : SortedMap κ α).keys = [] := rfl

@[simp] theorem mem_keys_insert :
    j ∈ (m.insert k a).keys ↔ j = k ∨ j ∈ m.keys := mem_keys_insertEntry

theorem keys_insert_perm (h : k ∉ m.keys) :
    (m.insert k a).keys.Perm (k :: m.keys) := keys_insertEntry_perm h

theorem mem_keys : k ∈ m.keys ↔ ∃ e ∈ m.entries, e.1 = k :=
  mem_map

@[simp] theorem contains_iff : m.contains k = true ↔ k ∈ m.keys := by
  simp [contains, mem_keys]

/-- Every entry is the new one or an old one. -/
theorem mem_of_mem_insertEntry (h : e ∈ insertEntry k a es) : e = (k, a) ∨ e ∈ es := by
  induction es with
  | nil => exact .inl (mem_singleton.mp h)
  | cons x xs ih =>
    rw [insertEntry] at h
    split_ifs at h with hlt heq
    · exact mem_cons.mp h
    · rcases mem_cons.mp h with rfl | h
      · exact .inl rfl
      · exact .inr (mem_cons_of_mem _ h)
    · rcases mem_cons.mp h with rfl | h
      · exact .inr mem_cons_self
      · exact (ih h).imp_right (mem_cons_of_mem _)

theorem keys_eq_nil_of_isEmpty (h : m.isEmpty = true) : m.keys = [] := by
  rw [isEmpty, List.isEmpty_iff] at h
  rw [keys, h, map_nil]

/-! ### The nearest entries -/

theorem le_of_mem_lower (h : e ∈ (m.upperBound k).1) : e.1 ≤ k := by
  simpa using mem_takeWhile_imp h

theorem lt_of_mem_upper (h : e ∈ (m.upperBound k).2) : k < e.1 := by
  obtain ⟨es, hs⟩ := m
  simp only [upperBound] at h
  induction es with
  | nil => simp at h
  | cons x es ih =>
    obtain ⟨hhead, htail⟩ := pairwise_cons.mp hs
    rw [dropWhile_cons] at h
    split_ifs at h with hx
    · exact ih htail h
    · have hk : k < x.1 := by simpa using hx
      rcases mem_cons.mp h with rfl | h
      · exact hk
      · exact lt_trans hk (hhead e h)

theorem mem_keys_iff_upperBound :
    j ∈ m.keys ↔ (∃ e ∈ (m.upperBound k).1, e.1 = j) ∨ ∃ e ∈ (m.upperBound k).2, e.1 = j := by
  have happend : (m.upperBound k).1 ++ (m.upperBound k).2 = m.entries :=
    takeWhile_append_dropWhile
  rw [mem_keys, ← happend]
  simp only [mem_append, or_and_right, exists_or]

theorem lower_sorted (m : SortedMap κ α) (k : κ) :
    (m.upperBound k).1.Pairwise fun e e' => e.1 < e'.1 :=
  m.sorted.sublist (takeWhile_sublist _)

theorem upper_sorted (m : SortedMap κ α) (k : κ) :
    (m.upperBound k).2.Pairwise fun e e' => e.1 < e'.1 :=
  m.sorted.sublist (dropWhile_sublist _)

/-- A lower bound of the next greater key bounds all greater keys. -/
theorem forall_upper_iff {b : κ} :
    (∀ e ∈ (m.upperBound k).2, b < e.1) ↔ ∀ e ∈ (m.upperBound k).2.head?, b < e.1 := by
  refine ⟨fun h e he => h e (mem_of_head? he), fun h e he => ?_⟩
  have hs := m.upper_sorted k
  cases hl : (m.upperBound k).2 with
  | nil => rw [hl] at he; simp at he
  | cons x es =>
    rw [hl] at h he hs
    have hx : b < x.1 := h x rfl
    rcases mem_cons.mp he with rfl | he
    · exact hx
    · exact lt_trans hx (rel_of_pairwise_cons hs he)

/-- An upper bound of the greatest key up to `k` bounds all of them. -/
theorem forall_lower_iff {b : κ} :
    (∀ e ∈ (m.upperBound k).1, e.1 < b) ↔ ∀ e ∈ (m.upperBound k).1.getLast?, e.1 < b := by
  refine ⟨fun h e he => h e (mem_of_getLast? he), fun h e he => ?_⟩
  have hs := m.lower_sorted k
  rcases eq_nil_or_concat (m.upperBound k).1 with hl | ⟨es, x, hl⟩
  · rw [hl] at he
    simp at he
  · rw [hl, concat_eq_append] at h he hs
    have hx : x.1 < b := h x (by simp)
    rcases mem_append.mp he with he | he
    · refine lt_trans ?_ hx
      exact (pairwise_append.mp hs).2.2 e he x (by simp)
    · rw [mem_singleton.mp he]
      exact hx

end SortedMap

end Sola.Lib
