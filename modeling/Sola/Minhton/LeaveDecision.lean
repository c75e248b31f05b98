import Sola.Minhton.CorrectRouting
import Sola.Minhton.Leave
import Sola.Minhton.RoutingUpdates

/-!
Who leaves without a replacement.

A node leaves by itself if the slot of its right neighbor is empty or, at the
right edge, if the first slot for children of its neighbors is that of the
first position of the next level and is empty.  On levels whose tables are
sorted by truncated parent numbers, the slot of the right neighbor can be that
of another position.
-/

namespace Sola.Minhton

open Sola.Lib.MaryTree Sola.Lib.Distances List
open RoutingInformation

/-- A node is the last one if the next position is free. -/
theorem index_succ_eq_of_next_free {m N : ℕ} {p next : Pos} (hp : Complete m N p)
    (hvalid : next.Valid m) (hindex : next.index m = p.index m + 1)
    (hfree : ¬ Complete m N next) : p.index m + 1 = N := by
  have hlt := hp.2
  have hle : ¬ next.index m < N := fun h => hfree ⟨hvalid, h⟩
  omega

section View

variable {m N : ℕ} (hm : isFanoutValid m = true) {p : Pos} (hp : p.Valid m)
  {a : Address} {address : Pos → Address} {left right : NodeInfo}
include hm hp

/-- Where the tables are in order, the right neighbor is the next position. -/
theorem canLeave_beside (hs : Small m p.level) (hedge : p.number + 1 < m ^ p.level)
    (h : (ofView m p a (treeView m N address) left right).canLeaveWithoutReplacement m = true) :
    ¬ Complete m N ⟨p.level, p.number + 1⟩ := by
  have hright : (ofView m p a (treeView m N address) left right).directRightNeighbor =
      slot (treeView m N address) ⟨p.level, p.number + 1⟩ := by
    unfold directRightNeighbor
    rw [rightNeighbors_ofView hm hp _ _ _ _ hs, headD_eq_head?_getD,
      head?_map, rightNumbers_head? hm (Small.fits hm hs) hedge]
    rfl
  intro hnext
  unfold canLeaveWithoutReplacement at h
  simp [hright, treeView_of_complete hnext] at h

omit hp in
/-- At the right edge there is no right neighbor, and a child with the number
0 is the first position of the next level. -/
theorem canLeave_edge (hfits : Fits m p.level) (hedge : m ^ p.level ≤ p.number + 1)
    (h : (ofView m p a (treeView m N address) left right).canLeaveWithoutReplacement m = true) :
    ¬ Complete m N ⟨p.level + 1, 0⟩ := by
  have hnone : (ofView m p a (treeView m N address) left right).directRightNeighbor = .none := by
    have hlength : (tableLayout m p).length ≤ (leftDistances m p).length := by
      have hright : rightDistances m p = [] := map_eq_nil_iff.mp
        ((rightNumbers_eq_nil_iff hm hfits).mpr hedge)
      rw [tableLayout, sortPositions, length_insertionSort, tablePositions, hright]
      simp
    unfold directRightNeighbor
    rw [rightNeighbors_eq_map, drop_of_length_le hlength]
    rfl
  have hinvalid : NodeInfo.none.isValidPeer = false := rfl
  unfold canLeaveWithoutReplacement
    leftmostNeighborChild at h
  rw [leftNeighborChildren_eq_map] at h
  simp only [hnone, hinvalid, Bool.false_eq_true, if_false] at h
  cases hfirst : (tableChildLayout m p).take ((leftDistances m p).length * m) with
  | nil => simp [hfirst, hinvalid] at h
  | cons q qs =>
    have hmem : q ∈ tableChildLayout m p := mem_of_mem_take (hfirst ▸ mem_cons_self)
    obtain ⟨r, hr, hq⟩ := mem_tableChildLayout.mp hmem
    have hlevel : q.level = p.level + 1 := by
      obtain ⟨c, -, rfl⟩ := mem_map.mp hq
      show r.level + 1 = p.level + 1
      rw [level_of_mem_tablePositions hr]
    simp only [hfirst, map_cons, headD_cons] at h
    split_ifs at h with hchild
    have hroot : q = ⟨p.level + 1, 0⟩ := Pos.ext_iff'.mpr ⟨hlevel, hchild.2⟩
    intro hnext
    simp [hroot, treeView_of_complete hnext] at h

end View

end Sola.Minhton
