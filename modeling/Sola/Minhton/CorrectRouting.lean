import Sola.Minhton.RoutingLayout

/-!
Complete trees with correct routing information.

The view of a complete tree shows the first `N` positions.  The routing
information of a node is correct if every slot is filled from that view and
the adjacents are the in-order neighbors.
-/

namespace Sola.Minhton

open Sola.Lib.MaryTree Sola.Lib.Distances

/-- The existing nodes of the complete tree of the first `N` positions. -/
def treeView (m N : ℕ) (address : Pos → Address) (p : Pos) : Option Address :=
  if Complete m N p then some (address p) else none

variable {m N : ℕ} {address : Pos → Address} {p : Pos}

theorem treeView_isSome : (treeView m N address p).isSome = true ↔ Complete m N p := by
  unfold treeView
  split_ifs with h <;> simp [h]

theorem treeView_of_complete (h : Complete m N p) :
    treeView m N address p = some (address p) := if_pos h

theorem treeView_of_not_complete (h : ¬ Complete m N p) : treeView m N address p = none := if_neg h

theorem slot_treeView (h : Complete m N p) :
    slot (treeView m N address) p = existingNode address p := by
  simp [slot, existingNode, treeView_of_complete h]

/-- The routing information that the source builds for position `p`, with
every slot holding the existing node at its position and the adjacents
holding the in-order neighbors. -/
def CorrectRouting (m N : ℕ) (address : Pos → Address) (p : Pos)
    (ri : RoutingInformation) : Prop :=
  ∃ base pred succ, RoutingInformation.init m p (some (address p)) = .ok base ∧
    IsPred m (Complete m N) p pred ∧ IsSucc m (Complete m N) p succ ∧
    ri = base.fill (treeView m N address) (adjacentSlot address pred)
      (adjacentSlot address succ)

/-- A complete tree in which every node has correct routing information. -/
structure RoutedTree (m N : ℕ) where
  address : Pos → Address
  ri : Pos → RoutingInformation
  correct : ∀ p, Complete m N p → CorrectRouting m N address p (ri p)

/-- Without overflow, correct routing information is the layout filled from
the tree. -/
theorem CorrectRouting.eq_ofView {ri : RoutingInformation} (h : CorrectRouting m N address p ri)
    (hm : isFanoutValid m = true) (hp : p.Valid m) (hfits : Fits m p.level) :
    ∃ pred succ, IsPred m (Complete m N) p pred ∧ IsSucc m (Complete m N) p succ ∧
      ri = .ofView m p (address p) (treeView m N address) (adjacentSlot address pred)
        (adjacentSlot address succ) := by
  obtain ⟨base, pred, succ, hinit, hpred, hsucc, rfl⟩ := h
  rw [init_eq_ofView hm hfits hp] at hinit
  obtain rfl := Except.ok.inj hinit
  exact ⟨pred, succ, hpred, hsucc, RoutingInformation.fill_ofView ..⟩

theorem RoutedTree.selfNodeInfo (tree : RoutedTree m N) (hm : isFanoutValid m = true)
    (hp : Complete m N p) (hfits : Fits m p.level) :
    (tree.ri p).selfNodeInfo = ⟨some p, some (tree.address p)⟩ := by
  obtain ⟨_, _, -, -, hri⟩ := (tree.correct p hp).eq_ofView hm hp.1 hfits
  rw [hri]
  rfl

/-! ### Correct routing information exists -/

/-- Every complete tree without overflow has correct routing information. -/
theorem exists_routedTree (hm : isFanoutValid m = true) (address : Pos → Address)
    (hfits : ∀ p, Complete m N p → Fits m p.level) :
    ∃ tree : RoutedTree m N, tree.address = address := by
  have hex : ∀ p, Complete m N p → ∃ ri, CorrectRouting m N address p ri := by
    intro p hp
    obtain ⟨pred, hpred⟩ := exists_isPred (finite_complete m N) p
    obtain ⟨succ, hsucc⟩ := exists_isSucc (finite_complete m N) p
    exact ⟨_, _, pred, succ, init_eq_ofView hm (hfits p hp) hp.1 (address p), hpred,
      hsucc, rfl⟩
  classical
  refine ⟨⟨address, fun p => if h : Complete m N p then (hex p h).choose
    else .unconnected 0, fun p hp => ?_⟩, rfl⟩
  rw [dif_pos hp]
  exact (hex p hp).choose_spec

theorem nonempty_routedTree {L : ℕ} (hm : isFanoutValid m = true) (hN : N ≤ levelStart m (L + 1))
    (hL : Fits m L) : Nonempty (RoutedTree m N) := by
  obtain ⟨tree, -⟩ := exists_routedTree hm (fun _ => 0) fun p hp =>
    hL.mono hm (hp.level_le hN)
  exact ⟨tree⟩

end Sola.Minhton
