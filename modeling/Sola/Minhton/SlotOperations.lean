import Sola.Minhton.RoutingUpdates

/-!
The operations that change one slot of the routing information, and what
they report.

`RoutingInformation` calls its subscribers with the new node of a slot
whenever the slot has changed.  `updateNeighbor`, `removeNeighbor` and
`resetChildOrRoutingTableNeighborChild` are sequences of these operations.
-/

namespace Sola.Minhton

open Sola.Lib.MaryTree Except

inductive SlotOperation
  | setParent (parent : NodeInfo)
  | setChild (child : NodeInfo) (position : ℕ)
  | setAdjacentLeft (adjacent : NodeInfo)
  | setAdjacentRight (adjacent : NodeInfo)
  | resetAdjacentLeft
  | resetAdjacentRight
  | updateRoutingTableNeighbor (n : NodeInfo)
  | updateRoutingTableNeighborChild (n : NodeInfo)
  | resetRoutingTableNeighbor (n : NodeInfo)
  | resetRoutingTableNeighborChild (n : NodeInfo)
  | resetChild (position : ℕ)
deriving DecidableEq

/-- The new content of a slot, unless its address stays the same. -/
def reportChange (old : Option NodeInfo) (address : Option Address) : Option NodeInfo :=
  match old with
  | none => none
  | some old => if old.physical = address then none else some ⟨old.logical, address⟩

namespace SlotOperation

def perform (m : ℕ) (ri : RoutingInformation) : SlotOperation →
    Except String RoutingInformation
  | .setParent parent => ri.setParent parent
  | .setChild child position => ri.setChild m child position
  | .setAdjacentLeft adjacent => ri.setAdjacentLeft m adjacent
  | .setAdjacentRight adjacent => ri.setAdjacentRight m adjacent
  | .resetAdjacentLeft => ri.resetAdjacentLeft
  | .resetAdjacentRight => ri.resetAdjacentRight
  | .updateRoutingTableNeighbor n => ri.updateRoutingTableNeighbor m n
  | .updateRoutingTableNeighborChild n => ri.updateRoutingTableNeighborChild m n
  | .resetRoutingTableNeighbor n => ri.resetRoutingTableNeighbor m n
  | .resetRoutingTableNeighborChild n => ri.resetRoutingTableNeighborChild m n
  | .resetChild position => ri.resetChild m position

/-- The node that subscribers are called with, for an operation that succeeds
on `ri`. -/
def report (m : ℕ) (ri : RoutingInformation) : SlotOperation → Option NodeInfo
  | .setParent parent => reportChange (some ri.parent) parent.physical
  | .setChild child position =>
    reportChange (some (ri.children.getD position .none)) child.physical
  | .setAdjacentLeft adjacent => if ri.adjacentLeft = adjacent then none else some adjacent
  | .setAdjacentRight adjacent => if ri.adjacentRight = adjacent then none else some adjacent
  | .resetAdjacentLeft => if ri.adjacentLeft.isInitialized then some .none else none
  | .resetAdjacentRight => if ri.adjacentRight.isInitialized then some .none else none
  | .updateRoutingTableNeighbor n =>
    reportChange (lowerBoundSlot m n ri.routingTableNeighbors) n.physical
  | .updateRoutingTableNeighborChild n =>
    reportChange (lowerBoundSlot m n ri.routingTableNeighborChildren) n.physical
  | .resetRoutingTableNeighbor n =>
    reportChange (lowerBoundSlot m n ri.routingTableNeighbors) none
  | .resetRoutingTableNeighborChild n =>
    reportChange (lowerBoundSlot m n ri.routingTableNeighborChildren) none
  | .resetChild position => reportChange (some (ri.children.getD position .none)) none

/-- The position whose slot the operation empties. -/
def cleared (ri : RoutingInformation) : SlotOperation → Option Pos
  | .resetRoutingTableNeighbor n => n.logical
  | .resetRoutingTableNeighborChild n => n.logical
  | .resetChild position => (ri.children.getD position .none).logical
  | _ => none

/-- What the operation puts into the slot of the left adjacent. -/
def newLeft : SlotOperation → Option NodeInfo
  | .setAdjacentLeft adjacent => some adjacent
  | .resetAdjacentLeft => some .none
  | _ => none

/-- What the operation puts into the slot of the right adjacent. -/
def newRight : SlotOperation → Option NodeInfo
  | .setAdjacentRight adjacent => some adjacent
  | .resetAdjacentRight => some .none
  | _ => none

end SlotOperation

/-! ### Operations on a view -/

open RoutingInformation

/-- What an operation does to routing information that shows the view `v`. -/
inductive SlotOperation.Effect (m : ℕ) (p : Pos) (address : Address) (v : Pos → Option Address)
    (left right : NodeInfo) (op : SlotOperation) :
    RoutingInformation → Option NodeInfo → Prop
  | nothing : Effect m p address v left right op (ofView m p address v left right) none
  | slot {q : Pos} {b : Option Address} : IsSlot m p q → v q ≠ b →
      (b = none → op.cleared (ofView m p address v left right) = some q) →
      Effect m p address v left right op
        (ofView m p address (Function.update v q b) left right) (some ⟨some q, b⟩)
  | left {n : NodeInfo} : op.newLeft = some n → n = .none ∨ n.isInitialized = true →
      Effect m p address v left right op (ofView m p address v n right) (some n)
  | right {n : NodeInfo} : op.newRight = some n → n = .none ∨ n.isInitialized = true →
      Effect m p address v left right op (ofView m p address v left n) (some n)

variable {m : ℕ}

/-- A change of the address at a position that has a slot. -/
theorem SlotOperation.Effect.of_slot {p : Pos} {address : Address} {v : Pos → Option Address}
    {left right : NodeInfo} {op : SlotOperation} {q : Pos} {b : Option Address} (hq : IsSlot m p q)
    (hclear : b = none → op.cleared (ofView m p address v left right) = some q) :
    op.Effect m p address v left right
      (ofView m p address (Function.update v q b) left right)
      (reportChange (some (Minhton.slot v q)) b) := by
  have hreport : reportChange (some (Minhton.slot v q)) b =
      if v q = b then none else some ⟨some q, b⟩ := rfl
  rw [hreport]
  by_cases h : v q = b
  · have hsame : Function.update v q b = v := by rw [← h, Function.update_eq_self]
    rw [hsame, if_pos h]
    exact .nothing
  · rw [if_neg h]
    exact .slot hq h hclear

section Effect

variable {m : ℕ} (hm : isFanoutValid m = true) {p : Pos} (hL : Fits m p.level)
  (hp : p.Valid m)
  {address : Address} {v : Pos → Option Address} {left right : NodeInfo}
include hm hL hp

variable {op : SlotOperation} {q : Pos} {y b : Option Address} {ri ri' : RoutingInformation}
  {n : NodeInfo}

omit hm hL hp in
/-- Setting a slot of a table, where `put` puts the table back. -/
theorem setTable_effect (put : List NodeInfo → RoutingInformation) {layout : List Pos}
    (hput : put (layout.map (slot v)) = ofView m p address v left right)
    (hupdate : q ∈ layout → ofView m p address (Function.update v q b) left right =
      put (layout.map (slot (Function.update v q b)))) (hslot : q ∈ layout → IsSlot m p q)
    (hnodup : layout.Nodup)
    (hclear : b = none → op.cleared (ofView m p address v left right) = some q) :
    op.Effect m p address v left right
      (put (setAtLowerBound m ⟨some q, y⟩ b (layout.map (slot v))))
      (reportChange (lowerBoundSlot m ⟨some q, y⟩ (layout.map (slot v))) b) := by
  rcases lowerBound_map_slot (m := m) (v := v) (q := q) y b hnodup with
    ⟨hslot, hset, -⟩ | ⟨hmem, hfound, hset⟩
  · rw [hslot, hset, hput]
    exact .nothing
  · rw [hfound, hset, ← hupdate hmem]
    exact .of_slot (hslot hmem) hclear

section

variable (hclear : b = none → op.cleared (ofView m p address v left right) = some q)
include hclear

theorem setNeighbor_effect :
    op.Effect m p address v left right
      { ofView m p address v left right with
        routingTableNeighbors := setAtLowerBound m ⟨some q, y⟩ b
          (ofView m p address v left right).routingTableNeighbors }
      (reportChange (lowerBoundSlot m ⟨some q, y⟩
        (ofView m p address v left right).routingTableNeighbors) b) :=
  setTable_effect
    (fun l => { ofView m p address v left right with routingTableNeighbors := l }) rfl
    (fun hq => ofView_update_neighbor _ _ _ _ hq b)
    (fun hq => .neighbor (mem_tableLayout.mp hq)) (tableLayout_nodup hm hL hp) hclear

theorem setNeighborChild_effect :
    op.Effect m p address v left right
      { ofView m p address v left right with
        routingTableNeighborChildren := setAtLowerBound m ⟨some q, y⟩ b
          (ofView m p address v left right).routingTableNeighborChildren }
      (reportChange (lowerBoundSlot m ⟨some q, y⟩
        (ofView m p address v left right).routingTableNeighborChildren) b) :=
  setTable_effect
    (fun l => { ofView m p address v left right with routingTableNeighborChildren := l })
    rfl (fun hq => ofView_update_neighborChild hm hL hp _ _ _ _ hq b)
    (fun hq => by
      obtain ⟨r, hr, hq⟩ := mem_tableChildLayout.mp hq
      exact .neighborChild hr hq)
    (tableChildLayout_nodup hm hL hp) hclear

end

theorem setChild_effect {i : ℕ} (hi : i < m) (hclear : b = none →
      op.cleared (ofView m p address v left right) = some (p.child m i)) :
    op.Effect m p address v left right
      { ofView m p address v left right with
        children := (ofView m p address v left right).children.set i
          ⟨some (p.child m i), b⟩ }
      (reportChange (some ((ofView m p address v left right).children.getD i .none)) b) := by
  have hq : p.child m i ∈ childPositions m p :=
    List.mem_map.mpr ⟨i, List.mem_range.mpr hi, rfl⟩
  rw [setChildSlot_ofView hm hL hp _ _ _ _ hi,
    children_getD_of_lt _ _ _ _ hi]
  exact .of_slot (.child hq) hclear

omit hm hL hp in
theorem initialized_of_setAdjacentLeft (h : ri.setAdjacentLeft m n = .ok ri') :
    n.isInitialized = true := by
  unfold setAdjacentLeft at h
  split_ifs at h with _ hinit
  simpa using hinit

omit hm hL hp in
theorem initialized_of_setAdjacentRight (h : ri.setAdjacentRight m n = .ok ri') :
    n.isInitialized = true := by
  unfold setAdjacentRight at h
  split_ifs at h with _ hinit
  simpa using hinit

/-- Every operation that succeeds changes the address at one position or one
of the adjacents, and reports the new content of the slot. -/
theorem SlotOperation.effect (h : op.perform m (ofView m p address v left right) = .ok ri) :
    op.Effect m p address v left right ri
      (op.report m (ofView m p address v left right)) := by
  have hself : (ofView m p address v left right).selfNodeInfo.isValidPeer = true := rfl
  cases op with
  | setParent parent =>
    simp only [perform, RoutingInformation.setParent] at h
    split_ifs at h with _ h0 hlogical hinit
    obtain rfl := ok.inj h
    have h0' : p.level ≠ 0 := h0
    obtain ⟨logical, b⟩ := parent
    have hparent : (ofView m p address v left right).parent = slot v (p.parent m) :=
      if_neg h0'
    have hl : logical = some (p.parent m) := by
      rw [hparent] at hlogical
      exact (not_not.mp hlogical).symm
    subst hl
    have hb : b ≠ none := by
      rintro rfl
      simp at hinit
    rw [← ofView_update_parent address v left right h0' b,
      report, hparent]
    exact .of_slot (.parent h0') fun h => absurd h hb
  | setChild child i =>
    simp only [perform, RoutingInformation.setChild] at h
    split_ifs at h with _ hi hlogical hinit
    obtain rfl := ok.inj h
    obtain ⟨logical, b⟩ := child
    have hi' : i < m := by omega
    rw [children_getD_of_lt _ _ _ _ hi'] at hlogical
    have hl' : logical = some (p.child m i) := (not_not.mp hlogical).symm
    subst hl'
    refine setChild_effect hm hL hp hi' fun hb => ?_
    subst hb
    simp at hinit
  | setAdjacentLeft n =>
    obtain rfl := eq_of_setAdjacentLeft m p address v left right h
    rw [report]
    split_ifs with heq
    · have heq' : left = n := heq
      subst heq'
      exact .nothing
    · exact .left rfl (Or.inr (initialized_of_setAdjacentLeft h))
  | setAdjacentRight n =>
    obtain rfl := eq_of_setAdjacentRight m p address v left right h
    rw [report]
    split_ifs with heq
    · have heq' : right = n := heq
      subst heq'
      exact .nothing
    · exact .right rfl (Or.inr (initialized_of_setAdjacentRight h))
  | resetAdjacentLeft =>
    rw [perform, resetAdjacentLeft_ofView] at h
    obtain rfl := ok.inj h
    have hreport : report m (ofView m p address v left right) .resetAdjacentLeft =
        if left.isInitialized then some .none else none := rfl
    rw [hreport]
    split_ifs with hinit
    · exact .left rfl (Or.inl rfl)
    · exact .nothing
  | resetAdjacentRight =>
    rw [perform, resetAdjacentRight_ofView] at h
    obtain rfl := ok.inj h
    have hreport : report m (ofView m p address v left right) .resetAdjacentRight =
        if right.isInitialized then some .none else none := rfl
    rw [hreport]
    split_ifs with hinit
    · exact .right rfl (Or.inl rfl)
    · exact .nothing
  | updateRoutingTableNeighbor n =>
    simp only [perform, RoutingInformation.updateRoutingTableNeighbor] at h
    split_ifs at h with _ hinit
    obtain rfl := ok.inj h
    obtain ⟨_ | q, _ | b⟩ := n <;> simp [NodeInfo.isInitialized] at hinit
    exact setNeighbor_effect hm hL hp (by simp)
  | updateRoutingTableNeighborChild n =>
    simp only [perform, RoutingInformation.updateRoutingTableNeighborChild] at h
    split_ifs at h with _ hinit
    obtain rfl := ok.inj h
    obtain ⟨_ | q, _ | b⟩ := n <;> simp [NodeInfo.isInitialized] at hinit
    exact setNeighborChild_effect hm hL hp (by simp)
  | resetRoutingTableNeighbor n =>
    simp only [perform, RoutingInformation.resetRoutingTableNeighbor] at h
    split_ifs at h with _ hvalid
    obtain rfl := ok.inj h
    obtain ⟨_ | q, b⟩ := n <;> simp [NodeInfo.isValidPeer] at hvalid
    exact setNeighbor_effect hm hL hp fun _ => rfl
  | resetRoutingTableNeighborChild n =>
    simp only [perform, RoutingInformation.resetRoutingTableNeighborChild] at h
    split_ifs at h with _ hvalid
    obtain rfl := ok.inj h
    obtain ⟨_ | q, b⟩ := n <;> simp [NodeInfo.isValidPeer] at hvalid
    exact setNeighborChild_effect hm hL hp fun _ => rfl
  | resetChild i =>
    simp only [perform, RoutingInformation.resetChild] at h
    split_ifs at h with _ hi
    obtain rfl := ok.inj h
    have hi' : i < m := by omega
    have hlogical : ((ofView m p address v left right).children.getD i .none).logical =
        some (p.child m i) := by
      rw [children_getD_of_lt _ _ _ _ hi']
      rfl
    rw [hlogical]
    exact setChild_effect hm hL hp hi' fun _ => hlogical

end Effect

/-- A node without a position has no slots. -/
theorem SlotOperation.perform_of_not_isValidPeer {ri : RoutingInformation}
    (hself : ri.selfNodeInfo.isValidPeer = false) (op : SlotOperation) :
    ∃ e, op.perform m ri = .error e := by
  cases op <;>
    simp [perform, RoutingInformation.setParent, RoutingInformation.setChild,
      RoutingInformation.setAdjacentLeft, RoutingInformation.setAdjacentRight,
      RoutingInformation.resetAdjacentLeft, RoutingInformation.resetAdjacentRight,
      RoutingInformation.updateRoutingTableNeighbor,
      RoutingInformation.updateRoutingTableNeighborChild,
      RoutingInformation.resetRoutingTableNeighbor,
      RoutingInformation.resetRoutingTableNeighborChild, RoutingInformation.resetChild, hself]

end Sola.Minhton
