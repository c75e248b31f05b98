import Sola.Lib.Transitions
import Sola.Minhton.SlotOperations

/-!
Whole runs of routing information
(`minhton/src/core/routing_information*.cpp`).

An object is constructed for a node and then called in any order.  The fanout
belongs to the own position: the default position has fanout 0, and a position
that is set brings its own one.  Nodes with another fanout than the own one are
in no slot, and calls with them are left out.

Only `resetPosition` and `setPosition` change the size of the vectors.  All
other calls change the contents of slots.
-/

namespace Sola.Minhton

open Sola.Lib Sola.Lib.MaryTree Sola.Lib.Distances List RoutingInformation Except

/-! ### Objects and calls -/

/-- Routing information with the fanout of the own position. -/
structure RoutingObject where
  fanout : ℕ
  info : RoutingInformation
deriving DecidableEq

inductive RoutingCall
  | resetPosition
  | setPosition (fanout : ℕ) (position : Option Pos)
  | slot (op : SlotOperation)
  | updateNeighbor (n : NodeInfo)
  | removeNeighbor (n : NodeInfo)
  | resetChildOrRoutingTableNeighborChild (n : NodeInfo)

namespace RoutingObject

/-- The constructor. -/
def construct (fanout : ℕ) (self : NodeInfo) : Except String RoutingObject :=
  match self.logical with
  | none =>
    .ok ⟨fanout, ⟨self, .none, [], .none, .none, [], [], 0⟩⟩
  | some p => do
      let info ← RoutingInformation.init fanout p self.physical
      return ⟨fanout, info⟩

/-- `setPosition`, also with a `LogicalNodeInfo` that has a fanout and no
position. -/
def setPosition (s : RoutingObject) (fanout : ℕ) :
    Option Pos → Except String RoutingObject
  | none =>
    if !isPositionValid fanout ⟨0, 0⟩ then .error "Peer has invalid Position"
    else
      let self := ⟨none, s.info.selfNodeInfo.physical⟩
      .ok ⟨fanout, RoutingInformation.clearRoutingTable { s.info with selfNodeInfo := self }⟩
  | some p => do
      let info ← s.info.setPosition fanout p
      return ⟨fanout, info⟩

/-- Change the slots only. -/
def change (s : RoutingObject) (f : RoutingInformation → Except String RoutingInformation) :
    Except String RoutingObject := do
  let info ← f s.info
  return ⟨s.fanout, info⟩

def perform (s : RoutingObject) : RoutingCall → Except String RoutingObject
  | .resetPosition => .ok ⟨0, s.info.resetPosition⟩
  | .setPosition fanout position => s.setPosition fanout position
  | .slot op => s.change fun ri => op.perform s.fanout ri
  | .updateNeighbor n => s.change (·.updateNeighbor s.fanout n)
  | .removeNeighbor n => s.change (·.removeNeighbor s.fanout n)
  | .resetChildOrRoutingTableNeighborChild n =>
    s.change (·.resetChildOrRoutingTableNeighborChild s.fanout n)

/-- The object after a call that returns. -/
def step (s : RoutingObject) (call : RoutingCall) : Option RoutingObject :=
  (s.perform call).toOption

/-- The objects that are constructed and called, where all calls return. -/
def Reachable (s : RoutingObject) : Prop :=
  ∃ fanout self s₀, construct fanout self = .ok s₀ ∧
    Transitions.Reachable step (fun _ _ => True) s₀ s

theorem eq_of_change {s s' : RoutingObject}
    {f : RoutingInformation → Except String RoutingInformation} (h : s.change f = .ok s') :
    ∃ ri, f s.info = .ok ri ∧ s' = ⟨s.fanout, ri⟩ := by
  obtain ⟨ri, hri, h⟩ := bind_eq_ok.mp h
  exact ⟨ri, hri, (ok.inj h).symm⟩

end RoutingObject

namespace RoutingInformation

/-! ### Updating and removing neighbors

Both calls go through the adjacents, then the parent, then the slots of the
node's level. -/

def updateAdjacents (m : ℕ) (ri : RoutingInformation) (n : NodeInfo) :
    Except String RoutingInformation :=
  if ri.adjacentLeft.logical = n.logical then ri.setAdjacentLeft m n
  else if ri.adjacentRight.logical = n.logical then ri.setAdjacentRight m n
  else pure ri

def updateParent (ri : RoutingInformation) (n : NodeInfo) : Except String RoutingInformation :=
  if ri.parent.logical = n.logical then ri.setParent n else pure ri

def updateByLevel (m : ℕ) (ri : RoutingInformation) (n : NodeInfo) :
    Except String RoutingInformation :=
  if n.level = ri.selfNodeInfo.level then ri.updateRoutingTableNeighbor m n
  else if n.level = ri.selfNodeInfo.level + 1 then do
    let positions ← calcChildren m ri.selfNodeInfo.pos
    if positions.any fun c => c.number = n.number then ri.setChild m n (n.number % m)
    else ri.updateRoutingTableNeighborChild m n
  else pure ri

theorem updateNeighbor_eq (m : ℕ) (ri : RoutingInformation) {n : NodeInfo}
    (hn : n.isInitialized = true) :
    ri.updateNeighbor m n = (do
      let ri ← ri.updateAdjacents m n
      let ri ← ri.updateParent n
      ri.updateByLevel m n) := by
  rw [updateNeighbor, if_neg (by simp [hn]), updateAdjacents]
  split_ifs <;>
  · refine bind_congr fun ri => ?_
    simp only [updateParent]
    split_ifs <;> rfl

def removeAdjacents (ri : RoutingInformation) (n : NodeInfo) : Except String RoutingInformation :=
  if ri.adjacentLeft.logical = n.logical then ri.resetAdjacentLeft
  else if ri.adjacentRight.logical = n.logical then ri.resetAdjacentRight
  else pure ri

def removeByLevel (m : ℕ) (ri : RoutingInformation) (n : NodeInfo) :
    Except String RoutingInformation :=
  if n.level = ri.selfNodeInfo.level then ri.resetRoutingTableNeighbor m n
  else if n.level = ri.selfNodeInfo.level + 1 then ri.resetChildOrRoutingTableNeighborChild m n
  else pure ri

theorem removeNeighbor_eq (m : ℕ) (ri : RoutingInformation) (n : NodeInfo) :
    ri.removeNeighbor m n =
      if ri.parent.logical = n.logical then
        .error "Parent cannot be removed from routing information. Only updated."
      else (do
        let ri ← ri.removeAdjacents n
        ri.removeByLevel m n) := by
  rw [removeNeighbor, removeAdjacents]
  split_ifs <;> rfl

/-! ### Calls as sequences of slot operations -/

/-- One of the operations that change a slot has returned. -/
def SlotStep (m : ℕ) (ri ri' : RoutingInformation) : Prop :=
  ∃ op : SlotOperation, op.perform m ri = .ok ri'

def SlotSteps (m : ℕ) : RoutingInformation → RoutingInformation → Prop :=
  Relation.ReflTransGen (SlotStep m)

section SlotSteps

variable {m : ℕ} {ri ri' : RoutingInformation} {n : NodeInfo}

theorem SlotSteps.single (op : SlotOperation) (h : op.perform m ri = .ok ri') :
    SlotSteps m ri ri' :=
  Relation.ReflTransGen.single ⟨op, h⟩

theorem SlotSteps.of_pure (h : (pure ri : Except String RoutingInformation) = .ok ri') :
    SlotSteps m ri ri' := by
  obtain rfl := ok.inj h
  exact .refl

/-- What every operation keeps, a sequence of them keeps. -/
theorem SlotSteps.invariant {I : RoutingInformation → Prop}
    (hop : ∀ ri op ri', I ri → SlotOperation.perform m ri op = .ok ri' → I ri')
    (h : SlotSteps m ri ri') (hri : I ri) : I ri' := by
  induction h with
  | refl => exact hri
  | tail _ hstep ih =>
    obtain ⟨op, hstep⟩ := hstep
    exact hop _ op _ ih hstep

theorem slotSteps_updateAdjacents (h : ri.updateAdjacents m n = .ok ri') :
    SlotSteps m ri ri' := by
  unfold updateAdjacents at h
  split_ifs at h
  · exact .single (.setAdjacentLeft n) h
  · exact .single (.setAdjacentRight n) h
  · exact .of_pure h

theorem slotSteps_updateParent (h : ri.updateParent n = .ok ri') : SlotSteps m ri ri' := by
  unfold updateParent at h
  split_ifs at h
  · exact .single (.setParent n) h
  · exact .of_pure h

theorem slotSteps_updateByLevel (h : ri.updateByLevel m n = .ok ri') : SlotSteps m ri ri' := by
  unfold updateByLevel at h
  split_ifs at h
  · exact .single (.updateRoutingTableNeighbor n) h
  · obtain ⟨positions, -, h⟩ := bind_eq_ok.mp h
    split_ifs at h
    · exact .single (.setChild n (n.number % m)) h
    · exact .single (.updateRoutingTableNeighborChild n) h
  · exact .of_pure h

theorem slotSteps_updateNeighbor (h : ri.updateNeighbor m n = .ok ri') :
    SlotSteps m ri ri' := by
  have hn : n.isInitialized = true := by
    by_contra hn
    rw [updateNeighbor, if_pos (by simpa using hn)] at h
    cases h
  rw [updateNeighbor_eq m ri hn] at h
  obtain ⟨ri₁, h₁, h⟩ := bind_eq_ok.mp h
  obtain ⟨ri₂, h₂, h₃⟩ := bind_eq_ok.mp h
  exact ((slotSteps_updateAdjacents h₁).trans (slotSteps_updateParent h₂)).trans
    (slotSteps_updateByLevel h₃)

theorem slotSteps_removeAdjacents (h : ri.removeAdjacents n = .ok ri') :
    SlotSteps m ri ri' := by
  unfold removeAdjacents at h
  split_ifs at h
  · exact .single .resetAdjacentLeft h
  · exact .single .resetAdjacentRight h
  · exact .of_pure h

theorem slotSteps_resetChildOrRoutingTableNeighborChild
    (h : ri.resetChildOrRoutingTableNeighborChild m n = .ok ri') : SlotSteps m ri ri' := by
  unfold resetChildOrRoutingTableNeighborChild at h
  split_ifs at h
  · split at h
    · exact .single (.resetChild _) h
    · exact .of_pure h
  · exact .single (.resetRoutingTableNeighborChild n) h

theorem slotSteps_removeByLevel (h : ri.removeByLevel m n = .ok ri') : SlotSteps m ri ri' := by
  unfold removeByLevel at h
  split_ifs at h
  · exact .single (.resetRoutingTableNeighbor n) h
  · exact slotSteps_resetChildOrRoutingTableNeighborChild h
  · exact .of_pure h

theorem slotSteps_removeNeighbor (h : ri.removeNeighbor m n = .ok ri') :
    SlotSteps m ri ri' := by
  rw [removeNeighbor_eq] at h
  split_ifs at h
  obtain ⟨ri₁, h₁, h₂⟩ := bind_eq_ok.mp h
  exact (slotSteps_removeAdjacents h₁).trans (slotSteps_removeByLevel h₂)

end SlotSteps

/-! ### What slot operations keep -/

/-- The own node is the same, and the vectors have the same sizes. -/
structure SameShape (ri ri' : RoutingInformation) : Prop where
  self : ri'.selfNodeInfo = ri.selfNodeInfo
  startIndex : ri'.rightTableNeighborStartIndex = ri.rightTableNeighborStartIndex
  children : ri'.children.length = ri.children.length
  neighbors : ri'.routingTableNeighbors.length = ri.routingTableNeighbors.length
  neighborChildren :
    ri'.routingTableNeighborChildren.length = ri.routingTableNeighborChildren.length

@[simp] theorem setAtLowerBound_length (m : ℕ) (n : NodeInfo) (address : Option Address)
    (slots : List NodeInfo) : (setAtLowerBound m n address slots).length = slots.length := by
  induction slots with
  | nil => rfl
  | cons x xs ih =>
    unfold setAtLowerBound
    split_ifs
    · rw [length_cons, ih, length_cons]
    · rfl
    · rfl

end RoutingInformation

theorem SlotOperation.sameShape {m : ℕ} {ri ri' : RoutingInformation} {op : SlotOperation}
    (h : op.perform m ri = .ok ri') : ri.SameShape ri' := by
  -- an operation that returns has written at most one slot
  cases op <;>
    simp only [perform, RoutingInformation.setParent, RoutingInformation.setChild,
      RoutingInformation.setAdjacentLeft, RoutingInformation.setAdjacentRight,
      RoutingInformation.resetAdjacentLeft, RoutingInformation.resetAdjacentRight,
      RoutingInformation.updateRoutingTableNeighbor,
      RoutingInformation.updateRoutingTableNeighborChild,
      RoutingInformation.resetRoutingTableNeighbor,
      RoutingInformation.resetRoutingTableNeighborChild, RoutingInformation.resetChild] at h <;>
    split_ifs at h <;>
    · obtain rfl := ok.inj h
      constructor <;> simp

/-! ### Invariants of runs -/

namespace RoutingObject

variable {s s' : RoutingObject} {m fanout : ℕ} {p : Pos} {address : Option Address}
  {ri : RoutingInformation}

/-- A call that returns has set the position, or it has changed slots by slot
operations. -/
theorem perform_cases {call : RoutingCall} (h : s.perform call = .ok s') :
    s' = ⟨0, s.info.resetPosition⟩ ∨
    (∃ fanout position, s.setPosition fanout position = .ok s') ∨
    (∃ ri, SlotSteps s.fanout s.info ri ∧ s' = ⟨s.fanout, ri⟩) := by
  cases call with
  | resetPosition => exact .inl (ok.inj h).symm
  | setPosition fanout position => exact .inr (.inl ⟨fanout, position, h⟩)
  | slot op =>
    rw [perform] at h
    obtain ⟨ri, hri, rfl⟩ := eq_of_change h
    exact .inr (.inr ⟨ri, .single op hri, rfl⟩)
  | updateNeighbor n =>
    rw [perform] at h
    obtain ⟨ri, hri, rfl⟩ := eq_of_change h
    exact .inr (.inr ⟨ri, slotSteps_updateNeighbor hri, rfl⟩)
  | removeNeighbor n =>
    rw [perform] at h
    obtain ⟨ri, hri, rfl⟩ := eq_of_change h
    exact .inr (.inr ⟨ri, slotSteps_removeNeighbor hri, rfl⟩)
  | resetChildOrRoutingTableNeighborChild n =>
    rw [perform] at h
    obtain ⟨ri, hri, rfl⟩ := eq_of_change h
    exact .inr (.inr ⟨ri,
      slotSteps_resetChildOrRoutingTableNeighborChild hri, rfl⟩)

/-- What holds after the construction and is kept by positions that are set and
by every slot operation holds in every reachable state. -/
theorem Reachable.invariant {I : RoutingObject → Prop} (h : s.Reachable)
    (hconstruct : ∀ fanout self s₀, construct fanout self = .ok s₀ → I s₀)
    (hreset : ∀ s, I s → I ⟨0, s.info.resetPosition⟩)
    (hset : ∀ s fanout position s', I s → s.setPosition fanout position = .ok s' → I s')
    (hslot : ∀ fanout ri op ri', I ⟨fanout, ri⟩ → SlotOperation.perform fanout ri op = .ok ri' →
      I ⟨fanout, ri'⟩) : I s := by
  obtain ⟨fanout, self, s₀, h₀, hrun⟩ := h
  refine hrun.invariant (hconstruct fanout self s₀ h₀) fun s call s' hs _ hcall => ?_
  have hperform : s.perform call = .ok s' := by
    cases hperform : s.perform call with
    | error e =>
      rw [step, hperform] at hcall
      cases hcall
    | ok s₁ =>
      rw [step, hperform] at hcall
      rw [Option.some.inj hcall]
  rcases perform_cases hperform with rfl | ⟨f, position, hposition⟩ | ⟨ri, hsteps, rfl⟩
  · exact hreset s hs
  · exact hset s f position s' hs hposition
  · exact hsteps.invariant (I := fun ri => I ⟨s.fanout, ri⟩) (hslot s.fanout) hs

/-! ### The sizes of the vectors -/

/-- The vectors of a node without slots. -/
structure Cleared (s : RoutingObject) : Prop where
  children : s.info.children = []
  neighbors : s.info.routingTableNeighbors = []
  neighborChildren : s.info.routingTableNeighborChildren = []

/-- The vectors of a node with slots. -/
structure Built (s : RoutingObject) : Prop where
  position : ∃ p, s.info.selfNodeInfo.logical = some p ∧ isPositionValid s.fanout p = true
  children : s.info.children.length = s.fanout
  startIndex : s.info.rightTableNeighborStartIndex ≤ s.info.routingTableNeighbors.length
  neighborChildren : s.info.routingTableNeighborChildren.length =
    s.info.routingTableNeighbors.length * s.fanout

theorem length_of_calcChildren {positions : List Pos} (h : calcChildren m p = .ok positions) :
    isPositionValid m p = true ∧ positions.length = m := by
  unfold calcChildren at h
  split_ifs at h with hvalid
  refine ⟨by simpa using hvalid, ?_⟩
  rw [length_of_mapM_ok h, length_range]

theorem built_of_init (h : init m p address = .ok ri) : Built ⟨m, ri⟩ := by
  obtain ⟨parent, -, h⟩ := bind_eq_ok.mp h
  obtain ⟨children, hchildren, h⟩ := bind_eq_ok.mp h
  obtain ⟨left, -, h⟩ := bind_eq_ok.mp h
  obtain ⟨right, -, h⟩ := bind_eq_ok.mp h
  obtain ⟨neighborChildren, hneighborChildren, h⟩ := bind_eq_ok.mp h
  obtain rfl := ok.inj h
  obtain ⟨positions, hpositions, h⟩ := bind_eq_ok.mp hchildren
  obtain rfl := ok.inj h
  obtain ⟨hvalid, hlength⟩ := length_of_calcChildren hpositions
  have hsum : neighborChildren.flatten.length = (left ++ right).length * m := by
    have hall : ∀ positions ∈ neighborChildren, positions.length = m := by
      intro positions hmem
      obtain ⟨q, -, hq⟩ := exists_of_mapM_ok hneighborChildren hmem
      exact (length_of_calcChildren hq).2
    have hmap : neighborChildren.map length = replicate neighborChildren.length m :=
      eq_replicate_iff.mpr ⟨by simp, by simpa using hall⟩
    rw [length_flatten, hmap, sum_replicate_nat, length_of_mapM_ok hneighborChildren]
  refine ⟨⟨p, rfl, hvalid⟩, ?_, ?_, ?_⟩
  · rw [length_map, hlength]
  · simp [sortNodes, length_insertionSort]
  · rw [sortNodes, sortNodes, length_insertionSort, length_insertionSort,
      length_map, length_map, hsum]

theorem Built.children_ne_nil (h : s.Built) : s.info.children ≠ [] := by
  obtain ⟨p, -, hp⟩ := h.position
  have hm := (isFanoutValid_iff.mp (isFanoutValid_of_isPositionValid hp)).1
  intro hnil
  have hlength := h.children
  rw [hnil, length_nil] at hlength
  omega

theorem self_of_init (h : init m p address = .ok ri) :
    ri.selfNodeInfo = ⟨some p, address⟩ := by
  obtain ⟨parent, -, h⟩ := bind_eq_ok.mp h
  obtain ⟨children, -, h⟩ := bind_eq_ok.mp h
  obtain ⟨left, -, h⟩ := bind_eq_ok.mp h
  obtain ⟨right, -, h⟩ := bind_eq_ok.mp h
  obtain ⟨neighborChildren, -, h⟩ := bind_eq_ok.mp h
  obtain rfl := ok.inj h
  rfl

/-- An object is constructed without a position, or with slots. -/
theorem construct_cases {self : NodeInfo} (h : construct fanout self = .ok s) :
    (s.Cleared ∧ s.info.selfNodeInfo.logical = none) ∨
    (∃ p address, init fanout p address = .ok s.info ∧ s.fanout = fanout) := by
  unfold construct at h
  split at h
  next hself =>
    obtain rfl := ok.inj h
    exact .inl ⟨⟨rfl, rfl, rfl⟩, hself⟩
  next p _ =>
    obtain ⟨ri, hri, h⟩ := bind_eq_ok.mp h
    obtain rfl := ok.inj h
    exact .inr ⟨p, self.physical, hri, rfl⟩

/-- Slots are initialized for a position and an address. -/
theorem setPosition_cases {position : Option Pos} (h : s.setPosition fanout position = .ok s') :
    (s'.Cleared ∧ s'.info.selfNodeInfo.isInitialized = false) ∨
    (∃ p address, init fanout p address = .ok s'.info ∧
      s'.fanout = fanout) := by
  cases position with
  | none =>
    simp only [setPosition] at h
    split_ifs at h
    obtain rfl := ok.inj h
    exact .inl ⟨⟨rfl, rfl, rfl⟩, rfl⟩
  | some p =>
    obtain ⟨ri, hri, h⟩ := bind_eq_ok.mp h
    obtain rfl := ok.inj h
    unfold RoutingInformation.setPosition at hri
    split_ifs at hri
    · exact .inr ⟨p, _, hri, rfl⟩
    · obtain rfl := ok.inj hri
      exact .inl ⟨⟨rfl, rfl, rfl⟩, rfl⟩

section Perform

variable {m : ℕ} {ri ri' : RoutingInformation} {op : SlotOperation}
  (h : op.perform m ri = .ok ri')
include h

theorem Cleared.perform (hs : Cleared ⟨m, ri⟩) : Cleared ⟨m, ri'⟩ := by
  have hshape := SlotOperation.sameShape h
  refine ⟨?_, ?_, ?_⟩
  · exact length_eq_zero_iff.mp (hshape.children.trans (by rw [hs.children]; rfl))
  · exact length_eq_zero_iff.mp (hshape.neighbors.trans (by rw [hs.neighbors]; rfl))
  · exact length_eq_zero_iff.mp
      (hshape.neighborChildren.trans (by rw [hs.neighborChildren]; rfl))

theorem Built.perform (hs : Built ⟨m, ri⟩) : Built ⟨m, ri'⟩ := by
  have hshape := SlotOperation.sameShape h
  refine ⟨?_, ?_, ?_, ?_⟩
  · simpa only [hshape.self] using hs.position
  · exact hshape.children.trans hs.children
  · simpa only [hshape.startIndex, hshape.neighbors] using hs.startIndex
  · simpa only [hshape.neighborChildren, hshape.neighbors] using hs.neighborChildren

end Perform

theorem Built.of_init (h : ∃ p address, init fanout p address = .ok s.info ∧
      s.fanout = fanout) : s.Built := by
  obtain ⟨p, address, h, rfl⟩ := h
  exact built_of_init h

theorem Reachable.cleared_or_built (h : s.Reachable) : s.Cleared ∨ s.Built := by
  refine h.invariant (I := fun s => s.Cleared ∨ s.Built) (fun fanout self s₀ h => ?_)
    (fun s _ => .inl ⟨rfl, rfl, rfl⟩) (fun s fanout position s' _ h => ?_)
    (fun fanout ri op ri' hs h => ?_)
  · exact (construct_cases h).imp (·.1) Built.of_init
  · exact (setPosition_cases h).imp (·.1) Built.of_init
  · exact hs.imp (Cleared.perform h) (Built.perform h)

end RoutingObject

end Sola.Minhton
