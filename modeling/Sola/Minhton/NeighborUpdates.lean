import Sola.Minhton.RoutingRuns

/-!
Updates and removals of neighbors in whole runs of routing information.

As long as the numbers of the node and of its routing table neighbors are below
65536, the object always shows a view, and updates and removals of neighbors
are changes of the view at one position.
-/

namespace Sola.Minhton

open Sola.Lib Sola.Lib.MaryTree Sola.Lib.Distances RoutingObject RoutingInformation
open Function (update update_eq_self update_idem update_of_ne update_self)

/-! ### Numbers below 65536 -/

/-- The numbers of a node and of its routing table neighbors are below 65536. -/
def NumbersFit (m : ℕ) (p : Pos) : Prop :=
  p.number < 65536 ∧ ∀ q : Pos, q.Valid m → q.level = p.level →
    IsDist m (q.number - p.number) ∨ IsDist m (p.number - q.number) → q.number < 65536

section NumbersFit

variable {m : ℕ} (hm : isFanoutValid m = true) {p : Pos} (hp : p.Valid m) (h : NumbersFit m p)
include hm hp h

/-- The position with the largest first digit and else the digits of `p` is in
the routing table, or `p` has that digit. -/
theorem NumbersFit.top_lt {l : ℕ} (hl : p.level = l + 1) : (m - 1) * m ^ l < 65536 := by
  have hm2 := (isFanoutValid_iff.mp hm).1
  have hpow : 0 < m ^ l := Nat.pow_pos (by omega)
  have hsplit := Nat.div_add_mod p.number (m ^ l)
  have hmod := Nat.mod_lt p.number hpow
  have hdigit : p.number / m ^ l < m := by
    rw [Nat.div_lt_iff_lt_mul hpow, ← pow_succ', ← hl]
    exact hp
  obtain ⟨d, hd⟩ : ∃ d, p.number / m ^ l + d = m - 1 := ⟨m - 1 - p.number / m ^ l, by omega⟩
  have hsum : (m - 1) * m ^ l = m ^ l * (p.number / m ^ l) + d * m ^ l := by
    rw [← hd, Nat.add_mul, Nat.mul_comm]
  have hle : (m - 1) * m ^ l ≤ p.number + d * m ^ l := by
    rw [hsum]
    exact Nat.add_le_add_right (Nat.mul_div_le _ _) _
  have hq : p.number + d * m ^ l < m ^ (l + 1) := by
    calc p.number + d * m ^ l
        < m ^ l * (p.number / m ^ l) + m ^ l + d * m ^ l := by omega
      _ = (m - 1) * m ^ l + 1 * m ^ l := by rw [hsum]; ring
      _ = m ^ (l + 1) := by rw [← Nat.add_mul, Nat.sub_add_cancel (by omega), pow_succ']
  rcases Nat.eq_zero_or_pos d with rfl | hpos
  · rw [Nat.zero_mul, Nat.add_zero] at hle
    exact hle.trans_lt h.1
  · have hdm : d < m := (hd ▸ Nat.le_add_left _ _ : d ≤ m - 1).trans_lt (by omega)
    exact hle.trans_lt (h.2 ⟨p.level, p.number + d * m ^ l⟩ (hl ▸ hq) rfl
      (.inl ⟨d, l, hpos, hdm, Nat.add_sub_cancel_left _ _⟩))

theorem NumbersFit.fits : Fits m p.level := by
  have hm2 := isFanoutValid_iff.mp hm
  unfold Fits
  cases hl : p.level with
  | zero =>
    rw [Nat.zero_add, pow_one]
    omega
  | succ l =>
    have htop := h.top_lt hm hp hl
    have hpow : m ^ (l + 1) ≤ 2 * 65536 := by
      have hdouble : m * m ^ l ≤ 2 * (m - 1) * m ^ l := Nat.mul_le_mul_right _ (by omega)
      rw [Nat.mul_assoc] at hdouble
      rw [pow_succ']
      omega
    calc m ^ (l + 1 + 1) = m ^ (l + 1) * m := pow_succ m _
      _ ≤ 2 * 65536 * 255 := Nat.mul_le_mul hpow hm2.2
      _ ≤ 2 ^ 32 := by norm_num

variable {q : Pos}

theorem NumbersFit.table_lt (hq : q ∈ tablePositions m p) : q.number < 65536 := by
  have hfits := h.fits hm hp
  have hqv := (tablePositions_valid hm hfits hp hq).1
  obtain ⟨hlevel, hnumber⟩ := (mem_tablePositions hm hfits hp).mp hq
  refine h.2 q hqv hlevel ?_
  rcases hnumber with hnumber | hnumber
  · exact .inr hnumber.2
  · exact .inl hnumber.2.2

theorem NumbersFit.exact_table (hq : q ∈ tableLayout m p) : q.Valid m ∧ Exact m q := by
  have hq := mem_tableLayout.mp hq
  have hfits := h.fits hm hp
  obtain ⟨hqv, hlevel⟩ := tablePositions_valid hm hfits hp hq
  have hlt := Fits.level_lt hm hfits
  exact ⟨hqv, by omega, (Nat.div_le_self _ _).trans_lt (h.table_lt hm hp hq)⟩

theorem NumbersFit.exact_tableChild (hq : q ∈ tableChildLayout m p) : q.Valid m ∧ Exact m q := by
  have hfits := h.fits hm hp
  have hlt := Fits.level_lt hm hfits
  obtain ⟨r, hr, hq⟩ := mem_tableChildLayout.mp hq
  obtain ⟨hrv, hlevel⟩ := tablePositions_valid hm hfits hp hr
  obtain ⟨hql, hdiv⟩ := (mem_childPositions_iff_div hm).mp hq
  exact ⟨(childPositions_valid hrv hq).2, by omega, hdiv ▸ h.table_lt hm hp hr⟩

omit hp h in
theorem untied_of_exact {positions : List Pos} (h : ∀ {r}, r ∈ positions → r.Valid m ∧ Exact m r)
    (hq : q ∈ positions) : Untied m positions q := fun _ hr heq =>
  horizontalValue_injective (isFanoutValid_iff.mp hm).1 (h hr).1 (h hr).2 (h hq).1 (h hq).2 heq

end NumbersFit

/-! ### Neighbors of a view -/

/-- An adjacent on the left is none, or a node whose horizontal value is
smaller than the own one. -/
def LeftOf (m : ℕ) (p : Pos) (n : NodeInfo) : Prop :=
  n = .none ∨ n.isInitialized = true ∧ n.horizontalValue m < horizontalValue m p

def RightOf (m : ℕ) (p : Pos) (n : NodeInfo) : Prop :=
  n = .none ∨ n.isInitialized = true ∧ horizontalValue m p < n.horizontalValue m

/-- An adjacent after the update of a node. -/
def updatedAdjacent (n adjacent : NodeInfo) : NodeInfo :=
  if adjacent.logical = n.logical then n else adjacent

/-- An adjacent after the removal of a position. -/
def removedAdjacent (q : Pos) (adjacent : NodeInfo) : NodeInfo :=
  if adjacent.logical = some q then .none else adjacent

section Adjacents

variable {m : ℕ} {p q : Pos} {left right : NodeInfo}

theorem LeftOf.lt (h : LeftOf m p left) (hq : left.logical = some q) :
    horizontalValue m q < horizontalValue m p := by
  rcases h with rfl | ⟨-, hlt⟩
  · cases hq
  · rwa [NodeInfo.horizontalValue_of_logical hq] at hlt

theorem RightOf.lt (h : RightOf m p right) (hq : right.logical = some q) :
    horizontalValue m p < horizontalValue m q := by
  rcases h with rfl | ⟨-, hlt⟩
  · cases hq
  · rwa [NodeInfo.horizontalValue_of_logical hq] at hlt

/-- A position is not on both sides. -/
theorem LeftOf.right_ne (hleft : LeftOf m p left) (hright : RightOf m p right)
    (hq : left.logical = some q) : right.logical ≠ some q :=
  fun hq' => lt_asymm (hleft.lt hq) (hright.lt hq')

theorem LeftOf.reset (h : LeftOf m p left) :
    (if left.isInitialized then NodeInfo.none else left) = .none := by
  rcases h with rfl | ⟨hinit, -⟩
  · rfl
  · rw [if_pos hinit]

theorem RightOf.reset (h : RightOf m p right) :
    (if right.isInitialized then NodeInfo.none else right) = .none := by
  rcases h with rfl | ⟨hinit, -⟩
  · rfl
  · rw [if_pos hinit]

end Adjacents

namespace RoutingInformation

section Tables

variable {m : ℕ} (hm : isFanoutValid m = true) {p : Pos} (hp : p.Valid m)
  (hfit : NumbersFit m p) (address : Address) (v : Pos → Option Address)
  (left right : NodeInfo)
include hm hp hfit

variable {q : Pos}

/-- The binary search of the table finds the slot of a position, and changes
nothing for a position without a slot. -/
theorem setNeighbor_of_numbersFit (hlevel : q.level = p.level) (x y : Option Address) :
    { ofView m p address v left right with
      routingTableNeighbors := setAtLowerBound m ⟨some q, y⟩ x
        (ofView m p address v left right).routingTableNeighbors } =
      ofView m p address (update v q x) left right :=
  setNeighbor_ofView hm (hfit.fits hm hp) hp _ _ _ _ hlevel
    (untied_of_exact hm (hfit.exact_table hm hp)) x y

theorem setNeighborChild_of_numbersFit (hlevel : q.level = p.level + 1)
    (hchild : q ∉ childPositions m p) (x y : Option Address) :
    { ofView m p address v left right with
      routingTableNeighborChildren := setAtLowerBound m ⟨some q, y⟩ x
        (ofView m p address v left right).routingTableNeighborChildren } =
      ofView m p address (update v q x) left right :=
  setNeighborChild_ofView hm (hfit.fits hm hp) hp _ _ _ _ hlevel hchild
    (untied_of_exact hm (hfit.exact_tableChild hm hp)) x y

/-- A child, or a child of a routing table neighbor, is reset. -/
theorem resetChildOrRoutingTableNeighborChild_of_numbersFit (hlevel : q.level = p.level + 1)
    (y : Option Address) :
    (ofView m p address v left right).resetChildOrRoutingTableNeighborChild m ⟨some q, y⟩ =
      .ok (ofView m p address (update v q none) left right) := by
  have hfits := hfit.fits hm hp
  have hself : (ofView m p address v left right).selfNodeInfo.number = p.number := rfl
  have hchildren : (ofView m p address v left right).children =
      (childPositions m p).map (slot v) := rfl
  rw [resetChildOrRoutingTableNeighborChild, if_neg (by simp),
    if_neg (not_not_intro (by exact hlevel)), hself, NodeInfo.number_mk]
  split_ifs with hdiv
  · have hq : q ∈ childPositions m p := (mem_childPositions_iff_div hm).mpr ⟨hlevel, hdiv⟩
    split
    next child hfind =>
      obtain ⟨hinit, hlogical⟩ : child.isInitialized = true ∧ child.logical = some q := by
        simpa using List.find?_some hfind
      have hnumber : child.number = q.number := by
        rw [NodeInfo.number, NodeInfo.pos_of_logical hlogical]
      rw [hnumber, resetChild_ofView hm hfits hp _ _ _ _ hq]
    next hfind =>
      -- the slot is empty already
      have hempty : v q = none := by
        rw [hchildren, List.find?_eq_none] at hfind
        simpa using hfind (slot v q) (List.mem_map_of_mem hq)
      rw [← hempty, update_eq_self]
  · have hchild : q ∉ childPositions m p := fun h => hdiv ((mem_childPositions_iff_div hm).mp h).2
    rw [← setNeighborChild_of_numbersFit hm hp hfit _ _ _ _ hlevel hchild _ y]
    rfl

end Tables

section Neighbors

variable {m : ℕ} {p : Pos} (address : Address) (v : Pos → Option Address)
  {left right : NodeInfo}

theorem updateAdjacents_ofView (hleft : LeftOf m p left) (hright : RightOf m p right) (q : Pos)
    (b : Address) :
    (ofView m p address v left right).updateAdjacents m ⟨some q, some b⟩ =
      .ok (ofView m p address v (updatedAdjacent ⟨some q, some b⟩ left)
        (updatedAdjacent ⟨some q, some b⟩ right)) := by
  have hadjacents : (ofView m p address v left right).adjacentLeft = left ∧
      (ofView m p address v left right).adjacentRight = right := ⟨rfl, rfl⟩
  rw [updateAdjacents, hadjacents.1, hadjacents.2, updatedAdjacent, updatedAdjacent]
  by_cases hl : left.logical = some q
  · have hr : right.logical ≠ some q := hleft.right_ne hright hl
    rw [if_pos hl, if_pos hl, if_neg hr]
    exact setAdjacentLeft_ofView m p address v left right rfl (hleft.lt hl)
  · rw [if_neg hl, if_neg hl]
    by_cases hr : right.logical = some q
    · rw [if_pos hr, if_pos hr]
      exact setAdjacentRight_ofView m p address v left right rfl (hright.lt hr)
    · rw [if_neg hr, if_neg hr]
      rfl

theorem removeAdjacents_ofView (hleft : LeftOf m p left) (hright : RightOf m p right) (q : Pos)
    (y : Option Address) :
    (ofView m p address v left right).removeAdjacents ⟨some q, y⟩ =
      .ok (ofView m p address v (removedAdjacent q left) (removedAdjacent q right)) := by
  have hadjacents : (ofView m p address v left right).adjacentLeft = left ∧
      (ofView m p address v left right).adjacentRight = right := ⟨rfl, rfl⟩
  rw [removeAdjacents, hadjacents.1, hadjacents.2, removedAdjacent, removedAdjacent]
  by_cases hl : left.logical = some q
  · have hr : right.logical ≠ some q := hleft.right_ne hright hl
    rw [if_pos hl, if_pos hl, if_neg hr, resetAdjacentLeft_ofView, hleft.reset]
  · rw [if_neg hl, if_neg hl]
    by_cases hr : right.logical = some q
    · rw [if_pos hr, if_pos hr, resetAdjacentRight_ofView, hright.reset]
    · rw [if_neg hr, if_neg hr]
      rfl

/-- The slots are on three levels, and the parent's is the only one above. -/
theorem eq_parent_of_isSlot {q : Pos} (h : IsSlot m p q) (hsame : q.level ≠ p.level)
    (hbelow : q.level ≠ p.level + 1) : p.level ≠ 0 ∧ q = p.parent m := by
  cases h with
  | parent h0 => exact ⟨h0, rfl⟩
  | child h => exact absurd (mem_childPositions.mp h).1 hbelow
  | neighbor h => exact absurd (level_of_mem_tablePositions h) hsame
  | neighborChild hr h =>
    rw [← level_of_mem_tablePositions hr] at hbelow
    exact absurd (mem_childPositions.mp h).1 hbelow

variable (hm : isFanoutValid m = true) (hp : p.Valid m) (hfit : NumbersFit m p)
  (left right)
include hm hp hfit

/-- The parent has been updated before. -/
theorem updateByLevel_ofView (q : Pos) (b : Address)
    (hq : p.level ≠ 0 → q = p.parent m → v q = some b) :
    (ofView m p address v left right).updateByLevel m ⟨some q, some b⟩ =
      .ok (ofView m p address (update v q (some b)) left right) := by
  have hfits := hfit.fits hm hp
  have hself : (ofView m p address v left right).selfNodeInfo = ⟨some p, some address⟩ := rfl
  rw [updateByLevel, hself, NodeInfo.level_mk, NodeInfo.level_mk, NodeInfo.pos_mk,
    NodeInfo.number_mk, Fits.calcChildren_eq hm hfits hp]
  split_ifs with hsame hbelow
  · rw [← setNeighbor_of_numbersFit hm hp hfit _ _ _ _ hsame _ (some b)]
    rfl
  · show (if (childPositions m p).any (fun c => c.number = q.number) = true then _ else _) = _
    have hany : (childPositions m p).any (fun c => c.number = q.number) = true ↔
        q ∈ childPositions m p := by
      simp only [List.any_eq_true, decide_eq_true_eq]
      constructor
      · rintro ⟨c, hc, hnumber⟩
        have hcq : c = q :=
          Pos.ext_iff'.mpr ⟨(mem_childPositions.mp hc).1.trans hbelow.symm, hnumber⟩
        exact hcq ▸ hc
      · exact fun h => ⟨q, h, rfl⟩
    simp only [hany]
    split_ifs with hchild
    · exact setChild_ofView hm hfits hp _ _ _ _ hchild b
    · rw [← setNeighborChild_of_numbersFit hm hp hfit _ _ _ _ hbelow hchild _ (some b)]
      rfl
  · have hsame : update v q (some b) = v ∨ ¬ IsSlot m p q := by
      by_cases hparent : p.level ≠ 0 ∧ q = p.parent m
      · exact .inl (by rw [← hq hparent.1 hparent.2, update_eq_self])
      · exact .inr fun h => hparent (eq_parent_of_isSlot h hsame hbelow)
    rcases hsame with heq | hnot
    · rw [heq]
      rfl
    · rw [ofView_update_of_not_isSlot _ _ _ _ hnot]
      rfl

omit hm hp hfit in
/-- Only the slot of the parent is changed, and only for its position. -/
theorem updateParent_ofView (q : Pos) (b : Address) :
    ∃ w, (ofView m p address v left right).updateParent ⟨some q, some b⟩ =
        .ok (ofView m p address w left right) ∧
      (p.level ≠ 0 → q = p.parent m → w q = some b) ∧
      update w q (some b) = update v q (some b) := by
  have hparent : (ofView m p address v left right).parent =
      if p.level = 0 then .none else slot v (p.parent m) := rfl
  rw [updateParent, hparent]
  by_cases hq : p.level ≠ 0 ∧ q = p.parent m
  · obtain ⟨h0, rfl⟩ := hq
    refine ⟨update v (p.parent m) (some b), ?_, ?_, update_idem _ _ _⟩
    · rw [if_neg h0, if_pos (slot_logical v _)]
      exact setParent_ofView _ _ _ _ h0 b
    · exact fun _ _ => update_self _ _ _
  · refine ⟨v, ?_, fun h0 h => absurd ⟨h0, h⟩ hq, rfl⟩
    rw [if_neg]
    · rfl
    · split_ifs with h0
      · rintro ⟨⟩
      · rw [slot_logical]
        exact fun h => hq ⟨h0, (Option.some.inj h).symm⟩

/-- An initialized node is put into all the slots of its position. -/
theorem updateNeighbor_of_numbersFit (hleft : LeftOf m p left) (hright : RightOf m p right)
    (q : Pos) (b : Address) :
    (ofView m p address v left right).updateNeighbor m ⟨some q, some b⟩ =
      .ok (ofView m p address (update v q (some b))
        (updatedAdjacent ⟨some q, some b⟩ left) (updatedAdjacent ⟨some q, some b⟩ right)) := by
  rw [updateNeighbor_eq _ _ rfl, updateAdjacents_ofView _ _ hleft hright]
  obtain ⟨w, hparent, hw, hupdate⟩ := updateParent_ofView address v
    (updatedAdjacent ⟨some q, some b⟩ left) (updatedAdjacent ⟨some q, some b⟩ right) q b
  show ((ofView m p address v _ _).updateParent ⟨some q, some b⟩ >>= _) = _
  rw [hparent, ← hupdate]
  exact updateByLevel_ofView _ _ _ _ hm hp hfit q b hw

/-- Removing a node empties all the slots of its position. -/
theorem removeNeighbor_of_numbersFit (hleft : LeftOf m p left) (hright : RightOf m p right)
    {q : Pos} (hq : (ofView m p address v left right).parent.logical ≠ some q)
    (y : Option Address) :
    (ofView m p address v left right).removeNeighbor m ⟨some q, y⟩ =
      .ok (ofView m p address (update v q none) (removedAdjacent q left)
        (removedAdjacent q right)) := by
  rw [removeNeighbor_eq, if_neg hq, removeAdjacents_ofView _ _ hleft hright]
  show removeByLevel m (ofView m p address v (removedAdjacent q left) (removedAdjacent q right))
    ⟨some q, y⟩ = _
  have hself : (ofView m p address v (removedAdjacent q left)
    (removedAdjacent q right)).selfNodeInfo = ⟨some p, some address⟩ := rfl
  rw [removeByLevel, hself, NodeInfo.level_mk, NodeInfo.level_mk]
  split_ifs with hsame hbelow
  · rw [← setNeighbor_of_numbersFit hm hp hfit _ _ _ _ hsame _ y]
    rfl
  · exact resetChildOrRoutingTableNeighborChild_of_numbersFit hm hp hfit _ _ _ _ hbelow y
  · have hnot : ¬ IsSlot m p q := by
      intro h
      obtain ⟨h0, rfl⟩ := eq_parent_of_isSlot h hsame hbelow
      have hparent : (ofView m p address v left right).parent = slot v (p.parent m) := if_neg h0
      exact hq (hparent ▸ slot_logical v _)
    rw [ofView_update_of_not_isSlot _ _ _ _ hnot]
    rfl

end Neighbors

end RoutingInformation

/-! ### Nodes without an address

No call on the slots reads the own address. -/

namespace RoutingInformation

/-- The same slots for a node with another address, or with none. -/
def withAddress (address : Option Address) (ri : RoutingInformation) : RoutingInformation :=
  { ri with selfNodeInfo := ⟨ri.selfNodeInfo.logical, address⟩ }

def IgnoresAddress (f : RoutingInformation → Except String RoutingInformation) : Prop :=
  ∀ address ri, f (ri.withAddress address) = withAddress address <$> f ri

namespace IgnoresAddress

variable {f g : RoutingInformation → Except String RoutingInformation}

theorem pure : IgnoresAddress Pure.pure := fun _ _ => rfl

theorem bind (hf : IgnoresAddress f) (hg : IgnoresAddress g) :
    IgnoresAddress fun ri => f ri >>= g := by
  intro address ri
  show f (ri.withAddress address) >>= g = _
  rw [hf, bind_map_left, map_bind]
  exact bind_congr fun ri => hg address ri

theorem ite {c : RoutingInformation → Prop} [DecidablePred c]
    (hc : ∀ address ri, c (ri.withAddress address) = c ri) (hf : IgnoresAddress f)
    (hg : IgnoresAddress g) : IgnoresAddress fun ri => if c ri then f ri else g ri := by
  intro address ri
  simp only [hc, hf address ri, hg address ri]
  rw [apply_ite (withAddress address <$> ·)]

/-- A computation before, which only reads slots. -/
theorem read {α : Type} {r : RoutingInformation → Except String α}
    {h : α → RoutingInformation → Except String RoutingInformation}
    (hr : ∀ address ri, r (ri.withAddress address) = r ri)
    (hh : ∀ a, IgnoresAddress (h a)) : IgnoresAddress fun ri => r ri >>= fun a => h a ri := by
  intro address ri
  show (r (ri.withAddress address) >>= fun a => h a (ri.withAddress address)) = _
  rw [hr, map_bind]
  exact bind_congr fun a => hh a address ri

variable {address : Option Address} {ri ri' : RoutingInformation}

theorem ok (hf : IgnoresAddress f) (h : f ri = .ok ri') :
    f (ri.withAddress address) = .ok (ri'.withAddress address) := by
  rw [hf, h]
  rfl

theorem eq_of_ok (hf : IgnoresAddress f) (h : f (ri.withAddress address) = .ok ri') :
    ∃ ri₁, f ri = .ok ri₁ ∧ ri' = ri₁.withAddress address := by
  rw [hf] at h
  cases hri : f ri with
  | error e =>
    rw [hri] at h
    cases h
  | ok ri₁ =>
    rw [hri] at h
    exact ⟨ri₁, rfl, (Except.ok.inj h).symm⟩

end IgnoresAddress

theorem init_withAddress (m : ℕ) (p : Pos) (address : Option Address) :
    init m p address = withAddress address <$> init m p (some 0) := by
  simp only [init, map_bind, map_pure]
  rfl

theorem ignoresAddress_perform (m : ℕ) (op : SlotOperation) :
    IgnoresAddress fun ri => op.perform m ri := by
  intro address ri
  cases op <;>
    simp only [SlotOperation.perform, setParent, setChild, setAdjacentLeft, setAdjacentRight,
      resetAdjacentLeft, resetAdjacentRight, updateRoutingTableNeighbor,
      updateRoutingTableNeighborChild, resetRoutingTableNeighbor,
      resetRoutingTableNeighborChild, resetChild, apply_ite (withAddress address <$> ·)] <;>
    rfl

section IgnoresAddress

variable (m : ℕ) (n : NodeInfo)

theorem ignoresAddress_updateNeighbor (hn : n.isInitialized = true) :
    IgnoresAddress fun ri => ri.updateNeighbor m n := by
  have hadjacents : IgnoresAddress fun ri => ri.updateAdjacents m n :=
    .ite (fun _ _ => rfl) (ignoresAddress_perform m (.setAdjacentLeft n))
      (.ite (fun _ _ => rfl) (ignoresAddress_perform m (.setAdjacentRight n)) .pure)
  have hparent : IgnoresAddress fun ri => ri.updateParent n :=
    .ite (fun _ _ => rfl) (ignoresAddress_perform m (.setParent n)) .pure
  have hlevel : IgnoresAddress fun ri => ri.updateByLevel m n :=
    .ite (fun _ _ => rfl) (ignoresAddress_perform m (.updateRoutingTableNeighbor n))
      (.ite (fun _ _ => rfl) (.read (fun _ _ => rfl) fun positions =>
        .ite (fun _ _ => rfl) (ignoresAddress_perform m (.setChild n (n.number % m)))
          (ignoresAddress_perform m (.updateRoutingTableNeighborChild n))) .pure)
  simp only [updateNeighbor_eq m _ hn]
  exact hadjacents.bind (hparent.bind hlevel)

theorem ignoresAddress_resetChildOrRoutingTableNeighborChild :
    IgnoresAddress fun ri => ri.resetChildOrRoutingTableNeighborChild m n := by
  refine .ite (fun _ _ => rfl) (fun _ _ => rfl) (.ite (fun _ _ => rfl) (fun _ _ => rfl)
    (.ite (fun _ _ => rfl) (fun address ri => ?_)
      (ignoresAddress_perform m (.resetRoutingTableNeighborChild n))))
  have hchildren : (ri.withAddress address).children = ri.children := rfl
  simp only [hchildren]
  cases ri.children.find? fun c => c.isInitialized && c.logical = n.logical with
  | none => rfl
  | some child => exact ignoresAddress_perform m (.resetChild _) address ri

theorem ignoresAddress_removeNeighbor : IgnoresAddress fun ri => ri.removeNeighbor m n := by
  have hadjacents : IgnoresAddress fun ri => ri.removeAdjacents n :=
    .ite (fun _ _ => rfl) (ignoresAddress_perform m .resetAdjacentLeft)
      (.ite (fun _ _ => rfl) (ignoresAddress_perform m .resetAdjacentRight) .pure)
  have hlevel : IgnoresAddress fun ri => ri.removeByLevel m n :=
    .ite (fun _ _ => rfl) (ignoresAddress_perform m (.resetRoutingTableNeighbor n))
      (.ite (fun _ _ => rfl) (ignoresAddress_resetChildOrRoutingTableNeighborChild m n) .pure)
  simp only [removeNeighbor_eq]
  exact .ite (fun _ _ => rfl) (fun _ _ => rfl) (hadjacents.bind hlevel)

end IgnoresAddress

end RoutingInformation

/-! ### Views of whole runs -/

namespace RoutingObject

open RoutingInformation (ofView withAddress)

/-- The own position is `p`, and the slots have been initialized for it:
`setPosition` clears the slots of a node without an address. -/
structure PositionedAt (s : RoutingObject) (p : Pos) : Prop where
  position : s.info.selfNodeInfo.logical = some p
  slots : s.info.selfNodeInfo.physical = none → s.info.children ≠ []

variable {s : RoutingObject} {p : Pos} {ri : RoutingInformation}

theorem PositionedAt.of_self {address : Address}
    (h : s.info.selfNodeInfo = ⟨some p, some address⟩) : s.PositionedAt p := by
  refine ⟨congrArg NodeInfo.logical h, fun hnone => ?_⟩
  rw [h] at hnone
  cases hnone

/-- The slots show a view. -/
def ShowsView (s : RoutingObject) (p : Pos) : Prop :=
  ∃ v left right, LeftOf s.fanout p left ∧ RightOf s.fanout p right ∧
    s.info = (ofView s.fanout p 0 v left right).withAddress s.info.selfNodeInfo.physical

theorem showsView_of_init {m : ℕ} {address : Option Address}
    (h : init m p address = .ok ri) (hm : isFanoutValid m = true)
    (hp : p.Valid m) (hfit : NumbersFit m p) : ShowsView ⟨m, ri⟩ p := by
  rw [init_withAddress,
    init_eq_ofView hm (hfit.fits hm hp) hp 0] at h
  obtain rfl := Except.ok.inj h
  exact ⟨fun _ => none, .none, .none, .inl rfl, .inl rfl, rfl⟩

section Adjacents

variable {m : ℕ} {p : Pos} {ri ri' : RoutingInformation} {op : SlotOperation} {n : NodeInfo}
  (h : op.perform m ri = .ok ri') (hp : ri.selfNodeInfo.logical = some p)
include h hp

/-- A new adjacent is on its side of the node. -/
theorem leftOf_of_newLeft (hn : op.newLeft = some n) : LeftOf m p n := by
  cases op with
  | setAdjacentLeft adjacent =>
    obtain rfl := Option.some.inj hn
    have hinit := initialized_of_setAdjacentLeft h
    simp only [SlotOperation.perform, setAdjacentLeft] at h
    split_ifs at h with _ _ hge
    rw [NodeInfo.horizontalValue_of_logical hp] at hge
    exact .inr ⟨hinit, not_le.mp hge⟩
  | resetAdjacentLeft => exact .inl (Option.some.inj hn).symm
  | _ => cases hn

theorem rightOf_of_newRight (hn : op.newRight = some n) : RightOf m p n := by
  cases op with
  | setAdjacentRight adjacent =>
    obtain rfl := Option.some.inj hn
    have hinit := initialized_of_setAdjacentRight h
    simp only [SlotOperation.perform, setAdjacentRight] at h
    split_ifs at h with _ _ hge
    rw [NodeInfo.horizontalValue_of_logical hp] at hge
    exact .inr ⟨hinit, not_le.mp hge⟩
  | resetAdjacentRight => exact .inl (Option.some.inj hn).symm
  | _ => cases hn

end Adjacents

/-- One operation changes the view at one position, or an adjacent. -/
theorem ShowsView.perform {m : ℕ} {ri' : RoutingInformation} {op : SlotOperation}
    (hm : isFanoutValid m = true) (hp : p.Valid m) (hfit : NumbersFit m p)
    (hs : ShowsView ⟨m, ri⟩ p) (h : op.perform m ri = .ok ri') : ShowsView ⟨m, ri'⟩ p := by
  obtain ⟨v, left, right, hleft, hright, hri⟩ := hs
  change ri = withAddress ri.selfNodeInfo.physical (ofView m p 0 v left right) at hri
  generalize ri.selfNodeInfo.physical = address at hri
  subst hri
  obtain ⟨ri₁, hop, rfl⟩ := (ignoresAddress_perform m op).eq_of_ok h
  have heffect := SlotOperation.effect hm (hfit.fits hm hp) hp hop
  generalize op.report m (ofView m p 0 v left right) = reported at heffect
  cases heffect with
  | nothing => exact ⟨v, left, right, hleft, hright, rfl⟩
  | slot => exact ⟨_, left, right, hleft, hright, rfl⟩
  | left hn _ => exact ⟨v, _, right, leftOf_of_newLeft hop rfl hn, hright, rfl⟩
  | right hn _ => exact ⟨v, left, _, hleft, rightOf_of_newRight hop rfl hn, rfl⟩

/-- Objects without slots, and objects whose slots show a view as long as
numbers are small. -/
def ClearedOrShowsView (s : RoutingObject) : Prop :=
  (s.Cleared ∧ s.info.selfNodeInfo.isInitialized = false) ∨
  (s.Built ∧ ∀ p, s.info.selfNodeInfo.logical = some p → NumbersFit s.fanout p → s.ShowsView p)

theorem Built.valid (h : s.Built) (hp : s.info.selfNodeInfo.logical = some p) :
    isFanoutValid s.fanout = true ∧ p.Valid s.fanout := by
  obtain ⟨q, hq, hvalid⟩ := h.position
  obtain rfl : q = p := Option.some.inj (hq.symm.trans hp)
  have hm := isFanoutValid_of_isPositionValid hvalid
  exact ⟨hm, (isPositionValid_iff hm).mp hvalid⟩

theorem clearedOrShowsView_of_init {fanout : ℕ}
    (h : ∃ p address, init fanout p address = .ok s.info ∧
      s.fanout = fanout) : s.ClearedOrShowsView := by
  have hbuilt := Built.of_init h
  refine .inr ⟨hbuilt, fun p hp hfit => ?_⟩
  obtain ⟨hm, hvalid⟩ := hbuilt.valid hp
  obtain ⟨q, address, h, rfl⟩ := h
  rw [self_of_init h] at hp
  obtain rfl : q = p := Option.some.inj hp
  exact showsView_of_init h hm hvalid hfit

theorem Reachable.clearedOrShowsView (h : s.Reachable) : s.ClearedOrShowsView := by
  refine h.invariant (fun fanout self s₀ h => ?_) (fun s _ => .inl ⟨⟨rfl, rfl, rfl⟩, rfl⟩)
    (fun s fanout position s' _ h => ?_) (fun fanout ri op ri' hs h => ?_)
  · rcases construct_cases h with ⟨hs, hnone⟩ | hinit
    · exact .inl ⟨hs, by simp [NodeInfo.isInitialized, hnone]⟩
    · exact clearedOrShowsView_of_init hinit
  · rcases setPosition_cases h with hs | hinit
    · exact .inl hs
    · exact clearedOrShowsView_of_init hinit
  · have hself := (SlotOperation.sameShape h).self
    rcases hs with ⟨hs, hnone⟩ | ⟨hs, hview⟩
    · exact .inl ⟨hs.perform h, by simpa only [hself] using hnone⟩
    · refine .inr ⟨hs.perform h, fun p hp hfit => ?_⟩
      simp only [hself] at hp
      obtain ⟨hm, hvalid⟩ := hs.valid hp
      exact (hview p hp hfit).perform hm hvalid hfit h

/-- Every object with slots shows a view. -/
theorem Reachable.showsView (h : s.Reachable) (hs : s.PositionedAt p)
    (hfit : NumbersFit s.fanout p) :
    isFanoutValid s.fanout = true ∧ p.Valid s.fanout ∧ s.ShowsView p := by
  rcases h.clearedOrShowsView with ⟨hcleared, hinit⟩ | ⟨hbuilt, hview⟩
  · have hnone : s.info.selfNodeInfo.physical = none := by
      simpa [NodeInfo.isInitialized, hs.position] using hinit
    exact absurd hcleared.children (hs.slots hnone)
  · obtain ⟨hm, hvalid⟩ := hbuilt.valid hs.position
    exact ⟨hm, hvalid, hview p hs.position hfit⟩

end RoutingObject

/-! ### Slot by slot -/

/-- Two contents of the same slots, where `R` relates what was in a slot before
to what is in it afterwards. -/
structure RoutingInformation.SlotBySlot (R : NodeInfo → NodeInfo → Prop)
    (ri ri' : RoutingInformation) : Prop where
  self : ri'.selfNodeInfo = ri.selfNodeInfo
  startIndex : ri'.rightTableNeighborStartIndex = ri.rightTableNeighborStartIndex
  parent : R ri.parent ri'.parent
  adjacentLeft : R ri.adjacentLeft ri'.adjacentLeft
  adjacentRight : R ri.adjacentRight ri'.adjacentRight
  children : List.Forall₂ R ri.children ri'.children
  neighbors : List.Forall₂ R ri.routingTableNeighbors ri'.routingTableNeighbors
  neighborChildren :
    List.Forall₂ R ri.routingTableNeighborChildren ri'.routingTableNeighborChildren

/-- The slots at the position of `n` hold `n`, the others are unchanged. -/
def Updated (n x x' : NodeInfo) : Prop :=
  x' = if x.logical = n.logical then n else x

/-- The slots at `q` are not initialized, the others are unchanged. -/
def Removed (q : Pos) (x x' : NodeInfo) : Prop :=
  if x.logical = some q then x'.isInitialized = false else x' = x

theorem RoutingInformation.slotBySlot_ofView {R : NodeInfo → NodeInfo → Prop} {m : ℕ} {p : Pos}
    {address : Option Address} {v w : Pos → Option Address} {left right left' right' : NodeInfo}
    (hnone : R .none .none) (hslot : ∀ q, R (slot v q) (slot w q)) (hleft : R left left')
    (hright : R right right') :
    SlotBySlot R ((ofView m p 0 v left right).withAddress address)
      ((ofView m p 0 w left' right').withAddress address) := by
  have hslots : ∀ positions : List Pos,
      List.Forall₂ R (positions.map (slot v)) (positions.map (slot w)) := by
    intro positions
    rw [List.forall₂_map_left_iff, List.forall₂_map_right_iff]
    exact List.forall₂_same.mpr fun q _ => hslot q
  refine ⟨rfl, rfl, ?_, hleft, hright, hslots _, hslots _, hslots _⟩
  show R (if p.level = 0 then .none else slot v (p.parent m))
    (if p.level = 0 then .none else slot w (p.parent m))
  split_ifs
  · exact hnone
  · exact hslot _

theorem updated_slot (v : Pos → Option Address) (q : Pos) (b : Address) (r : Pos) :
    Updated ⟨some q, some b⟩ (slot v r) (slot (update v q (some b)) r) := by
  unfold Updated
  rw [slot_logical]
  by_cases h : r = q
  · rw [if_pos (by rw [h]), slot, h, update_self]
  · rw [if_neg (by simpa using h), slot, update_of_ne h, slot]

theorem removed_slot (v : Pos → Option Address) (q r : Pos) :
    Removed q (slot v r) (slot (update v q none) r) := by
  unfold Removed
  rw [slot_logical]
  by_cases h : r = q
  · rw [if_pos (by rw [h]), slot, h, update_self]
    rfl
  · rw [if_neg (by simpa using h), slot, update_of_ne h, slot]

theorem removed_removedAdjacent (q : Pos) (adjacent : NodeInfo) :
    Removed q adjacent (removedAdjacent q adjacent) := by
  unfold Removed removedAdjacent
  split_ifs
  · rfl
  · rfl

/-- Updates and removals of neighbors return, and they touch exactly the slots
of the position they are called with. -/
theorem RoutingObject.Reachable.neighbors_slotBySlot {s : RoutingObject} (h : s.Reachable)
    {p : Pos} (hs : s.PositionedAt p) (hfit : NumbersFit s.fanout p) :
    (∀ n : NodeInfo, n.isInitialized = true →
      ∃ ri, s.info.updateNeighbor s.fanout n = .ok ri ∧ s.info.SlotBySlot (Updated n) ri) ∧
    (∀ (n : NodeInfo) (q : Pos), n.logical = some q → s.info.parent.logical ≠ some q →
      ∃ ri, s.info.removeNeighbor s.fanout n = .ok ri ∧ s.info.SlotBySlot (Removed q) ri) := by
  obtain ⟨hm, hp, v, left, right, hleft, hright, hinfo⟩ := h.showsView hs hfit
  generalize s.info.selfNodeInfo.physical = address at hinfo
  rw [hinfo]
  constructor
  · rintro ⟨_ | q, _ | b⟩ hn
    · cases hn
    · cases hn
    · cases hn
    refine ⟨_, (ignoresAddress_updateNeighbor _ _ hn).ok
      (updateNeighbor_of_numbersFit 0 v left right hm hp hfit
        hleft hright q b), ?_⟩
    exact slotBySlot_ofView rfl (updated_slot v q b) rfl rfl
  · rintro ⟨logical, y⟩ q hq hparent
    obtain rfl : logical = some q := hq
    refine ⟨_, (ignoresAddress_removeNeighbor _ _).ok
      (removeNeighbor_of_numbersFit 0 v left right hm hp hfit
        hleft hright hparent y), ?_⟩
    exact slotBySlot_ofView rfl (removed_slot v q)
      (removed_removedAdjacent q left) (removed_removedAdjacent q right)

theorem numbersFit_two_one : NumbersFit 2 ⟨1, 1⟩ := by
  refine ⟨by decide, fun q hq hlevel _ => ?_⟩
  have hlt : q.number < 2 ^ 1 := by
    have hvalid : q.number < 2 ^ q.level := hq
    rwa [hlevel] at hvalid
  omega

/-- The node 1:1 learns that 1:0 exists, and that it has left. -/
theorem neighbors_slotBySlot_joined :
    ∃ s : RoutingObject, s.Reachable ∧ s.info.selfNodeInfo = ⟨some ⟨1, 1⟩, some 1⟩ ∧
      (∃ ri, s.info.updateNeighbor 2 ⟨some ⟨1, 0⟩, some 2⟩ = .ok ri ∧
        s.info.SlotBySlot (Updated ⟨some ⟨1, 0⟩, some 2⟩) ri) ∧
      (∃ ri, s.info.removeNeighbor 2 (.ofPos ⟨1, 0⟩) = .ok ri ∧
        s.info.SlotBySlot (Removed ⟨1, 0⟩) ri) := by
  obtain ⟨⟨fanout, info⟩, hrun, rfl, hself, hparent⟩ : ∃ s : RoutingObject,
      Transitions.Reachable step (fun _ _ => True) ⟨2, .unconnected 1⟩ s ∧
        s.fanout = 2 ∧ s.info.selfNodeInfo = ⟨some ⟨1, 1⟩, some 1⟩ ∧
        s.info.parent.logical ≠ some ⟨1, 0⟩ :=
    Transitions.exists_reachable_of_run [.setPosition 2 (some ⟨1, 1⟩)] (by decide +kernel)
  have hreach : Reachable ⟨2, info⟩ := ⟨2, ⟨none, some 1⟩, _, rfl, hrun⟩
  have hs : PositionedAt ⟨2, info⟩ ⟨1, 1⟩ := .of_self hself
  have hlaw := Reachable.neighbors_slotBySlot hreach hs numbersFit_two_one
  exact ⟨_, hreach, hself, hlaw.1 _ rfl, hlaw.2 _ _ rfl hparent⟩

end Sola.Minhton
