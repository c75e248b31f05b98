import Mathlib.Data.List.GetD
import Sola.Lib.Transitions
import Sola.Minhton.DsnHandler

/-!
Temporary DSNs.

A node above the missing position of a DSN takes over the part of its cover
area that lies on the level of the children.  The positions below that level
are meant to be removed from the list, but `erase` is called with a single
iterator and removes one of them.
-/

namespace Sola.Minhton

open Sola.Lib Action Sola.Lib.MaryTree RoutingInformation List Except

/-! ### The shape of a cover area -/

variable {m : ℕ} {p : Pos}

theorem calcChildren_shape {children : List Pos} (h : calcChildren m p = .ok children) :
    children.length = m ∧ ∀ q ∈ children, q.level = p.level + 1 := by
  unfold calcChildren at h
  split_ifs at h
  refine ⟨by rw [length_of_mapM_ok h, length_range], fun q hq => ?_⟩
  obtain ⟨i, -, hi⟩ := exists_of_mapM_ok h hq
  unfold calcChild at hi
  simp only at hi
  split_ifs at hi
  obtain rfl := ok.inj hi
  rfl

/-- Whatever the numbers are, the area of a DSN consists of positions of its
level, followed by at least its own children. -/
theorem getCoverArea_shape {dsnSet : List ℕ} {area : List Pos} (h0 : p.level ≠ 0)
    (hset : getDSNSet m p.level = .ok dsnSet) (hp : p.number ∈ dsnSet)
    (harea : getCoverArea m p = .ok area) :
    ∃ own below, area = own ++ below ∧ (∀ q ∈ own, q.level = p.level) ∧
      (∀ q ∈ below, q.level = p.level + 1) ∧ m ≤ below.length := by
  unfold getCoverArea at harea
  rw [if_neg fun h => h0 h.1, hset] at harea
  cases hindex : dsnSet.idxOf? p.number with
  | none =>
    rw [idxOf?, findIdx?_eq_none_iff] at hindex
    have := hindex p.number hp
    simp at this
  | some index =>
    simp only [bind, Except.bind, hindex] at harea
    obtain ⟨covered, hcovered, harea⟩ := bind_eq_ok.mp harea
    obtain ⟨children, hchildren, harea⟩ := bind_eq_ok.mp harea
    obtain rfl := ok.inj harea
    obtain ⟨hlength, hlevel⟩ := calcChildren_shape hchildren
    refine ⟨_, covered.flatten ++ children, append_assoc .., fun q hq => ?_,
      fun q hq => ?_, by simp [hlength]⟩
    · obtain ⟨n, -, rfl⟩ := mem_map.mp hq
      rfl
    · rcases mem_append.mp hq with hq | hq
      · obtain ⟨l, hl, hq⟩ := mem_flatten.mp hq
        obtain ⟨r, hr, hl⟩ := exists_of_mapM_ok hcovered hl
        obtain ⟨n, -, rfl⟩ := mem_map.mp hr
        exact (calcChildren_shape hl).2 q hq
      · exact hlevel q hq

/-- On an even level the covering DSN is a DSN of the level. -/
theorem getCoveringDSN_mem {dsn : Pos} (heven : p.level % 2 = 0)
    (h : getCoveringDSN m p = .ok dsn) :
    dsn.level = p.level ∧ ∃ dsnSet, getDSNSet m p.level = .ok dsnSet ∧ dsn.number ∈ dsnSet := by
  unfold getCoveringDSN coveringLevel at h
  rw [if_pos heven] at h
  cases hset : getDSNSet m p.level with
  | error e => simp [hset, bind, Except.bind] at h
  | ok dsnSet =>
    simp only [hset, bind, Except.bind, pure, Except.pure] at h
    have hlower : ∀ {lower rest}, dsnSet.dropWhile (· < p.number) = lower :: rest →
        lower ∈ dsnSet := fun hdrop =>
      (dropWhile_sublist _).subset (hdrop ▸ mem_cons_self)
    have hprior : ∀ {before more}, dsnSet.takeWhile (· < p.number) = before :: more →
        (before :: more).getLastD 0 ∈ dsnSet := fun {before more} htake => by
      have hlast : (before :: more).getLastD 0 ∈ before :: more := by
        rw [getLastD_cons]
        exact getLastD_mem_cons
      exact (takeWhile_sublist _).subset (by rw [htake]; exact hlast)
    split at h
    · cases h
    · rename_i hdrop
      obtain rfl := ok.inj h
      exact ⟨rfl, dsnSet, rfl, hlower hdrop⟩
    · rename_i htake hdrop
      split_ifs at h
      · obtain rfl := ok.inj h
        exact ⟨rfl, dsnSet, rfl, hlower hdrop⟩
      · obtain rfl := ok.inj h
        exact ⟨rfl, dsnSet, rfl, hlower hdrop⟩
      · obtain rfl := ok.inj h
        exact ⟨rfl, dsnSet, rfl, hprior htake⟩

namespace DsnNode

/-- Of the elements to be removed at the end of a list, the first one goes. -/
theorem eraseRemoveIf_append {pred : Pos → Bool} {kept removed : List Pos}
    (hkept : ∀ q ∈ kept, pred q = false) (hremoved : ∀ q ∈ removed, pred q = true) :
    eraseRemoveIf pred (kept ++ removed) = kept ++ removed.drop 1 := by
  have hfilter : (kept ++ removed).filter (fun q => !pred q) = kept := by
    rw [filter_append, filter_eq_self.mpr (by simpa using hkept),
      filter_eq_nil_iff.mpr (by simpa using hremoved), append_nil]
  unfold eraseRemoveIf
  simp only [hfilter, drop_append, Nat.add_sub_cancel_left]
  rw [drop_of_length_le (by omega), nil_append]

/-- The positions that `buildTempCoverArea` enters. -/
def tempCoverArea (m : ℕ) (ri : RoutingInformation) : Except String (List Pos) := do
  let firstChild ← ri.getChild m 0
  let dsn ← getCoveringDSN m firstChild.pos
  let area ← getCoverArea m dsn
  return eraseRemoveIf (fun p => p.level ≠ firstChild.level) area

variable {m : ℕ} {s : DsnNode} {ri : RoutingInformation}

theorem buildTempCoverArea_positions {positions : List Pos}
    (h : tempCoverArea m s.routingInfo = .ok positions) :
    (buildTempCoverArea m s).1.handler.coverAreaPositions = positions := by
  obtain ⟨firstChild, hchild, h⟩ := bind_eq_ok.mp h
  obtain ⟨dsn, hdsn, h⟩ := bind_eq_ok.mp h
  obtain ⟨area, harea, h⟩ := bind_eq_ok.mp h
  obtain rfl := ok.inj h
  unfold buildTempCoverArea onHandler
  simp only [get_bind_run, hchild, lift_ok_bind_run, hdsn, harea,
    modify_bind_run]
  cases enterKnown m s.routingInfo s.handler.coverData
    (eraseRemoveIf (fun p => p.level ≠ firstChild.level) area) <;> rfl

/-! ### The children are on the next level -/

/-- Every slot for a child is on the level below. -/
def ChildrenBelow (ri : RoutingInformation) : Prop :=
  ∀ c ∈ ri.children, c.level = ri.selfNodeInfo.level + 1

theorem init_childrenBelow {p : Pos} {address : Option Address} (h : init m p address = .ok ri) :
    ChildrenBelow ri := by
  unfold init initChildren at h
  obtain ⟨parent, -, h⟩ := bind_eq_ok.mp h
  obtain ⟨children, hchildren, h⟩ := bind_eq_ok.mp h
  obtain ⟨left, -, h⟩ := bind_eq_ok.mp h
  obtain ⟨right, -, h⟩ := bind_eq_ok.mp h
  obtain ⟨neighborChildren, -, h⟩ := bind_eq_ok.mp h
  obtain ⟨positions, hpositions, hchildren⟩ := bind_eq_ok.mp hchildren
  obtain rfl := ok.inj h
  obtain rfl := ok.inj hchildren
  intro c hc
  obtain ⟨q, hq, rfl⟩ := mem_map.mp hc
  exact (calcChildren_shape hpositions).2 q hq

/-- A child is replaced by one of the same position. -/
theorem childrenBelow_set (h : ChildrenBelow ri) {i : ℕ} {c : NodeInfo}
    (hc : c.logical = (ri.children.getD i .none).logical) :
    ChildrenBelow { ri with children := ri.children.set i c } := by
  intro d hd
  rcases mem_or_eq_of_mem_set hd with hold | rfl
  · exact h d hold
  · by_cases hi : i < ri.children.length
    · have hold := h _ (getElem_mem hi)
      rw [getD_eq_getElem _ _ hi] at hc
      have hlevel : d.level = ri.children[i].level := by
        unfold NodeInfo.level NodeInfo.pos
        rw [hc]
      rw [hlevel]
      exact hold
    · rw [set_eq_of_length_le (by omega)] at hd
      exact h d hd

theorem perform_childrenBelow {ri' : RoutingInformation} (h : ChildrenBelow ri)
    {op : SlotOperation} (hop : op.perform m ri = .ok ri') : ChildrenBelow ri' := by
  cases op with
  | setParent parent =>
    simp only [SlotOperation.perform, setParent] at hop
    split_ifs at hop
    obtain rfl := ok.inj hop
    exact h
  | setChild child position =>
    simp only [SlotOperation.perform, setChild] at hop
    split_ifs at hop with _ _ hlogical
    obtain rfl := ok.inj hop
    exact childrenBelow_set h (not_not.mp hlogical).symm
  | setAdjacentLeft adjacent =>
    simp only [SlotOperation.perform, setAdjacentLeft] at hop
    split_ifs at hop
    obtain rfl := ok.inj hop
    exact h
  | setAdjacentRight adjacent =>
    simp only [SlotOperation.perform, setAdjacentRight] at hop
    split_ifs at hop
    obtain rfl := ok.inj hop
    exact h
  | resetAdjacentLeft =>
    simp only [SlotOperation.perform, resetAdjacentLeft] at hop
    split_ifs at hop <;> (obtain rfl := ok.inj hop; exact h)
  | resetAdjacentRight =>
    simp only [SlotOperation.perform, resetAdjacentRight] at hop
    split_ifs at hop <;> (obtain rfl := ok.inj hop; exact h)
  | updateRoutingTableNeighbor n =>
    simp only [SlotOperation.perform, updateRoutingTableNeighbor] at hop
    split_ifs at hop
    obtain rfl := ok.inj hop
    exact h
  | updateRoutingTableNeighborChild n =>
    simp only [SlotOperation.perform,
      updateRoutingTableNeighborChild] at hop
    split_ifs at hop
    obtain rfl := ok.inj hop
    exact h
  | resetRoutingTableNeighbor n =>
    simp only [SlotOperation.perform, resetRoutingTableNeighbor] at hop
    split_ifs at hop
    obtain rfl := ok.inj hop
    exact h
  | resetRoutingTableNeighborChild n =>
    simp only [SlotOperation.perform,
      resetRoutingTableNeighborChild] at hop
    split_ifs at hop
    obtain rfl := ok.inj hop
    exact h
  | resetChild position =>
    simp only [SlotOperation.perform, resetChild] at hop
    split_ifs at hop
    obtain rfl := ok.inj hop
    exact childrenBelow_set h rfl

theorem step_childrenBelow {s' : DsnNode} {e : Event} (h : ChildrenBelow s.routingInfo)
    (hstep : step m s e = some s') : ChildrenBelow s'.routingInfo := by
  rcases step_routingInfo hstep with hsame | ⟨q, -, hset⟩ | ⟨-, hreset⟩ | ⟨op, -, hop⟩
  · rw [hsame]
    exact h
  · unfold setPosition at hset
    split_ifs at hset
    · exact init_childrenBelow hset
    · rw [← ok.inj hset]
      intro c hc
      cases hc
  · rw [hreset]
    intro c hc
    cases hc
  · exact perform_childrenBelow h hop

theorem start_childrenBelow (h : IsStart m s) : ChildrenBelow s.routingInfo := by
  have hconstruct : Keeps DsnNode.routingInfo (construct m) :=
    (keeps_checkPosition m).bind fun _ => keeps_onHandler _
  obtain ⟨address, rfl | ⟨ri, hri, rfl⟩⟩ := h
  · unfold start
    rw [hconstruct]
    intro c hc
    cases hc
  · unfold start
    rw [hconstruct]
    exact init_childrenBelow hri

/-! ### The area of a temporary DSN -/

/-- A temporary DSN is above a level of DSNs. -/
theorem level_of_areWeTempDSN (h : ri.areWeTempDSN m = .ok true) :
    (ri.selfNodeInfo.level + 1) % 2 = 0 ∧ ri.children ≠ [] := by
  unfold areWeTempDSN at h
  obtain ⟨weAre, -, h⟩ := bind_eq_ok.mp h
  split_ifs at h
  · cases h
  · obtain ⟨dsnSet, hset, h⟩ := bind_eq_ok.mp h
    have hany := ok.inj h
    obtain ⟨child, hchild, hdsn⟩ := any_eq_true.mp hany
    refine ⟨?_, ne_nil_of_mem hchild⟩
    by_contra hodd
    unfold getDSNSet at hset
    rw [if_pos (by omega)] at hset
    obtain rfl := ok.inj hset
    simp at hdsn

/-- Positions below the level of the children stay in the area. -/
theorem exists_below_level (hm : isFanoutValid m = true) (hbelow : ChildrenBelow s.routingInfo)
    (htemp : s.routingInfo.areWeTempDSN m = .ok true) {firstChild : NodeInfo} {dsn : Pos}
    {area : List Pos} (hchild : s.routingInfo.getChild m 0 = .ok firstChild)
    (hdsn : getCoveringDSN m firstChild.pos = .ok dsn) (harea : getCoverArea m dsn = .ok area) :
    ∃ q ∈ (buildTempCoverArea m s).1.handler.coverAreaPositions,
      q.level ≠ firstChild.level := by
  have hm2 : 2 ≤ m := (isFanoutValid_iff.mp hm).1
  obtain ⟨heven, hne⟩ := level_of_areWeTempDSN htemp
  have hfirst : firstChild.level = s.routingInfo.selfNodeInfo.level + 1 := by
    unfold getChild at hchild
    split_ifs at hchild
    obtain rfl := ok.inj hchild
    rw [getD_eq_getElem _ _ (length_pos_of_ne_nil hne)]
    exact hbelow _ (getElem_mem _)
  have hfirst' : firstChild.pos.level = firstChild.level := rfl
  obtain ⟨hlevel, dsnSet, hset, hmem⟩ := getCoveringDSN_mem (by rw [hfirst', hfirst]; exact heven)
    hdsn
  obtain ⟨own, below, rfl, hown, hbelowLevel, hlength⟩ :=
    getCoverArea_shape (by omega) (hlevel ▸ hset) hmem harea
  have herase : eraseRemoveIf (fun q => decide (q.level ≠ firstChild.level)) (own ++ below) =
      own ++ below.drop 1 := by
    refine eraseRemoveIf_append (fun q hq => ?_) fun q hq => ?_
    · simp [hown q hq, hlevel, hfirst']
    · have := hbelowLevel q hq
      simp only [decide_eq_true_eq]
      omega
  have hbuilt : (buildTempCoverArea m s).1.handler.coverAreaPositions = own ++ below.drop 1 := by
    refine buildTempCoverArea_positions ?_
    simp only [tempCoverArea, hchild, hdsn, harea, bind, Except.bind, pure, Except.pure, herase]
  obtain ⟨q, hq⟩ := exists_mem_of_ne_nil (below.drop 1)
    (ne_nil_of_length_pos (by rw [length_drop]; omega))
  refine ⟨q, by rw [hbuilt]; exact mem_append_right _ hq, ?_⟩
  have := hbelowLevel q (mem_of_mem_drop hq)
  omega

/-- No node that is a temporary DSN covers what it should. -/
theorem tempCoverArea_never_filtered {m : ℕ} (hm : isFanoutValid m = true) {s₀ s : DsnNode}
    (hstart : IsStart m s₀) (hrun : Transitions.Reachable (step m) (fun _ _ => True) s₀ s)
    (htemp : s.routingInfo.areWeTempDSN m = .ok true) :
    ¬ ∃ firstChild dsn area, s.routingInfo.getChild m 0 = .ok firstChild ∧
      getCoveringDSN m firstChild.pos = .ok dsn ∧ getCoverArea m dsn = .ok area ∧
      (buildTempCoverArea m s).1.handler.coverAreaPositions.Nodup ∧
      ∀ q, q ∈ (buildTempCoverArea m s).1.handler.coverAreaPositions ↔
        q ∈ area ∧ q.level = firstChild.level := by
  rintro ⟨firstChild, dsn, area, hchild, hdsn, harea, -, hexact⟩
  have hbelow : ChildrenBelow s.routingInfo := hrun.invariant
    (I := fun s => ChildrenBelow s.routingInfo) (start_childrenBelow hstart)
    fun _ _ _ h _ hstep => step_childrenBelow h hstep
  obtain ⟨q, hq, hne⟩ := exists_below_level hm hbelow htemp hchild hdsn harea
  exact hne ((hexact q).mp hq).2

/-- In the tree of `0:0`, `1:0`, `1:1` and `2:0` the node `1:1` stands in for
`2:2`, and seven positions of level 3 stay in its area. -/
theorem tempCoverArea_keeps_level_three :
    ∃ s₀ s, IsStart 2 s₀ ∧ Transitions.Reachable (step 2) (fun _ _ => True) s₀ s ∧
      s.routingInfo.areWeTempDSN 2 = .ok true ∧
      s.routingInfo.getChild 2 0 = .ok ⟨some ⟨2, 2⟩, none⟩ ∧
      getCoveringDSN 2 ⟨2, 2⟩ = .ok ⟨2, 2⟩ ∧
      (buildTempCoverArea 2 s).2 = .ok () ∧
      (buildTempCoverArea 2 s).1.handler.coverAreaPositions =
        [⟨2, 0⟩, ⟨2, 1⟩, ⟨2, 3⟩, ⟨3, 1⟩, ⟨3, 2⟩, ⟨3, 3⟩, ⟨3, 6⟩, ⟨3, 7⟩, ⟨3, 4⟩, ⟨3, 5⟩] := by
  have hrun : ∃ s, Transitions.Reachable (step 2) (fun _ _ => True)
      (start 2 (.unconnected 1)) s ∧
      (s.routingInfo.areWeTempDSN 2 = .ok true ∧
        s.routingInfo.getChild 2 0 = .ok ⟨some ⟨2, 2⟩, none⟩ ∧
        getCoveringDSN 2 ⟨2, 2⟩ = .ok ⟨2, 2⟩ ∧ (buildTempCoverArea 2 s).2 = .ok () ∧
        (buildTempCoverArea 2 s).1.handler.coverAreaPositions =
          [⟨2, 0⟩, ⟨2, 1⟩, ⟨2, 3⟩, ⟨3, 1⟩, ⟨3, 2⟩, ⟨3, 3⟩, ⟨3, 6⟩, ⟨3, 7⟩, ⟨3, 4⟩, ⟨3, 5⟩]) :=
    Transitions.exists_reachable_of_run
      [.setPosition ⟨1, 1⟩, .change (.setParent ⟨some ⟨0, 0⟩, some 2⟩),
        .change (.updateRoutingTableNeighbor ⟨some ⟨1, 0⟩, some 3⟩),
        .change (.updateRoutingTableNeighborChild ⟨some ⟨2, 0⟩, some 4⟩)] (by decide +kernel)
  obtain ⟨s, hreach, hP⟩ := hrun
  exact ⟨_, s, ⟨1, Or.inl rfl⟩, hreach, hP⟩

theorem tempCoverArea_never_filtered_levelOne :
    ∃ s₀ s, IsStart 2 s₀ ∧ Transitions.Reachable (step 2) (fun _ _ => True) s₀ s ∧
      s.routingInfo.areWeTempDSN 2 = .ok true ∧
      ¬ ∃ firstChild dsn area, s.routingInfo.getChild 2 0 = .ok firstChild ∧
        getCoveringDSN 2 firstChild.pos = .ok dsn ∧ getCoverArea 2 dsn = .ok area ∧
        (buildTempCoverArea 2 s).1.handler.coverAreaPositions.Nodup ∧
        ∀ q, q ∈ (buildTempCoverArea 2 s).1.handler.coverAreaPositions ↔
          q ∈ area ∧ q.level = firstChild.level := by
  have hrun : ∃ s, Transitions.Reachable (step 2) (fun _ _ => True)
      (start 2 (.unconnected 1)) s ∧ s.routingInfo.areWeTempDSN 2 = .ok true :=
    Transitions.exists_reachable_of_run
      [.setPosition ⟨1, 1⟩, .change (.updateRoutingTableNeighborChild ⟨some ⟨2, 0⟩, some 4⟩)]
      (by decide +kernel)
  obtain ⟨s, hreach, htemp⟩ := hrun
  exact ⟨_, s, ⟨1, Or.inl rfl⟩, hreach, htemp,
    tempCoverArea_never_filtered (by decide) ⟨1, Or.inl rfl⟩ hreach htemp⟩

end DsnNode

end Sola.Minhton
