import Sola.Minhton.EntitySearch

/-!
A find starts once on every level of DSNs.

The deepest level is estimated from the adjacents: an in-order neighbor of a
node with all its children is a node that misses one, so it is on one of the
two deepest levels.  A single node sends the query twice to itself.
-/

namespace Sola.Minhton

open Sola.Lib Sola.Lib.MaryTree List RoutingInformation
open RoutingInformation (ofView)

/-- The targets are different positions of even levels, one on each even
level that holds a node. -/
structure OncePerLevel (m N : ℕ) (dsns : List NodeInfo) : Prop where
  distinct : (dsns.map NodeInfo.pos).Nodup
  even : ∀ n ∈ dsns, n.level % 2 = 0
  unique : ∀ L, L % 2 = 0 → (∃ q, Complete m N q ∧ q.level = L) →
    ∃! n, n ∈ dsns ∧ n.level = L

namespace RoutingInformation

theorem knownMaxLevel_eq (ri : RoutingInformation) :
    ri.knownMaxLevel =
      max (max ri.adjacentLeft.level ri.adjacentRight.level) ri.selfNodeInfo.level := by
  unfold knownMaxLevel
  simp only
  split_ifs <;> omega

end RoutingInformation

/-! ### The estimate of the deepest level -/

section Depth

variable {m N D count : ℕ} (hm : 2 ≤ m) (hcount : count ≤ m ^ D)
  (hN : N = levelStart m D + count)
include hcount hN

theorem complete_of_level_lt {q : Pos} (hq : q.Valid m) (hl : q.level < D) :
    Complete m N q := by
  rw [hN, complete_iff hcount]
  exact ⟨hq, Or.inl hl⟩

theorem level_le_of_complete {q : Pos} (hq : Complete m N q) : q.level ≤ D := by
  rw [hN, complete_iff hcount] at hq
  omega

include hm in
/-- A node that is not on the two deepest levels has its in-order predecessor
there. -/
theorem pred_level {p : Pos} (hp : p.Valid m) (hl : p.level + 1 < D) {pred : Option Pos}
    (hpred : IsPred m (Complete m N) p pred) : ∃ q, pred = some q ∧ D ≤ q.level + 1 := by
  have hchild : Complete m N (p.child m 0) :=
    complete_of_level_lt hcount hN (hp.child (by omega)) hl
  cases pred with
  | none => exact absurd ((child_before_iff hm p 0).mpr (half_pos hm)) (hpred _ hchild)
  | some q =>
    refine ⟨q, rfl, ?_⟩
    by_contra hlt
    have hq : Complete m N q := hpred.1
    refine (hpred.below hm hchild).2 (complete_of_level_lt hcount hN ?_ ?_)
    · exact hq.1.child (half_lt hm)
    · simp only [Pos.child_level]
      omega

end Depth

variable {m : ℕ} {ri : RoutingInformation}

/-- A tree of two nodes or more: the estimate is one of the two deepest levels
and not the root's. -/
theorem knownMaxLevel_bounds {N D count : ℕ} (hm : isFanoutValid m = true) (h2 : 2 ≤ N)
    (hcount : count ≤ m ^ D) (hN : N = levelStart m D + count) {p : Pos} (hp : Complete m N p)
    {address : Pos → Address} {pred succ : Option Pos} (hpred : IsPred m (Complete m N) p pred)
    (hsucc : IsSucc m (Complete m N) p succ)
    (hri : ri = ofView m p (address p) (treeView m N address)
      (adjacentSlot address pred) (adjacentSlot address succ)) :
    D ≤ ri.knownMaxLevel + 1 ∧ ri.knownMaxLevel ≤ D ∧ 0 < ri.knownMaxLevel := by
  have hm2 := (isFanoutValid_iff.mp hm).1
  have hself : ri.selfNodeInfo.level = p.level := by rw [hri]; rfl
  have hleft : ri.adjacentLeft = adjacentSlot address pred := by rw [hri]; rfl
  have hright : ri.adjacentRight = adjacentSlot address succ := by rw [hri]; rfl
  have hadjacent : ∀ o : Option Pos, (∀ q, o = some q → Complete m N q) →
      (adjacentSlot address o).level ≤ D := by
    intro o ho
    cases o with
    | none => exact Nat.zero_le _
    | some q => exact level_le_of_complete hcount hN (ho q rfl)
  have hpredLe : (adjacentSlot address pred).level ≤ D := hadjacent pred fun q hq => by
    subst hq
    exact hpred.1
  have hsuccLe : (adjacentSlot address succ).level ≤ D := hadjacent succ fun q hq => by
    subst hq
    exact hsucc.1
  have hpLe := level_le_of_complete hcount hN hp
  rw [knownMaxLevel_eq, hself, hleft, hright]
  refine ⟨?_, by omega, ?_⟩
  · by_cases hl : p.level + 1 < D
    · obtain ⟨q, rfl, hq⟩ := pred_level hm2 hcount hN hp.1 hl hpred
      have hlevel : (adjacentSlot address (some q)).level = q.level := rfl
      omega
    · omega
  · by_cases hl : p.level = 0
    · -- the root has a first child, which comes before it
      have hroot : p = ⟨0, 0⟩ := by
        have hlt : p.number < m ^ p.level := hp.1
        rw [hl, pow_zero] at hlt
        exact Pos.ext_iff'.mpr ⟨hl, by simpa using hlt⟩
      subst hroot
      have hchild : Complete m N ((⟨0, 0⟩ : Pos).child m 0) := by
        refine ⟨Pos.Valid.child hp.1 (by omega), ?_⟩
        show levelStart m 1 + (0 * m + 0) < N
        simp only [levelStart, pow_zero]
        omega
      cases pred with
      | none =>
        exact absurd ((child_before_iff hm2 _ 0).mpr (half_pos hm2)) (hpred _ hchild)
      | some q =>
        have hbelow := (hpred.below hm2 hchild).1
        have hlevel : (adjacentSlot address (some q)).level = q.level := rfl
        omega
    · omega

/-! ### The targets -/

theorem initialDsnOn_level (weAreDsn : Bool) {level : ℕ} {dsnSet : List ℕ}
    (hset : getDSNSet m level = .ok dsnSet) :
    ∃ n, ri.initialDsnOn m weAreDsn level = .ok n ∧ n.level = level := by
  unfold initialDsnOn
  split_ifs with hself
  · exact ⟨_, rfl, hself.1⟩
  · rw [hset]
    simp only [bind, Except.bind]
    split_ifs
    · exact ⟨_, rfl, rfl⟩
    · exact ⟨_, rfl, rfl⟩

/-- The levels of the targets are `0`, `2` and so on, up to the deepest known
level or the one below it. -/
theorem initial_levels (hmax : 0 < ri.knownMaxLevel)
    (hset : ∀ level ≤ ri.knownMaxLevel, ∃ dsnSet, getDSNSet m level = .ok dsnSet)
    (hself : ri.selfNodeInfo.level ≤ ri.knownMaxLevel) :
    ∃ dsns, ri.calcDSNsToSendInitialCDSForwardingTo m = .ok dsns ∧
      dsns.map NodeInfo.level = range' 0 ((ri.knownMaxLevel - 1) / 2 + 2) 2 := by
  obtain ⟨ownSet, hown⟩ := hset _ hself
  unfold calcDSNsToSendInitialCDSForwardingTo
  simp only [hown, bind, Except.bind]
  generalize (!ownSet.isEmpty && ownSet.contains ri.selfNodeInfo.number) = weAreDsn
  have hmiddle : ∀ level ∈ range' 2 ((ri.knownMaxLevel - 1) / 2) 2,
      ∃ n, ri.initialDsnOn m weAreDsn level = .ok n ∧ n.level = level := by
    intro level hlevel
    obtain ⟨i, hi, rfl⟩ := mem_range'.mp hlevel
    obtain ⟨dsnSet, hdsnSet⟩ := hset (2 + 2 * i) (by omega)
    exact initialDsnOn_level weAreDsn hdsnSet
  obtain ⟨middle, hrun, hlevels⟩ := exists_mapM_ok hmiddle
  rw [hrun]
  refine ⟨_, rfl, ?_⟩
  have hfirst : (if ri.selfNodeInfo.level ≠ 0 then NodeInfo.ofPos ⟨0, 0⟩
      else ri.selfNodeInfo).level = 0 := by
    split_ifs with h
    · rfl
    · exact not_not.mp h
  have hlast : (if ri.knownMaxLevel % 2 = 0 then
      if ri.selfNodeInfo.level = ri.knownMaxLevel ∧ weAreDsn = true then ri.selfNodeInfo
      else NodeInfo.ofPos ⟨ri.knownMaxLevel, if ri.knownMaxLevel = 0 then 0 else m⟩
      else NodeInfo.ofPos ⟨ri.knownMaxLevel + 1, m⟩).level =
      2 + 2 * ((ri.knownMaxLevel - 1) / 2) := by
    split_ifs with heven hown hzero
    · rw [hown.1]
      omega
    · omega
    · show ri.knownMaxLevel = _
      omega
    · show ri.knownMaxLevel + 1 = _
      omega
  rw [map_cons, map_append, map_singleton, hlevels, hfirst, hlast,
    range'_succ, range'_concat]

/-- Targets with these levels are one per level. -/
theorem oncePerLevel_of_levels {N k : ℕ} {dsns : List NodeInfo}
    (hlevels : dsns.map NodeInfo.level = range' 0 (k + 1) 2)
    (hdepth : ∀ q, Complete m N q → q.level ≤ 2 * k + 1) : OncePerLevel m N dsns := by
  have hnodup : (dsns.map NodeInfo.level).Nodup := by
    rw [hlevels]
    exact nodup_range' 2
  refine ⟨?_, fun n hn => ?_, fun L hL ⟨q, hq, hqL⟩ => ?_⟩
  · have hcomp : NodeInfo.level = Pos.level ∘ NodeInfo.pos := rfl
    rw [hcomp, ← map_map] at hnodup
    exact hnodup.of_map _
  · have hmem : n.level ∈ range' 0 (k + 1) 2 := hlevels ▸ mem_map_of_mem hn
    obtain ⟨i, -, hi⟩ := mem_range'.mp hmem
    omega
  · have hdeep := hdepth q hq
    have hmem : L ∈ dsns.map NodeInfo.level := by
      rw [hlevels, mem_range']
      exact ⟨L / 2, by omega, by omega⟩
    obtain ⟨n, hn, hnL⟩ := mem_map.mp hmem
    exact ⟨n, ⟨hn, hnL⟩, fun n' hn' =>
      inj_on_of_nodup_map hnodup hn'.1 hn (hn'.2.trans hnL.symm)⟩

theorem eq_root_of_complete_one {q : Pos} (hq : Complete m 1 q) : q = ⟨0, 0⟩ := by
  have hindex : levelStart m q.level + q.number < 1 := hq.2
  have hlevel : q.level = 0 := by
    by_contra h
    have hstart : levelStart m 1 ≤ levelStart m q.level := levelStart_mono (by omega)
    simp only [levelStart, pow_zero] at hstart
    omega
  have hnumber : q.number = 0 := by omega
  exact Pos.ext_iff'.mpr ⟨hlevel, hnumber⟩

/-- A single node sends the query twice to itself. -/
theorem initial_of_one (hm : isFanoutValid m = true) (tree : RoutedTree m 1) :
    ∃ n, n.pos = ⟨0, 0⟩ ∧
      (tree.ri ⟨0, 0⟩).calcDSNsToSendInitialCDSForwardingTo m = .ok [n, n] := by
  have hm2 := isFanoutValid_iff.mp hm
  have hroot : Complete m 1 ⟨0, 0⟩ := ⟨by simp [Pos.Valid], by simp [Pos.index, levelStart]⟩
  have hfits : Fits m 0 := by
    unfold Fits
    rw [Nat.zero_add, pow_one]
    omega
  obtain ⟨pred, succ, hpred, hsucc, hri⟩ := (tree.correct _ hroot).eq_ofView hm hroot.1 hfits
  have hpredNone : pred = none := by
    cases pred with
    | none => rfl
    | some q =>
      have hbefore := hpred.2.1
      rw [eq_root_of_complete_one hpred.1] at hbefore
      exact absurd hbefore (Before.irrefl _)
  have hsuccNone : succ = none := by
    cases succ with
    | none => rfl
    | some q =>
      have hbefore := hsucc.2.1
      rw [eq_root_of_complete_one hsucc.1] at hbefore
      exact absurd hbefore (Before.irrefl _)
  subst hpredNone hsuccNone
  refine ⟨⟨some ⟨0, 0⟩, some (tree.address ⟨0, 0⟩)⟩, rfl, ?_⟩
  have hself : (tree.ri ⟨0, 0⟩).selfNodeInfo =
      ⟨some ⟨0, 0⟩, some (tree.address ⟨0, 0⟩)⟩ := by rw [hri]; rfl
  have hmax : (tree.ri ⟨0, 0⟩).knownMaxLevel = 0 := by rw [hri]; rfl
  have hset : getDSNSet m 0 = .ok [0] := rfl
  unfold calcDSNsToSendInitialCDSForwardingTo
  simp only [hself, hmax, NodeInfo.level_mk, hset]
  rfl

section Targets

variable {m N : ℕ} (hm : isFanoutValid m = true) (tree : RoutedTree m N)
  (hfits : ∀ q, Complete m N q → Fits m q.level) {p : Pos} (hp : Complete m N p)
include hm hfits hp

/-- The deepest level that a node knows of has a node. -/
theorem RoutedTree.exists_knownMaxLevel :
    ∃ q, Complete m N q ∧ q.level = (tree.ri p).knownMaxLevel := by
  obtain ⟨pred, succ, hpred, hsucc, hri⟩ := (tree.correct p hp).eq_ofView hm hp.1 (hfits p hp)
  have hroot : Complete m N ⟨0, 0⟩ := hp.root
  have hadjacent : ∀ o : Option Pos, (∀ q, o = some q → Complete m N q) →
      ∃ q, Complete m N q ∧ q.level = (adjacentSlot tree.address o).level := by
    intro o ho
    cases o with
    | none => exact ⟨_, hroot, rfl⟩
    | some q => exact ⟨q, ho q rfl, rfl⟩
  obtain ⟨left, hleft, hleftLevel⟩ := hadjacent pred fun q hq => by
    subst hq
    exact hpred.1
  obtain ⟨right, hright, hrightLevel⟩ := hadjacent succ fun q hq => by
    subst hq
    exact hsucc.1
  have hself : (tree.ri p).selfNodeInfo.level = p.level := by rw [hri]; rfl
  have hl : (tree.ri p).adjacentLeft.level = left.level := by rw [hri, hleftLevel]; rfl
  have hr : (tree.ri p).adjacentRight.level = right.level := by rw [hri, hrightLevel]; rfl
  rw [knownMaxLevel_eq, hself, hl, hr]
  rcases max_choice (max left.level right.level) p.level with h | h
  · rcases max_choice left.level right.level with h' | h'
    · exact ⟨left, hleft, by omega⟩
    · exact ⟨right, hright, by omega⟩
  · exact ⟨p, hp, h.symm⟩

/-- In a tree of two nodes or more the targets are one per level. -/
theorem RoutedTree.exists_oncePerLevel (h2 : 2 ≤ N) :
    ∃ dsns, (tree.ri p).calcDSNsToSendInitialCDSForwardingTo m = .ok dsns ∧
      OncePerLevel m N dsns := by
  have hm0 : 0 < m := by
    have := isFanoutValid_iff.mp hm
    omega
  obtain ⟨pred, succ, hpred, hsucc, hri⟩ := (tree.correct p hp).eq_ofView hm hp.1 (hfits p hp)
  obtain ⟨P, count, hpos, hcount, hshape⟩ := exists_shape_last hm0 h2
  obtain ⟨hlow, hhigh, hmax⟩ :=
    knownMaxLevel_bounds hm h2 hcount hshape hp hpred hsucc hri
  have hdeepest : Complete m N ⟨P + 1, 0⟩ := by
    rw [hshape, complete_iff hcount]
    exact ⟨Nat.pow_pos hm0, Or.inr ⟨rfl, hpos⟩⟩
  have hdeep : Fits m (P + 1) := hfits _ hdeepest
  have hself : (tree.ri p).selfNodeInfo.level ≤ (tree.ri p).knownMaxLevel := by
    rw [knownMaxLevel_eq]
    exact le_max_right _ _
  obtain ⟨dsns, hrun, hlevels⟩ := initial_levels hmax
    (fun level hlevel => ⟨_, getDSNSet_eq hm (hdeep.mono hm (by omega))⟩) hself
  refine ⟨dsns, hrun, oncePerLevel_of_levels hlevels fun q hq => ?_⟩
  have := level_le_of_complete hcount hshape hq
  omega

/-- Every even level that holds a node has a target. -/
theorem RoutedTree.exists_target {q : Pos} (hq : Complete m N q) (heven : q.level % 2 = 0) :
    ∃ dsns n, (tree.ri p).calcDSNsToSendInitialCDSForwardingTo m = .ok dsns ∧ n ∈ dsns ∧
      n.level = q.level := by
  by_cases h2 : 2 ≤ N
  · obtain ⟨dsns, hrun, honce⟩ := tree.exists_oncePerLevel hm hfits hp h2
    obtain ⟨n, ⟨hn, hlevel⟩, -⟩ := honce.unique q.level heven ⟨q, hq, rfl⟩
    exact ⟨dsns, n, hrun, hn, hlevel⟩
  · have hindex : p.index m < N := hp.2
    obtain rfl : N = 1 := by omega
    obtain rfl := eq_root_of_complete_one hp
    obtain rfl := eq_root_of_complete_one hq
    obtain ⟨n, hn, hrun⟩ := initial_of_one hm tree
    exact ⟨[n, n], n, hrun, mem_cons_self, congrArg Pos.level hn⟩

end Targets

/-- A find starts once on every level of DSNs exactly if the tree has two
nodes or more. -/
theorem find_starts_once_iff {m N : ℕ} (hm : isFanoutValid m = true) (hN : 1 ≤ N)
    (tree : RoutedTree m N) (hfits : ∀ q, Complete m N q → Fits m q.level) {p : Pos}
    (hp : Complete m N p) :
    (∃ dsns, (tree.ri p).calcDSNsToSendInitialCDSForwardingTo m = .ok dsns ∧
      OncePerLevel m N dsns) ↔ 2 ≤ N := by
  refine ⟨?_, tree.exists_oncePerLevel hm hfits hp⟩
  rintro ⟨dsns, hrun, honce⟩
  by_contra hone
  obtain rfl : N = 1 := by omega
  obtain rfl := eq_root_of_complete_one hp
  obtain ⟨n, -, hn⟩ := initial_of_one hm tree
  obtain rfl := Except.ok.inj (hrun.symm.trans hn)
  simpa using honce.distinct

theorem find_starts_once_iff_fourNodes :
    ∃ tree : RoutedTree 2 4,
      (∃ dsns, (tree.ri ⟨2, 0⟩).calcDSNsToSendInitialCDSForwardingTo 2 = .ok dsns ∧
        OncePerLevel 2 4 dsns) ↔ 2 ≤ 4 := by
  have hm : isFanoutValid 2 = true := by decide
  have hL : Fits 2 2 := by unfold Fits; decide
  obtain ⟨tree⟩ : Nonempty (RoutedTree 2 4) := nonempty_routedTree hm (by decide) hL
  exact ⟨tree, find_starts_once_iff hm (by decide) tree
    (fun q hq => hL.mono hm (hq.level_le (by decide))) (by decide)⟩

/-- In the tree of a single node the list holds the root twice. -/
theorem find_starts_twice_alone : Nonempty (RoutedTree 2 1) ∧
    ∀ tree : RoutedTree 2 1, Complete 2 1 ⟨0, 0⟩ ∧
      ∃ n, (tree.ri ⟨0, 0⟩).calcDSNsToSendInitialCDSForwardingTo 2 = .ok [n, n] := by
  have hm : isFanoutValid 2 = true := by decide
  have hL : Fits 2 0 := by unfold Fits; decide
  refine ⟨nonempty_routedTree hm (by decide) hL, fun tree => ⟨by decide, ?_⟩⟩
  obtain ⟨n, -, hn⟩ := initial_of_one hm tree
  exact ⟨n, hn⟩

end Sola.Minhton
