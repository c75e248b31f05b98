import Sola.Lib.Transitions
import Sola.Minhton.EndRuns
import Sola.Minhton.Join

/-!
The hop limit of join and find-replacement requests.

Every hop of a request takes a digit away from a distance on one of the last
two levels, so the number of hops grows with the depth of the tree.  The levels
whose parents have numbers below 65536 are few enough for the limit.  On deeper
levels two nodes can take each other for the rightmost one and hand a request
to and fro.
-/

namespace Sola.Minhton

open Sola.Lib Action Sola.Lib.MaryTree Sola.Lib.Distances Sola.Lib.Transitions RoutingInformation
open List

/-! ### Requests on their way -/

/-- A request that has been forwarded. -/
structure ForwardedRequest where
  sender : NodeInfo
  target : NodeInfo
  progress : SearchProgress

/-- The request that the target of a request forwards.  A request to the
replacement node is not forwarded any more. -/
def nextRequest {m N : ℕ} (tree : RoutedTree m N) (join : Bool) (r : ForwardedRequest) :
    Option ForwardedRequest :=
  if r.target.isInitialized = true ∧ Complete m N r.target.pos ∧
      r.progress ≠ .kReplacementNode then
    let ri := tree.ri r.target.pos
    let decision :=
      if join then ri.processJoinDecision m r.progress
      else ri.processFindReplacementDecision m r.sender r.progress
    match decision with
    | .ok (.forward target progress) => some ⟨ri.selfNodeInfo, target, progress⟩
    | _ => none
  else none

/-- A join request as it arrives at the first node. -/
def joinRequest {m N : ℕ} (tree : RoutedTree m N) (enteringNode : NodeInfo) (p : Pos) :
    ForwardedRequest :=
  ⟨enteringNode, existingNode tree.address p, .kNone⟩

/-- The text of the exception of `forwardRequest`. -/
def hopLimitExceeded : String := "MINHTON message to be forwarded exceeds max hop count"

/-! ### The exception -/

theorem avoids_send (target : NodeInfo) (body : Body) :
    Avoids hopLimitExceeded (send target body) := by
  have hmessage : ∀ msg, Avoids hopLimitExceeded (sendMessage msg) := by
    intro msg
    unfold sendMessage
    refine (avoids_get.bind fun _ => avoids_pure _).bind fun node => ?_
    refine (avoids_throw (by decide)).ite ((avoids_throw (by decide)).ite ?_)
    cases fsmSend node.fsm msg.payload.messageType with
    | none => exact avoids_throw (by decide)
    | some state => exact avoids_modify _
  exact (avoids_get.bind fun _ => avoids_pure _).bind fun _ => hmessage _

theorem avoids_loadEventId (key : EventKey) :
    Avoids hopLimitExceeded (loadEventId key) :=
  (avoids_get.bind fun _ => avoids_pure _).bind fun _ =>
    (avoids_pure _).ite (avoids_throw (by decide))

theorem avoids_removeEventId (key : EventKey) :
    Avoids hopLimitExceeded (removeEventId key) :=
  (avoids_get.bind fun _ => avoids_pure _).bind fun _ =>
    (avoids_modify _).ite (avoids_throw (by decide))

/-- Forwarding throws this exception exactly from the limit on. -/
theorem avoids_forwardRequest_iff {join : Bool} {target requestOrigin : NodeInfo}
    {progress : SearchProgress} {hopCount : ℕ} :
    Avoids hopLimitExceeded
      (forwardRequest join target requestOrigin progress hopCount) ↔
      u16 (hopCount + 1) ≤ kMaxHopCount := by
  unfold forwardRequest
  by_cases hexceeds : u16 (hopCount + 1) > kMaxHopCount
  · rw [if_pos hexceeds]
    refine ⟨fun h => ?_, fun h => by omega⟩
    exact absurd rfl (h ⟨.start (.unconnected 0) .kIdle, []⟩)
  · rw [if_neg hexceeds]
    refine ⟨fun _ => by omega, fun _ => ?_⟩
    cases join with
    | true =>
      exact (avoids_loadEventId _).bind fun _ => (avoids_send _ _).bind fun _ =>
        avoids_removeEventId _
    | false => exact (avoids_send _ _).bind fun _ => avoids_modify _

/-! ### Small trees -/

/-- The levels whose parents have numbers below 65536 are at most 17 deep. -/
theorem Small.level_le {m L : ℕ} (hm : isFanoutValid m = true) (h : Small m L) : L ≤ 17 := by
  have hm2 := isFanoutValid_iff.mp hm
  cases L with
  | zero => omega
  | succ l =>
    have hle : m ^ l ≤ 65536 := by
      unfold Small at h
      rw [pow_succ] at h
      exact Nat.le_of_mul_le_mul_right h (by omega)
    have htwo : 2 ^ l ≤ 2 ^ 16 := le_trans (Nat.pow_le_pow_left hm2.1 l) hle
    have := (Nat.pow_le_pow_iff_right (by omega : 1 < 2)).mp htwo
    omega

section Bounds

variable {m N : ℕ} {tree : RoutedTree m N} {join : Bool} {sender target : NodeInfo}
  {progress : SearchProgress} {p : Pos} {r : ForwardedRequest}

theorem nextRequest_of_forward {q : Pos} {progress' : SearchProgress} (hq : Complete m N q)
    (hne : progress ≠ .kReplacementNode)
    (hdecision : (if join then (tree.ri q).processJoinDecision m progress
      else (tree.ri q).processFindReplacementDecision m sender progress) =
        .ok (.forward target progress')) :
    nextRequest tree join ⟨sender, existingNode tree.address q, progress⟩ =
      some ⟨(tree.ri q).selfNodeInfo, target, progress'⟩ := by
  have hpos : (existingNode tree.address q).pos = q := rfl
  have hinit : (existingNode tree.address q).isInitialized = true := rfl
  simp only [nextRequest, hpos, hinit, hq, ne_eq, hne, not_false_eq_true, and_self, if_true,
    hdecision]

theorem nextRequest_of_accept {q : Pos}
    (hdecision : (tree.ri q).processJoinDecision m progress = .ok .accept) :
    nextRequest tree true ⟨sender, existingNode tree.address q, progress⟩ = none := by
  have hpos : (existingNode tree.address q).pos = q := rfl
  simp only [nextRequest, hpos, hdecision, if_true]
  split_ifs <;> rfl

theorem nextRequest_of_replacementNode :
    nextRequest tree join ⟨sender, target, .kReplacementNode⟩ = none := by
  simp [nextRequest]

/-- A join request makes at most `3 * P + 6` hops, where `P` is the last full level. -/
theorem join_hops_le (hm : isFanoutValid m = true) (hsmall : SmallTree m N) (hp : Complete m N p)
    {enteringNode : NodeInfo} {k : ℕ}
    (hk : after (nextRequest tree true) k (joinRequest tree enteringNode p) = some r) :
    k ≤ kMaxHopCount := by
  have hm2 := (isFanoutValid_iff.mp hm).1
  have hN : 0 < N := lt_of_le_of_lt (Nat.zero_le _) hp.2
  obtain ⟨F, count, hcount, hshape⟩ := exists_shape (by omega : 0 < m) N
  obtain ⟨P, rfl⟩ : ∃ P, F = P + 1 := by
    cases F with
    | zero => simp [levelStart] at hshape hcount; omega
    | succ P => exact ⟨P, rfl⟩
  have hs := tree.showsEverywhere hm hshape hcount.le hsmall
  have hmem : ∀ q, (treeView m N tree.address q).isSome = true ↔ Complete m N q :=
    fun q => treeView_isSome
  have hback : PassedBackWithin m P count (treeView m N tree.address) tree.ri true
      fun k q progress => ∀ sender k' r,
        after (nextRequest tree true) k' ⟨sender, existingNode tree.address q, progress⟩ =
          some r → k' ≤ k := by
    refine ⟨fun progress h sender k' r hk' => ?_, fun k a b progress progress' ha hb h _ hrest
      sender k' r hk' => ?_, fun k k' q progress hle h sender i r hi => ?_⟩
    · exact (eq_zero_of_after (nextRequest_of_accept h) hk').le
    · have hne : progress ≠ .kReplacementNode := by
        rintro rfl
        cases h
      rw [slot_treeView ((hmem b).mp hb)] at h
      have hnext : nextRequest tree true ⟨sender, existingNode tree.address a, progress⟩ =
          some ⟨(tree.ri a).selfNodeInfo, existingNode tree.address b, progress'⟩ :=
        nextRequest_of_forward ((hmem a).mp ha) hne h
      cases k' with
      | zero => exact Nat.zero_le _
      | succ k' =>
        rw [after_succ_of_next hnext] at hk'
        exact Nat.succ_le_succ (hrest _ k' r hk')
    · exact le_trans (h sender i r hi) hle
  have hbound := reaches_end_within hs (fun _ => hcount) (by simp) hback ((hmem p).mpr hp)
    enteringNode k r hk
  have hlevel : Complete m N ⟨P, 0⟩ := by
    rw [hshape, complete_iff hcount.le]
    exact ⟨Nat.pow_pos (by omega), Or.inl (Nat.lt_succ_self P)⟩
  have hP : P ≤ 17 := Small.level_le hm (hsmall _ hlevel)
  unfold kMaxHopCount
  omega

/-- A single node has nobody to send the request to. -/
theorem performFindReplacement_alone (hm : isFanoutValid m = true) (hN : N = 1)
    (hsmall : SmallTree m N) (hp : Complete m N p) :
    (tree.ri p).performFindReplacement m = .ok (.forward .none .kSearchRight) := by
  have hm2 := (isFanoutValid_iff.mp hm).1
  have hshape : N = levelStart m (0 + 1) + 0 := by simp [hN, levelStart]
  have hs := tree.showsEverywhere hm hshape (Nat.zero_le _) hsmall
  have h := hs.shows p (treeView_isSome.mpr hp)
  obtain ⟨hl, hn⟩ : p.level = 0 ∧ p.number = 0 := by
    rw [hshape, complete_iff (Nat.zero_le _)] at hp
    have hlt : p.number < m ^ p.level := hp.1
    have hl : p.level = 0 := by omega
    rw [hl, pow_zero] at hlt
    exact ⟨hl, by omega⟩
  have hchildren : (tree.ri p).initializedChildren = [] := by
    rw [h.initializedChildren, map_eq_nil_iff, filter_eq_nil_iff]
    intro q hq hsome
    obtain ⟨c, -, rfl⟩ := mem_map.mp hq
    have hcomplete := treeView_isSome.mp hsome
    rw [hshape, complete_iff (Nat.zero_le _)] at hcomplete
    simp only [Pos.child_level] at hcomplete
    omega
  have hfull : (tree.ri p).areChildrenFull = false := by
    rw [← Bool.not_eq_true, h.areChildrenFull_iff]
    intro hall
    have hcomplete := treeView_isSome.mp (hall 0 (by omega))
    rw [hshape, complete_iff (Nat.zero_le _)] at hcomplete
    simp only [Pos.child_level] at hcomplete
    omega
  have hleft : (tree.ri p).leftNeighbors = [] := by
    rw [h.leftNeighbors, (leftNumbers_eq_nil_iff h.fanout h.fits h.valid).mpr hn]
    rfl
  have hleftChildren : (tree.ri p).leftNeighborChildren m = [] := by
    obtain ⟨_, _, _, hri⟩ := h.view
    have hdistances : leftDistances m p = [] := by
      have hnil := (leftNumbers_eq_nil_iff h.fanout h.fits h.valid).mpr hn
      simpa [leftNumbers] using hnil
    rw [hri, leftNeighborChildren_eq_map, hdistances]
    simp
  have hright : (tree.ri p).rightmostNeighbor = .none :=
    h.rightmostNeighbor_eq_none (by rw [hl, hn]; simp)
  have hparent : (tree.ri p).parent = .none := by
    obtain ⟨_, _, _, hri⟩ := h.view
    rw [hri]
    simp [ofView, hl]
  simp [performFindReplacement, findEnd, hfull,
    decideNextStep, leftmostNeighborChild, hleftChildren,
    decideFromRight, hright, isCorrectParent, hleft,
    ownCriteria, hchildren, searchEndOnLevel,
    initializedLeftNeighborsAndChildren, h.self_isValidPeer, hparent]
  rfl

theorem performFindReplacement_eq (ri : RoutingInformation) (sender : NodeInfo) :
    ri.performFindReplacement m = ri.processFindReplacementDecision m sender .kNone := by
  simp [performFindReplacement,
    processFindReplacementDecision, findReplacementProgress]

/-- A find-replacement request makes one hop more, to the replacement node. -/
theorem findReplacement_hops_le (hm : isFanoutValid m = true) (hsmall : SmallTree m N)
    (hp : Complete m N p)
    (hstart : (tree.ri p).performFindReplacement m = .ok (.forward target progress)) {k : ℕ}
    (hk : after (nextRequest tree false) k ⟨(tree.ri p).selfNodeInfo, target, progress⟩ =
      some r) : k + 1 ≤ kMaxHopCount := by
  have hm2 := (isFanoutValid_iff.mp hm).1
  have hN : 0 < N := lt_of_le_of_lt (Nat.zero_le _) hp.2
  by_cases hone : N = 1
  · rw [performFindReplacement_alone hm hone hsmall hp] at hstart
    obtain ⟨rfl, rfl⟩ := FindEndDecision.forward.inj (Except.ok.inj hstart)
    have hnone : nextRequest tree false ⟨(tree.ri p).selfNodeInfo, .none, .kSearchRight⟩ = none :=
      rfl
    have := eq_zero_of_after hnone hk
    unfold kMaxHopCount
    omega
  obtain ⟨P, count, hpos, hcount, hshape⟩ :=
    exists_shape_last (by omega : 0 < m) (by omega : 2 ≤ N)
  have hs := tree.showsEverywhere hm hshape hcount hsmall
  have hmem : ∀ q, (treeView m N tree.address q).isSome = true ↔ Complete m N q :=
    fun q => treeView_isSome
  have hend : (treeView m N tree.address ⟨P, endParent m count false⟩).isSome = true :=
    hs.tree.isSome_of_lt (endParent_lt hs.tree (by simp) fun _ => hpos)
  have hback : PassedBackWithin m P count (treeView m N tree.address) tree.ri false
      fun k q progress => ∀ sender,
        (progress = .kSearchRight → q.level = P ∧ q.number ≤ endParent m count false) →
        ∀ k' r, after (nextRequest tree false) k'
          ⟨sender, existingNode tree.address q, progress⟩ = some r → k' ≤ k + 1 := by
    refine ⟨fun progress h sender hright k' r hk' => ?_, fun k a b progress progress' ha hb h
      hright hrest sender hright' k' r hk' => ?_,
      fun k k' q progress hle h sender hright i r hi => ?_⟩
    · have hne : progress ≠ .kReplacementNode := by
        rintro rfl
        cases h
      have hnext : nextRequest tree false
          ⟨sender, existingNode tree.address ⟨P, endParent m count false⟩, progress⟩ = some
            ⟨(tree.ri ⟨P, endParent m count false⟩).selfNodeInfo,
              (tree.ri ⟨P, endParent m count false⟩).initializedChildren.getLastD .none,
              .kReplacementNode⟩ := by
        refine nextRequest_of_forward ((hmem _).mp hend) hne ?_
        show (tree.ri _).processFindReplacementDecision m sender progress = _
        rw [processFindReplacementDecision_eq hs.tree (hs.shows _ hend) hpos sender hright, h]
        rfl
      cases k' with
      | zero => exact Nat.zero_le _
      | succ k' =>
        rw [after_succ_of_next hnext] at hk'
        have := eq_zero_of_after nextRequest_of_replacementNode hk'
        omega
    · have hne : progress ≠ .kReplacementNode := by
        rintro rfl
        cases h
      have hnext : nextRequest tree false ⟨sender, existingNode tree.address a, progress⟩ =
          some ⟨(tree.ri a).selfNodeInfo, existingNode tree.address b, progress'⟩ := by
        refine nextRequest_of_forward ((hmem a).mp ha) hne ?_
        show (tree.ri a).processFindReplacementDecision m sender progress = _
        rw [processFindReplacementDecision_eq hs.tree (hs.shows a ha) hpos sender hright', h,
          slot_treeView ((hmem b).mp hb)]
        rfl
      cases k' with
      | zero => exact Nat.zero_le _
      | succ k' =>
        rw [after_succ_of_next hnext] at hk'
        exact Nat.succ_le_succ (hrest _ hright k' r hk')
    · exact le_trans (h sender hright i r hi) (Nat.succ_le_succ hle)
  have hfirst : nextRequest tree false ⟨.none, existingNode tree.address p, .kNone⟩ =
      some ⟨(tree.ri p).selfNodeInfo, target, progress⟩ := by
    refine nextRequest_of_forward hp (by decide) ?_
    show (tree.ri p).processFindReplacementDecision m .none .kNone = _
    rw [← performFindReplacement_eq, hstart]
  have hbound := reaches_end_within hs (by simp) (fun _ => hpos) hback ((hmem p).mpr hp)
    .none (by simp) (k + 1) r ((after_succ_of_next hfirst k).trans hk)
  have hlevel : Complete m N ⟨P + 1, 0⟩ := by
    rw [hshape, complete_iff hcount]
    exact ⟨Nat.pow_pos (by omega), Or.inr ⟨rfl, hpos⟩⟩
  have hP : P + 1 ≤ 17 := Small.level_le hm (hsmall _ hlevel)
  unfold kMaxHopCount
  omega

end Bounds

/-- In a tree whose parents have numbers below 65536 on every level, the hop
counter of a join or find-replacement request never passes the limit, and no
node that forwards the request throws for this reason. -/
theorem requests_within_hop_limit {m N : ℕ} (hm : isFanoutValid m = true)
    (tree : RoutedTree m N) (hsmall : SmallTree m N) {p : Pos} (hp : Complete m N p) :
    (∀ enteringNode k r r',
      after (nextRequest tree true) k (joinRequest tree enteringNode p) = some r →
      nextRequest tree true r = some r' → k + 1 ≤ kMaxHopCount ∧
        ∀ origin, Avoids hopLimitExceeded
          (forwardRequest true r'.target origin r'.progress k)) ∧
    ∀ target progress,
      (tree.ri p).performFindReplacement m = .ok (.forward target progress) →
      (∀ origin, Avoids hopLimitExceeded
        (forwardRequest false target origin progress 0)) ∧
      ∀ k r r', after (nextRequest tree false) k
          ⟨(tree.ri p).selfNodeInfo, target, progress⟩ = some r →
        nextRequest tree false r = some r' → k + 2 ≤ kMaxHopCount ∧
          ∀ origin, Avoids hopLimitExceeded
            (forwardRequest false r'.target origin r'.progress (k + 1)) := by
  -- a counter up to the limit does not wrap around
  have hcounter : ∀ i, i ≤ kMaxHopCount → u16 i ≤ kMaxHopCount := by
    intro i hi
    unfold kMaxHopCount at hi ⊢
    unfold u16
    omega
  refine ⟨fun enteringNode k r r' hk hnext => ?_, fun target progress hstart => ⟨fun _ => ?_,
    fun k r r' hk hnext => ?_⟩⟩
  · have hle := join_hops_le hm hsmall hp (after_next hk hnext)
    exact ⟨hle, fun _ => avoids_forwardRequest_iff.mpr (hcounter _ hle)⟩
  · exact avoids_forwardRequest_iff.mpr (by decide)
  · have hle := findReplacement_hops_le hm hsmall hp hstart (after_next hk hnext)
    exact ⟨hle, fun _ => avoids_forwardRequest_iff.mpr (hcounter _ hle)⟩

theorem requests_within_hop_limit_fourNodes : ∃ tree : RoutedTree 2 4,
    (∀ enteringNode k r r',
      after (nextRequest tree true) k (joinRequest tree enteringNode ⟨0, 0⟩) = some r →
      nextRequest tree true r = some r' → k + 1 ≤ kMaxHopCount ∧
        ∀ origin, Avoids hopLimitExceeded
          (forwardRequest true r'.target origin r'.progress k)) ∧
    ∀ target progress,
      (tree.ri ⟨0, 0⟩).performFindReplacement 2 = .ok (.forward target progress) →
      (∀ origin, Avoids hopLimitExceeded
        (forwardRequest false target origin progress 0)) ∧
      ∀ k r r', after (nextRequest tree false) k
          ⟨(tree.ri ⟨0, 0⟩).selfNodeInfo, target, progress⟩ = some r →
        nextRequest tree false r = some r' → k + 2 ≤ kMaxHopCount ∧
          ∀ origin, Avoids hopLimitExceeded
            (forwardRequest false r'.target origin r'.progress (k + 1)) := by
  have hm : isFanoutValid 2 = true := by decide
  obtain ⟨tree⟩ : Nonempty (RoutedTree 2 4) :=
    nonempty_routedTree (L := 2) hm (by decide) (by decide)
  exact ⟨tree, requests_within_hop_limit hm tree (.of_le (L := 2) hm (by decide) (by decide))
    (by decide)⟩

/-! ### Two nodes that take each other for the rightmost one -/

section Truncated

variable (tree : RoutedTree 3 462328) {k k' : ℕ} (hk : Complete 3 462328 ⟨12, k⟩)
include hk

theorem ofView_levelTwelve : ∃ left right, tree.ri ⟨12, k⟩ =
    .ofView 3 ⟨12, k⟩ (tree.address ⟨12, k⟩) (treeView 3 462328 tree.address) left right := by
  obtain ⟨_, _, -, -, hri⟩ := (tree.correct _ hk).eq_ofView (by decide) hk.1
    (show Fits 3 12 by decide)
  exact ⟨_, _, hri⟩

variable (hk' : Complete 3 462328 ⟨12, k'⟩)
  (hlast : ((tableLayout 3 ⟨12, k⟩).drop (leftDistances 3 ⟨12, k⟩).length).getLast? =
    some ⟨12, k'⟩)
include hk' hlast

/-- The node takes a neighbor for the rightmost one, and not for the right edge. -/
theorem rightmost_levelTwelve :
    (tree.ri ⟨12, k⟩).rightmostNeighbor = existingNode tree.address ⟨12, k'⟩ ∧
      isRightmostPossibleNode 3 (existingNode tree.address ⟨12, k'⟩) =
        false := by
  obtain ⟨_, _, hri⟩ := ofView_levelTwelve tree hk
  constructor
  · unfold rightmostNeighbor
    rw [getLastD_eq_getLast?, hri, rightNeighbors_eq_map,
      getLast?_map, hlast, ← slot_treeView hk']
    rfl
  · have hlt : k' < 196608 := by
      have hindex := hk'.2
      have hstart : levelStart 3 12 = 265720 := by decide
      simp only [Pos.index, hstart] at hindex
      omega
    have hnumber : (existingNode tree.address ⟨12, k'⟩).number = k' := rfl
    have hlevel : (existingNode tree.address ⟨12, k'⟩).level = 12 := rfl
    have hne : k' ≠ 3 ^ 12 - 1 := by
      norm_num
      omega
    unfold isRightmostPossibleNode
    rw [hnumber, hlevel, decide_eq_false hne, Bool.false_and]

theorem checkRight_levelTwelve :
    (tree.ri ⟨12, k⟩).processJoinDecision 3 .kCheckRight =
      .ok (.forward (existingNode tree.address ⟨12, k'⟩) .kCheckRight) := by
  obtain ⟨hright, hedge⟩ := rightmost_levelTwelve tree hk hk' hlast
  have hinit : (existingNode tree.address ⟨12, k'⟩).isInitialized = true := rfl
  have hvalid : (existingNode tree.address ⟨12, k'⟩).isValidPeer = true := rfl
  simp [processJoinDecision, findEnd,
    checkRight, hright, hinit, hvalid, hedge]

/-- On the last level a join looks for the right edge first. -/
theorem start_levelTwelve
    (hleft : ((tableLayout 3 ⟨12, k⟩).take (leftDistances 3 ⟨12, k⟩).length).isEmpty = false) :
    (tree.ri ⟨12, k⟩).processJoinDecision 3 .kNone =
      .ok (.forward (existingNode tree.address ⟨12, k'⟩) .kCheckRight) := by
  obtain ⟨hright, hedge⟩ := rightmost_levelTwelve tree hk hk' hlast
  obtain ⟨_, _, hri⟩ := ofView_levelTwelve tree hk
  have hinit : (existingNode tree.address ⟨12, k'⟩).isInitialized = true := rfl
  have hvalid : (existingNode tree.address ⟨12, k'⟩).isValidPeer = true := rfl
  have hbelow : ∀ q : Pos, q.level = 13 →
      (slot (treeView 3 462328 tree.address) q).isInitialized = false := by
    intro q hq
    rw [slot_isInitialized, ← Bool.not_eq_true, treeView_isSome]
    intro hcomplete
    have := hcomplete.level_le (show 462328 ≤ levelStart 3 (12 + 1) by decide)
    omega
  have hchildren : ∀ n ∈ (tree.ri ⟨12, k⟩).leftNeighborChildren 3, n.isInitialized = false := by
    intro n hn
    have hmem := mem_of_mem_take hn
    rw [hri] at hmem
    obtain ⟨q, hq, rfl⟩ := mem_map.mp hmem
    exact hbelow q (level_of_mem_tableChildLayout hq)
  have hfull : (tree.ri ⟨12, k⟩).areChildrenFull = false := by
    have hlist : (tree.ri ⟨12, k⟩).children =
        (childPositions 3 ⟨12, k⟩).map (slot (treeView 3 462328 tree.address)) := by
      rw [hri]
      rfl
    have hfirst := hbelow ((⟨12, k⟩ : Pos).child 3 0) rfl
    rw [areChildrenFull, hlist]
    simp only [childPositions, range_succ, range_zero, nil_append, map_append,
      map_cons, map_nil, any_append, any_cons, hfirst, Bool.not_false,
      Bool.true_or, Bool.not_true]
  have hne : (tree.ri ⟨12, k⟩).leftNeighbors.isEmpty = false := by
    rw [hri, leftNeighbors_eq_map, isEmpty_map, hleft]
  have hcorrect : (tree.ri ⟨12, k⟩).isCorrectParent 3 true = false := by
    unfold isCorrectParent
    rw [hne]
    cases hlist : (tree.ri ⟨12, k⟩).leftNeighborChildren 3 with
    | nil => rfl
    | cons n ns =>
      have hback : ((n :: ns).getLastD .none).isInitialized = false := by
        refine hchildren _ ?_
        rw [hlist, getLastD_cons]
        exact getLastD_mem_cons
      simp only [hback, Bool.and_false, Bool.false_eq_true, if_false]
  have hhead : ((tree.ri ⟨12, k⟩).leftmostNeighborChild 3).isInitialized = false := by
    unfold leftmostNeighborChild
    cases hlist : (tree.ri ⟨12, k⟩).leftNeighborChildren 3 with
    | nil => rfl
    | cons n ns => exact hchildren n (hlist ▸ mem_cons_self)
  have hfrom : (tree.ri ⟨12, k⟩).decideFromRight 3 true =
      .ok (.forward (existingNode tree.address ⟨12, k'⟩) .kCheckRight) := by
    simp [decideFromRight, hright, hinit, hvalid, hedge]
  simp [processJoinDecision, findEnd, hfull,
    decideNextStep, hcorrect, hhead, hfrom]

end Truncated

/-- Position 196608 of level 12 of a ternary tree has the parent number 65536,
which is truncated to 0.  The nodes 196606 and 196607 have no neighbor to the
right that is not sorted to the left, take each other for the rightmost
neighbor, and hand a join to and fro until the hop limit is exceeded. -/
theorem join_exceeds_hop_limit : isFanoutValid 3 = true ∧
    (∀ p, Complete 3 462328 p → 3 ^ p.level ≤ 2 ^ 32) ∧ Nonempty (RoutedTree 3 462328) ∧
    ∀ tree : RoutedTree 3 462328, Complete 3 462328 ⟨12, 196607⟩ ∧
      ∀ enteringNode, ∃ r r',
        after (nextRequest tree true) kMaxHopCount (joinRequest tree enteringNode ⟨12, 196607⟩) =
          some r ∧ nextRequest tree true r = some r' ∧
        ∀ origin activity, (forwardRequest true r'.target origin r'.progress kMaxHopCount
          activity).2 = .error hopLimitExceeded := by
  have hm : isFanoutValid 3 = true := by decide
  have hlevel : ∀ p, Complete 3 462328 p → p.level ≤ 12 := fun p hp =>
    hp.level_le (show 462328 ≤ levelStart 3 (12 + 1) by decide)
  refine ⟨hm, fun p hp => ?_, nonempty_routedTree (L := 12) hm (by decide) (by decide),
    fun tree => ⟨by decide, fun enteringNode => ?_⟩⟩
  · calc 3 ^ p.level ≤ 3 ^ 12 := Nat.pow_le_pow_right (by omega) (hlevel p hp)
      _ ≤ 2 ^ 32 := by norm_num
  have h6 : Complete 3 462328 ⟨12, 196606⟩ := by decide
  have h7 : Complete 3 462328 ⟨12, 196607⟩ := by decide
  have hlast6 : ((tableLayout 3 ⟨12, 196606⟩).drop
      (leftDistances 3 ⟨12, 196606⟩).length).getLast? = some ⟨12, 196607⟩ := by decide +kernel
  have hlast7 : ((tableLayout 3 ⟨12, 196607⟩).drop
      (leftDistances 3 ⟨12, 196607⟩).length).getLast? = some ⟨12, 196606⟩ := by decide +kernel
  have hleft7 : ((tableLayout 3 ⟨12, 196607⟩).take
      (leftDistances 3 ⟨12, 196607⟩).length).isEmpty = false := by decide +kernel
  -- the states that the request does not leave any more
  let Looping : ForwardedRequest → Prop := fun r => ∃ sender target,
    r = ⟨sender, existingNode tree.address target, .kCheckRight⟩ ∧
      (target = ⟨12, 196606⟩ ∨ target = ⟨12, 196607⟩)
  have hloop : ∀ r, Looping r → ∃ r', nextRequest tree true r = some r' ∧ Looping r' := by
    rintro r ⟨sender, target, rfl, rfl | rfl⟩
    · exact ⟨_, nextRequest_of_forward h6 (by decide)
        (checkRight_levelTwelve tree h6 h7 hlast6), _, _, rfl, Or.inr rfl⟩
    · exact ⟨_, nextRequest_of_forward h7 (by decide)
        (checkRight_levelTwelve tree h7 h6 hlast7), _, _, rfl, Or.inl rfl⟩
  have hfirst : nextRequest tree true (joinRequest tree enteringNode ⟨12, 196607⟩) =
      some ⟨(tree.ri ⟨12, 196607⟩).selfNodeInfo, existingNode tree.address ⟨12, 196606⟩,
        .kCheckRight⟩ :=
    nextRequest_of_forward h7 (by decide) (start_levelTwelve tree h7 h6 hlast7 hleft7)
  obtain ⟨r, hr, hr'⟩ := exists_after hloop
    (⟨_, _, rfl, Or.inl rfl⟩ : Looping ⟨(tree.ri ⟨12, 196607⟩).selfNodeInfo,
      existingNode tree.address ⟨12, 196606⟩, .kCheckRight⟩) 63
  obtain ⟨r', hnext, -⟩ := hloop r hr'
  refine ⟨r, r', (after_succ_of_next hfirst 63).trans hr, hnext, fun origin activity => ?_⟩
  rfl

end Sola.Minhton
