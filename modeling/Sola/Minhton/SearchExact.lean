import Mathlib.Algebra.Order.AbsoluteValue.Basic
import Mathlib.Data.Finset.Sort
import Sola.Minhton.RoutingInformation

/-!
Exact search (`minhton/src/algorithms/search_exact/*.cpp`).

A query travels greedily towards a destination position: every node hands
it to the known node whose horizontal value is closest to that of the
destination, on the destination's side.  The query is received by the node
whose value is the destination's, or the node that knows nobody closer
reports a failure to the query's sender.
-/

namespace Sola.Minhton

open Sola.Lib.MaryTree Sola.Lib.Distances List

/-- A query: its sender, whether it is a `MessageEmpty`, and the rest of the
message, at which the search does not look. -/
structure Query (B : Type) where
  sender : NodeInfo
  isEmpty : Bool
  body : B

/-- What a node does with a search request. -/
inductive SearchExactAction (B : Type) where
  /-- An empty query has arrived; this is only logged. -/
  | logSuccess
  /-- The query is handed to `recv`, with this node as its target. -/
  | receive (target : NodeInfo) (query : Query B)
  | sendFailure (target destination : NodeInfo) (query : Query B)
  | sendSearchExact (target destination : NodeInfo) (query : Query B)

/-- Keep the better of the best node so far and the next link. -/
def closerLink (m : ℕ) (destValue : ℚ) (best : ℚ × NodeInfo) (link : NodeInfo) :
    ℚ × NodeInfo :=
  let currentDiff := |link.horizontalValue m - destValue|
  if currentDiff < best.1 then (currentDiff, link) else best

def calcClosestRedirect (m : ℕ) (ri : RoutingInformation) (destValue : ℚ) : NodeInfo :=
  let selfValue := ri.selfNodeInfo.horizontalValue m
  let neighbors := ri.getAllUniqueKnownExistingNeighbors
  let neighbors :=
    if selfValue < destValue then
      neighbors.filter fun n => !decide (selfValue > n.horizontalValue m)
    else neighbors.filter fun n => !decide (selfValue < n.horizontalValue m)
  (neighbors.foldl (closerLink m destValue)
    (|selfValue - destValue|, ri.selfNodeInfo)).2

def performSearchExact {B : Type} (m : ℕ) (ri : RoutingInformation)
    (destination : NodeInfo) (query : Query B) :
    Except String (SearchExactAction B) :=
  if !destination.isValidPeer then
    .error "Logical Address of Destination Node has to be initialized!"
  else if !isFanoutValid m then
    .error "The Fanout of the destination node has to be set!"
  else
    let selfValue := ri.selfNodeInfo.horizontalValue m
    let destValue := destination.horizontalValue m
    if selfValue = destValue then
      if query.isEmpty then .ok .logSuccess
      else .ok (.receive ri.selfNodeInfo query)
    else
      let closest := calcClosestRedirect m ri destValue
      if closest.logical = ri.selfNodeInfo.logical then
        .ok (.sendFailure query.sender destination query)
      else .ok (.sendSearchExact closest destination query)

/-! ### The closest known node -/

/-- The loop over the links ends with a link at least as close as the first
candidate and as every link. -/
theorem foldl_closerLink {m : ℕ} {destValue : ℚ} (links : List NodeInfo)
    (best : ℚ × NodeInfo)
    (hbest : best.1 = |best.2.horizontalValue m - destValue|) :
    let r := links.foldl (closerLink m destValue) best
    r.1 = |r.2.horizontalValue m - destValue| ∧
      (r = best ∨ r.2 ∈ links ∧ r.1 < best.1) ∧
      r.1 ≤ best.1 ∧
      ∀ n ∈ links, r.1 ≤ |n.horizontalValue m - destValue| := by
  induction links generalizing best with
  | nil => simp [hbest]
  | cons n links ih =>
    by_cases hn : |n.horizontalValue m - destValue| < best.1
    · have hstep : closerLink m destValue best n =
          (|n.horizontalValue m - destValue|, n) := by
        simp [closerLink, hn]
      obtain ⟨h1, h2, h3, h4⟩ :=
        ih (|n.horizontalValue m - destValue|, n) rfl
      simp only [foldl_cons, hstep]
      refine ⟨h1, ?_, by linarith, ?_⟩
      · rcases h2 with h2 | ⟨h2, h2'⟩
        · right; rw [h2]; exact ⟨by simp, hn⟩
        · right; exact ⟨by simp [h2], lt_trans h2' hn⟩
      · intro n' hn'
        rcases mem_cons.mp hn' with rfl | hn'
        · exact h3
        · exact h4 n' hn'
    · have hstep : closerLink m destValue best n = best := by
        simp [closerLink, hn]
      obtain ⟨h1, h2, h3, h4⟩ := ih best hbest
      simp only [foldl_cons, hstep]
      refine ⟨h1, ?_, h3, ?_⟩
      · rcases h2 with h2 | ⟨h2, h2'⟩
        · exact Or.inl h2
        · exact Or.inr ⟨by simp [h2], h2'⟩
      · intro n' hn'
        rcases mem_cons.mp hn' with rfl | hn'
        · exact le_trans h3 (not_lt.mp hn)
        · exact h4 n' hn'

/-- The redirect is the node itself or a strictly closer known neighbor, and
no known neighbor on the destination's side is closer. -/
theorem calcClosestRedirect_spec (m : ℕ) (ri : RoutingInformation) (destValue : ℚ) :
    let self := ri.selfNodeInfo
    let r := calcClosestRedirect m ri destValue
    (r = self ∨ r ∈ ri.getAllUniqueKnownExistingNeighbors ∧
      |r.horizontalValue m - destValue| < |self.horizontalValue m - destValue|) ∧
    ∀ n ∈ ri.getAllUniqueKnownExistingNeighbors,
      (self.horizontalValue m < destValue ∧ self.horizontalValue m < n.horizontalValue m ∨
        destValue < self.horizontalValue m ∧
          n.horizontalValue m < self.horizontalValue m) →
      |r.horizontalValue m - destValue| ≤ |n.horizontalValue m - destValue| := by
  intro self r
  set links := if self.horizontalValue m < destValue then
      ri.getAllUniqueKnownExistingNeighbors.filter fun n =>
        !decide (self.horizontalValue m > n.horizontalValue m)
    else ri.getAllUniqueKnownExistingNeighbors.filter fun n =>
        !decide (self.horizontalValue m < n.horizontalValue m) with hlinks
  have hsub : ∀ n ∈ links, n ∈ ri.getAllUniqueKnownExistingNeighbors := by
    intro n hn
    rw [hlinks] at hn
    split_ifs at hn <;> exact mem_of_mem_filter hn
  have hr : r = (links.foldl (closerLink m destValue)
      (|self.horizontalValue m - destValue|, self)).2 := rfl
  obtain ⟨h1, h2, -, h4⟩ := foldl_closerLink links
    (|self.horizontalValue m - destValue|, self) rfl
  refine ⟨?_, ?_⟩
  · rcases h2 with h2 | ⟨h2, h2'⟩
    · left; rw [hr, h2]
    · right
      rw [h1] at h2'
      exact ⟨hsub _ h2, h2'⟩
  · intro n hn hside
    rw [hr, ← h1]
    refine h4 n ?_
    rw [hlinks]
    rcases hside with ⟨hd, hlt⟩ | ⟨hd, hlt⟩
    · rw [if_pos hd]
      exact mem_filter.mpr ⟨hn, by simpa using hlt.le⟩
    · rw [if_neg (not_lt.mpr hd.le)]
      exact mem_filter.mpr ⟨hn, by simpa using hlt.le⟩

/-! ### Searching a tree of nodes -/

/-- A finite tree of nodes: every adjacent slot holds the in-order neighbor,
every other slot holds an existing node or none. -/
structure SearchTree (m : ℕ) where
  nodes : Finset Pos
  address : Pos → Address
  ri : Pos → RoutingInformation
  valid : ∀ p ∈ nodes, p.Valid m
  selfNodeInfo : ∀ p ∈ nodes, (ri p).selfNodeInfo = existingNode address p
  parent : ∀ p ∈ nodes, p.level ≠ 0 →
    ∃ q ∈ nodes, (ri p).parent = existingNode address q
  slots : ∀ p ∈ nodes, ∀ n ∈ (ri p).children ++ (ri p).routingTableNeighbors ++
    (ri p).routingTableNeighborChildren,
    n.isInitialized → ∃ q ∈ nodes, n = existingNode address q
  left : ∀ p ∈ nodes, ∃ o, IsPred m (· ∈ nodes) p o ∧
    (ri p).adjacentLeft = adjacentSlot address o
  right : ∀ p ∈ nodes, ∃ o, IsSucc m (· ∈ nodes) p o ∧
    (ri p).adjacentRight = adjacentSlot address o

/-- The run of one search request through a tree: the nodes that process it
and the action of the last one. -/
inductive SearchRun {m : ℕ} {B : Type} (tree : SearchTree m) (destination : NodeInfo)
    (query : Query B) : Pos → List Pos → SearchExactAction B → Prop
  | stop {p : Pos} {action : SearchExactAction B} :
      performSearchExact m (tree.ri p) destination query = .ok action →
      (∀ n, action ≠ .sendSearchExact n destination query) →
      SearchRun tree destination query p [p] action
  | hop {p q : Pos} {visited : List Pos} {action : SearchExactAction B} :
      performSearchExact m (tree.ri p) destination query =
        .ok (.sendSearchExact (existingNode tree.address q) destination query) →
      q ∈ tree.nodes →
      SearchRun tree destination query q visited action →
      SearchRun tree destination query p (p :: visited) action

section Tree

variable {m : ℕ} {p : Pos} {B : Type} {destination : NodeInfo} {query : Query B}

/-- Every known neighbor of a node of the tree exists. -/
theorem SearchTree.mem_known (tree : SearchTree m) (hp : p ∈ tree.nodes) {n : NodeInfo}
    (hn : n ∈ (tree.ri p).getAllUniqueKnownExistingNeighbors) :
    ∃ q ∈ tree.nodes, n = existingNode tree.address q := by
  have hslot := tree.slots p hp
  have hadj : ∀ o : Option Pos, (∀ q, o = some q → q ∈ tree.nodes) →
      n = adjacentSlot tree.address o → n.isInitialized = true →
      ∃ q ∈ tree.nodes, n = existingNode tree.address q := by
    rintro (_ | q) ho rfl hinit
    · cases hinit
    · exact ⟨q, ho q rfl, rfl⟩
  rcases RoutingInformation.known_cases hn with ⟨hlevel, rfl⟩ | ⟨hinit, hn | hn | hn | hn | hn⟩
  · rw [tree.selfNodeInfo p hp] at hlevel
    exact tree.parent p hp hlevel
  · obtain ⟨o, ho, hleft⟩ := tree.left p hp
    exact hadj o (by rintro q rfl; exact ho.1) (hn.trans hleft) hinit
  · obtain ⟨o, ho, hright⟩ := tree.right p hp
    exact hadj o (by rintro q rfl; exact ho.1) (hn.trans hright) hinit
  · exact hslot n (by simp [hn]) hinit
  · exact hslot n (by simp [hn]) hinit
  · exact hslot n (by simp [hn]) hinit

/-- The distance that the search makes smaller. -/
def searchDistance (m : ℕ) (dest p : Pos) : ℚ :=
  |horizontalValue m p - horizontalValue m dest|

variable {tree : SearchTree m} {dest : Pos}

section Exact

variable (hm : 2 ≤ m) (hexact : ∀ p ∈ tree.nodes, Exact m p)
include hm hexact

/-- If the destination exists, every other node knows a closer node on the
destination's side, namely its in-order neighbor there. -/
theorem SearchTree.exists_closer {p : Pos} (hp : p ∈ tree.nodes) (hne : p ≠ dest)
    (hd : dest ∈ tree.nodes) :
    ∃ n ∈ (tree.ri p).getAllUniqueKnownExistingNeighbors,
      (horizontalValue m p < horizontalValue m dest ∧
          horizontalValue m p < n.horizontalValue m ∨
        horizontalValue m dest < horizontalValue m p ∧
          n.horizontalValue m < horizontalValue m p) ∧
      |n.horizontalValue m - horizontalValue m dest| < searchDistance m dest p := by
  have hiff : ∀ {a b : Pos}, a ∈ tree.nodes → b ∈ tree.nodes →
      (horizontalValue m a < horizontalValue m b ↔ Before m a b) := fun ha hb =>
    horizontalValue_lt_iff hm (tree.valid _ ha) (hexact _ ha) (tree.valid _ hb) (hexact _ hb)
  unfold searchDistance
  rcases before_or_before hm hne with hb | hb
  · -- the destination is to the right: take the in-order successor
    obtain ⟨o, hsucc, hslot⟩ := tree.right p hp
    cases o with
    | none => exact absurd hb (hsucc dest hd)
    | some s =>
      obtain ⟨hs, hps, hmin⟩ := hsucc
      obtain ⟨n, hn, hlog⟩ := RoutingInformation.adjacentRight_known
        (show (tree.ri p).adjacentRight.isInitialized = true by rw [hslot]; rfl)
      have hlog' : n.logical = some s := by rw [hlog, hslot]; rfl
      have h1 := (hiff hp hs).mpr hps
      have h2 : horizontalValue m s ≤ horizontalValue m dest :=
        not_lt.mp fun h => hmin dest hd hb ((hiff hd hs).mp h)
      have h3 := (hiff hp hd).mpr hb
      refine ⟨n, hn, ?_, ?_⟩
      · rw [NodeInfo.horizontalValue_of_logical hlog']; exact Or.inl ⟨h3, h1⟩
      · rw [NodeInfo.horizontalValue_of_logical hlog', abs_of_nonpos (by linarith),
          abs_of_neg (by linarith)]
        linarith
  · -- the destination is to the left: take the in-order predecessor
    obtain ⟨o, hpred, hslot⟩ := tree.left p hp
    cases o with
    | none => exact absurd hb (hpred dest hd)
    | some s =>
      obtain ⟨hs, hsp, hmax⟩ := hpred
      obtain ⟨n, hn, hlog⟩ := RoutingInformation.adjacentLeft_known
        (show (tree.ri p).adjacentLeft.isInitialized = true by rw [hslot]; rfl)
      have hlog' : n.logical = some s := by rw [hlog, hslot]; rfl
      have h1 := (hiff hs hp).mpr hsp
      have h2 : horizontalValue m dest ≤ horizontalValue m s :=
        not_lt.mp fun h => hmax dest hd hb ((hiff hs hd).mp h)
      have h3 := (hiff hd hp).mpr hb
      refine ⟨n, hn, ?_, ?_⟩
      · rw [NodeInfo.horizontalValue_of_logical hlog']; exact Or.inr ⟨h3, h1⟩
      · rw [NodeInfo.horizontalValue_of_logical hlog', abs_of_nonneg (by linarith),
          abs_of_pos (by linarith)]
        linarith

end Exact

/-- What one node of the tree does with a search request: it receives the
query if it is the destination, it hands the request to a strictly closer
node, or it reports a failure, the latter only if the destination does not
exist. -/
theorem SearchTree.performSearchExact_cases (hm : isFanoutValid m = true)
    (hexact : ∀ p ∈ tree.nodes, Exact m p) (hdest : dest.Valid m) (hdestExact : Exact m dest)
    (hdestination : destination.logical = some dest) (hquery : query.isEmpty = false)
    (hp : p ∈ tree.nodes) :
    (p = dest ∧ performSearchExact m (tree.ri p) destination query =
      .ok (.receive (existingNode tree.address dest) query)) ∨
    (dest ∉ tree.nodes ∧ performSearchExact m (tree.ri p) destination query =
      .ok (.sendFailure query.sender destination query)) ∨
    (p ≠ dest ∧ ∃ q ∈ tree.nodes,
      searchDistance m dest q < searchDistance m dest p ∧
      performSearchExact m (tree.ri p) destination query =
        .ok (.sendSearchExact (existingNode tree.address q) destination query)) := by
  have hm2 := (isFanoutValid_iff.mp hm).1
  have hself := tree.selfNodeInfo p hp
  have hselfValue : (existingNode tree.address p).horizontalValue m =
      horizontalValue m p := rfl
  have hdestValue := NodeInfo.horizontalValue_of_logical (m := m) hdestination
  have hpeer : destination.isValidPeer = true := by simp [NodeInfo.isValidPeer, hdestination]
  unfold performSearchExact
  simp only [hpeer, hm, hself, hselfValue, hdestValue, hquery, Bool.not_true,
    Bool.false_eq_true, if_false]
  by_cases hpd : p = dest
  · left
    subst hpd
    exact ⟨rfl, by rw [if_pos rfl]⟩
  · right
    have hne : horizontalValue m p ≠ horizontalValue m dest := fun h =>
      hpd (horizontalValue_injective hm2 (tree.valid p hp) (hexact p hp) hdest hdestExact h)
    obtain ⟨hcloser, hmin⟩ :=
      calcClosestRedirect_spec m (tree.ri p) (horizontalValue m dest)
    rw [hself, hselfValue] at hcloser hmin
    rw [if_neg hne]
    rcases hcloser with hstay | ⟨hmem, hlt⟩
    · -- nobody closer is known, so the destination cannot exist
      left
      refine ⟨fun hd => ?_, by rw [hstay, if_pos rfl]⟩
      obtain ⟨n, hn, hside, hnlt⟩ := tree.exists_closer hm2 hexact hp hpd hd
      have hle := hmin n hn hside
      rw [hstay, hselfValue] at hle
      exact absurd hnlt (not_lt.mpr hle)
    · right
      obtain ⟨q, hq, he⟩ := tree.mem_known hp hmem
      rw [he] at hlt ⊢
      refine ⟨hpd, q, hq, hlt, ?_⟩
      rw [if_neg]
      intro hlog
      have hqp : q = p := by simpa [existingNode] using hlog
      subst hqp
      exact lt_irrefl _ hlt

/-- The run of a request is determined by its first node. -/
theorem SearchRun.unique {v v' : List Pos} {a a' : SearchExactAction B}
    (h : SearchRun tree destination query p v a) (h' : SearchRun tree destination query p v' a') :
    v = v' ∧ a = a' := by
  induction h generalizing v' with
  | stop hact hstop =>
    cases h' with
    | stop hact' _ =>
      rw [hact] at hact'
      exact ⟨rfl, Except.ok.inj hact'⟩
    | hop hact' _ _ =>
      rw [hact] at hact'
      exact absurd (Except.ok.inj hact') (hstop _)
  | hop hact _ _ ih =>
    cases h' with
    | stop hact' hstop' =>
      rw [hact] at hact'
      exact absurd (Except.ok.inj hact').symm (hstop' _)
    | hop hact' _ hrest' =>
      rw [hact] at hact'
      injection Except.ok.inj hact' with hnode
      have hqq := Option.some.inj (congrArg NodeInfo.logical hnode)
      subst hqq
      obtain ⟨hv, ha⟩ := ih hrest'
      exact ⟨by rw [hv], ha⟩

/-- Distances to the destination along a run that strictly decreases. -/
def StrictlyApproaches (m : ℕ) (dest : Pos) (visited : List Pos) : Prop :=
  visited.Pairwise fun p q => searchDistance m dest q < searchDistance m dest p

/-- The nodes of the tree that are closer to the destination than `p`. -/
def closerNodes (tree : SearchTree m) (dest p : Pos) : Finset Pos :=
  tree.nodes.filter fun q => searchDistance m dest q < searchDistance m dest p

theorem closerNodes_ssubset {q : Pos} (hq : q ∈ tree.nodes)
    (h : searchDistance m dest q < searchDistance m dest p) :
    closerNodes tree dest q ⊂ closerNodes tree dest p := by
  rw [Finset.ssubset_iff_of_subset]
  · refine ⟨q, by simp [closerNodes, hq, h], by simp [closerNodes]⟩
  · intro r hr
    simp only [closerNodes, Finset.mem_filter] at hr ⊢
    exact ⟨hr.1, lt_trans hr.2 h⟩

/-- Every search request whose destination and nodes are not affected by the
16 bit truncation approaches the destination strictly and ends there, or at
a failure if nobody is there. -/
theorem exists_searchRun (hm : isFanoutValid m = true) (hexact : ∀ p ∈ tree.nodes, Exact m p)
    (hdest : dest.Valid m) (hdestExact : Exact m dest)
    (hdestination : destination.logical = some dest) (hquery : query.isEmpty = false) (p : Pos)
    (hp : p ∈ tree.nodes) :
    ∃ visited action, SearchRun tree destination query p visited action ∧
      StrictlyApproaches m dest visited ∧
      (∀ q ∈ visited, q = p ∨ searchDistance m dest q < searchDistance m dest p) ∧
      (dest ∈ tree.nodes →
        action = .receive (existingNode tree.address dest) query) ∧
      (dest ∉ tree.nodes → action = .sendFailure query.sender destination query) := by
  -- the nodes closer than the current one are used up one by one
  induction hn : (closerNodes tree dest p).card using Nat.strong_induction_on
    generalizing p with
  | _ n ih =>
    rcases tree.performSearchExact_cases hm hexact hdest hdestExact hdestination hquery hp with
      ⟨rfl, hact⟩ | ⟨hd, hact⟩ | ⟨hpd, q, hq, hlt, hact⟩
    · refine ⟨[p], _, .stop hact (by simp), by simp [StrictlyApproaches], by simp,
        fun _ => rfl, fun h => absurd hp h⟩
    · refine ⟨[p], _, .stop hact (by simp), by simp [StrictlyApproaches], by simp,
        fun h => absurd h hd, fun _ => rfl⟩
    · have hcard : (closerNodes tree dest q).card < n := by
        rw [← hn]; exact Finset.card_lt_card (closerNodes_ssubset hq hlt)
      obtain ⟨visited, action, hrun, happ, hbelow, hin, hout⟩ := ih _ hcard q hq rfl
      have hbelow' : ∀ r ∈ visited,
          searchDistance m dest r < searchDistance m dest p := by
        intro r hr
        rcases hbelow r hr with rfl | h
        · exact hlt
        · exact lt_trans h hlt
      refine ⟨p :: visited, action, .hop hact hq hrun, ?_, ?_, hin, hout⟩
      · exact pairwise_cons.mpr ⟨hbelow', happ⟩
      · intro r hr
        rcases mem_cons.mp hr with rfl | hr
        · exact Or.inl rfl
        · exact Or.inr (hbelow' r hr)

/-- A search request for a position of level at most 65536 in a tree of such
nodes has exactly one run.  It visits finitely many nodes, each strictly
closer to the destination than the one before.  If the destination exists,
the run ends with the destination receiving the query; otherwise it ends
with one failure message to the query's sender.  No other step of the run
receives the query or sends a failure. -/
theorem searchExact_outcome {B : Type} (hm : isFanoutValid m = true)
    (hexact : ∀ p ∈ tree.nodes, p.level ≤ 65536 ∧ p.number / m < 65536)
    (hdest : dest.Valid m) (hdestExact : dest.level ≤ 65536 ∧ dest.number / m < 65536)
    {destination : NodeInfo} (hdestination : destination.logical = some dest)
    {query : Query B} (hquery : query.isEmpty = false) {start : Pos}
    (hstart : start ∈ tree.nodes) :
    ∃ visited action, SearchRun tree destination query start visited action ∧
      (∀ visited' action', SearchRun tree destination query start visited' action' →
        visited' = visited ∧ action' = action) ∧
      StrictlyApproaches m dest visited ∧
      (dest ∈ tree.nodes →
        action = .receive (existingNode tree.address dest) query) ∧
      (dest ∉ tree.nodes → action = .sendFailure query.sender destination query) := by
  obtain ⟨visited, action, hrun, happ, -, hin, hout⟩ :=
    exists_searchRun hm hexact hdest hdestExact hdestination hquery start hstart
  exact ⟨visited, action, hrun, fun _ _ h => h.unique hrun, happ, hin, hout⟩

end Tree

/-! ### Levels beyond 16 bits

The level of the parent is truncated as well, so that position `65537:0` has
the horizontal value of `1:0`.
-/

/-- The root and its first child, with fanout 2. -/
def twoNodeRoutingInformation (p : Pos) : RoutingInformation :=
  if p = ⟨1, 0⟩ then
    { selfNodeInfo := ⟨some ⟨1, 0⟩, some 1⟩
      parent := ⟨some ⟨0, 0⟩, some 0⟩
      children := [.ofPos ⟨2, 0⟩, .ofPos ⟨2, 1⟩]
      adjacentLeft := .none
      adjacentRight := ⟨some ⟨0, 0⟩, some 0⟩
      routingTableNeighbors := [.ofPos ⟨1, 1⟩]
      routingTableNeighborChildren := [.ofPos ⟨2, 2⟩, .ofPos ⟨2, 3⟩]
      rightTableNeighborStartIndex := 0 }
  else
    { selfNodeInfo := ⟨some ⟨0, 0⟩, some 0⟩
      parent := .none
      children := [⟨some ⟨1, 0⟩, some 1⟩, .ofPos ⟨1, 1⟩]
      adjacentLeft := ⟨some ⟨1, 0⟩, some 1⟩
      adjacentRight := .none
      routingTableNeighbors := []
      routingTableNeighborChildren := []
      rightTableNeighborStartIndex := 0 }

theorem mem_twoNodes {p : Pos} :
    p ∈ ({⟨0, 0⟩, ⟨1, 0⟩} : Finset Pos) ↔ p = ⟨0, 0⟩ ∨ p = ⟨1, 0⟩ := by
  simp

theorem twoNodes_before : Before 2 ⟨1, 0⟩ ⟨0, 0⟩ := by decide +kernel

def twoNodeTree : SearchTree 2 where
  nodes := {⟨0, 0⟩, ⟨1, 0⟩}
  address p := p.level
  ri := twoNodeRoutingInformation
  valid := by decide
  selfNodeInfo := by decide
  parent := by decide
  slots := by decide
  left := by
    intro p hp
    rcases mem_twoNodes.mp hp with rfl | rfl
    · refine ⟨some ⟨1, 0⟩, ⟨by decide, twoNodes_before, ?_⟩, rfl⟩
      intro r hr _
      rcases mem_twoNodes.mp hr with rfl | rfl
      · exact absurd ‹_› (Before.irrefl _)
      · exact Before.irrefl _
    · refine ⟨none, ?_, rfl⟩
      intro r hr
      rcases mem_twoNodes.mp hr with rfl | rfl
      · exact twoNodes_before.asymm
      · exact Before.irrefl _
  right := by
    intro p hp
    rcases mem_twoNodes.mp hp with rfl | rfl
    · refine ⟨none, ?_, rfl⟩
      intro r hr
      rcases mem_twoNodes.mp hr with rfl | rfl
      · exact Before.irrefl _
      · exact twoNodes_before.asymm
    · refine ⟨some ⟨0, 0⟩, ⟨by decide, twoNodes_before, ?_⟩, rfl⟩
      intro r hr _
      rcases mem_twoNodes.mp hr with rfl | rfl
      · exact Before.irrefl _
      · exact absurd ‹_› (Before.irrefl _)

/-- A lookup of `1:0` from the root, and one of the missing node `1:1`. -/
theorem searchExact_outcome_twoNodeTree :
    ((∃ visited action, SearchRun twoNodeTree (.ofPos ⟨1, 0⟩)
        (⟨⟨none, some 7⟩, false, ()⟩ : Query Unit) ⟨0, 0⟩ visited action ∧
      StrictlyApproaches 2 ⟨1, 0⟩ visited ∧
      action = .receive ⟨some ⟨1, 0⟩, some 1⟩ ⟨⟨none, some 7⟩, false, ()⟩)) ∧
    ∃ visited action, SearchRun twoNodeTree (.ofPos ⟨1, 1⟩)
        (⟨⟨none, some 7⟩, false, ()⟩ : Query Unit) ⟨0, 0⟩ visited action ∧
      StrictlyApproaches 2 ⟨1, 1⟩ visited ∧
      action = .sendFailure ⟨none, some 7⟩ (.ofPos ⟨1, 1⟩) ⟨⟨none, some 7⟩, false, ()⟩ := by
  constructor
  · obtain ⟨visited, action, hrun, -, happ, hin, -⟩ :=
      @searchExact_outcome 2 twoNodeTree ⟨1, 0⟩ Unit (by decide) (by decide) (by decide)
        (by decide) (.ofPos ⟨1, 0⟩) rfl ⟨⟨none, some 7⟩, false, ()⟩ rfl ⟨0, 0⟩ (by decide)
    exact ⟨visited, action, hrun, happ, hin (by decide)⟩
  · obtain ⟨visited, action, hrun, -, happ, -, hout⟩ :=
      @searchExact_outcome 2 twoNodeTree ⟨1, 1⟩ Unit (by decide) (by decide) (by decide)
        (by decide) (.ofPos ⟨1, 1⟩) rfl ⟨⟨none, some 7⟩, false, ()⟩ rfl ⟨0, 0⟩ (by decide)
    exact ⟨visited, action, hrun, happ, hout (by decide)⟩

theorem treeMapperRec_level_zero (m K fuel number : ℕ) :
    treeMapperRec m K fuel 0 number = boundsOf m 0 (K / half m * m) := by
  cases fuel <;> simp [treeMapperRec]

/-- Below a truncated parent level the bounds are those of a child of the
root. -/
theorem treeMapperRec_parent_zero (m K fuel : ℕ) {level : ℕ} (hl : level ≠ 0)
    (hp : u16 (level - 1) = 0) :
    treeMapperRec m K (fuel + 1) level 0 = treeMapperRec m K 1 1 0 := by
  simp only [treeMapperRec, if_neg hl, if_neg Nat.one_ne_zero, hp,
    treeMapperRec_level_zero]

theorem horizontalValue_level_truncated :
    horizontalValue 2 ⟨65537, 0⟩ = horizontalValue 2 ⟨1, 0⟩ :=
  congrArg Bounds.center
    (treeMapperRec_parent_zero 2 kTreeMapperRootValue 65536 (by decide) rfl)

/-- The query for position `65537:0`, where nobody is, is received by `1:0`. -/
theorem searchExact_received_by_other_node :
    (⟨65537, 0⟩ : Pos).Valid 2 ∧ (⟨65537, 0⟩ : Pos) ∉ twoNodeTree.nodes ∧
    (∀ p ∈ insert ⟨65537, 0⟩ twoNodeTree.nodes, p.number / 2 < 65536) ∧
    SearchRun twoNodeTree (.ofPos ⟨65537, 0⟩)
      (⟨⟨none, some 7⟩, false, ()⟩ : Query Unit) ⟨1, 0⟩ [⟨1, 0⟩]
      (.receive ⟨some ⟨1, 0⟩, some 1⟩ ⟨⟨none, some 7⟩, false, ()⟩) := by
  refine ⟨Nat.pow_pos (by decide), by decide, by decide, .stop ?_ (by simp)⟩
  unfold performSearchExact
  rw [if_neg (by decide), if_neg (by decide), if_pos ?_, if_neg (by decide)]
  · rfl
  · exact horizontalValue_level_truncated.symm

end Sola.Minhton
