import Sola.Minhton.CoveringDsn
import Sola.Minhton.DsnForwarding
import Sola.Minhton.EndRuns
import Sola.Minhton.FindStart
import Sola.Minhton.SearchExact
import Sola.Minhton.TableNeighbors

/-!
Which nodes a find query reaches
(`minhton/src/algorithms/esearch/minhton_entity_search_algorithm.cpp` and
`minhton_entity_search_algorithm_helper.cpp`).

The node that starts a find sends one request to each even level by an exact
search.  A request for a position without a node comes back as a failure, and is
then sent to the position above.  Every active DSN or temporary DSN that a
request reaches forwards it on its level, and answers for itself and for the
nodes in its cover data.

On the deepest level the next DSN may be missing.  Its left half of the interval
then belongs to nobody who is asked, because the extended cover area is only
built once the next DSN exists.
-/

namespace Sola.Minhton

open Sola.Lib Action Sola.Lib.MaryTree Sola.Lib.Distances DsnNode List Except
open Sola.Lib.Forwarding
open RoutingInformation (ofView)

/-! ### The way of a request -/

/-- The query of a find as the exact search carries it: its sender is the
requesting node. -/
def findQuery (ri : Pos → RoutingInformation) (requester : Pos) : Query Unit :=
  ⟨(ri requester).selfNodeInfo, false, ()⟩

/-- A request of the requesting node that is at `p` with the destination `dest`
arrives at a node in the end. -/
inductive Arrives (m : ℕ) (ri : Pos → RoutingInformation) (requester : Pos) :
    Pos → Pos → Pos → Prop
  | receive {p dest : Pos} {n : NodeInfo} :
      performSearchExact m (ri p) (.ofPos dest) (findQuery ri requester) =
        .ok (.receive n (findQuery ri requester)) →
      Arrives m ri requester p dest n.pos
  | hop {p dest q : Pos} {n : NodeInfo} :
      performSearchExact m (ri p) (.ofPos dest) (findQuery ri requester) =
        .ok (.sendSearchExact n (.ofPos dest) (findQuery ri requester)) →
      Arrives m ri requester n.pos dest q → Arrives m ri requester p dest q
  /-- `processSearchExactFailure` at the node that gets the failure. -/
  | redirect {p dest parent q : Pos} {n : NodeInfo} :
      performSearchExact m (ri p) (.ofPos dest) (findQuery ri requester) =
        .ok (.sendFailure n (.ofPos dest) (findQuery ri requester)) →
      calcParent m dest = .ok parent →
      Arrives m ri requester n.pos parent q → Arrives m ri requester p dest q

/-- The answer of a node's handler that was constructed with the routing
information, and the node afterwards. -/
def activity (m : ℕ) (ri : RoutingInformation) : DsnNode × Except String Bool :=
  isActive m (start m ri)

/-- The requests that nodes receive after the node at `p` has called `find`. -/
inductive Receives (m : ℕ) (ri : Pos → RoutingInformation) (p : Pos) :
    FindQueryRequest → Prop
  | own {dsns : List NodeInfo} {n : NodeInfo} :
      (ri p).calcDSNsToSendInitialCDSForwardingTo m = .ok dsns → n ∈ dsns →
      n.logical = (ri p).selfNodeInfo.logical → Receives m ri p (initialRequest m n.pos)
  | search {dsns : List NodeInfo} {n : NodeInfo} {q : Pos} :
      (ri p).calcDSNsToSendInitialCDSForwardingTo m = .ok dsns → n ∈ dsns →
      n.logical ≠ (ri p).selfNodeInfo.logical → Arrives m ri p p n.pos q →
      Receives m ri p { initialRequest m n.pos with target := .ofPos q }
  | forward {msg next : FindQueryRequest} : Receives m ri p msg →
      (activity m (ri msg.target.pos)).2 = .ok true → next ∈ forwards m ri msg →
      Receives m ri p next

/-- An active node that receives a request is at `q`, or has `q` in its cover
data. -/
def Reached (m : ℕ) (ri : Pos → RoutingInformation) (p q : Pos) : Prop :=
  ∃ msg, Receives m ri p msg ∧ (activity m (ri msg.target.pos)).2 = .ok true ∧
    (q = msg.target.pos ∨
      ((activity m (ri msg.target.pos)).1.handler.coverData q).isSome = true)

/-! ### Exact searches in a routed tree -/

section Search

variable {m N : ℕ} (tree : RoutedTree m N) (hm : isFanoutValid m = true)
  (hsmall : SmallTree m N)
include hm hsmall

/-- A routed tree is a tree for exact searches. -/
theorem RoutedTree.exists_searchTree : ∃ st : SearchTree m, st.ri = tree.ri ∧
    st.address = tree.address ∧ ∀ p, p ∈ st.nodes ↔ Complete m N p := by
  have hmem : ∀ p, p ∈ (finite_complete m N).toFinset ↔ Complete m N p := fun p => by simp
  have hview := fun p (hp : Complete m N p) =>
    (tree.correct p hp).eq_ofView hm hp.1 (hsmall.fits hm p hp)
  have hself := fun p (hp : Complete m N p) =>
    tree.selfNodeInfo hm hp (hsmall.fits hm p hp)
  have hslot : ∀ q, (slot (treeView m N tree.address) q).isInitialized = true →
      ∃ r ∈ (finite_complete m N).toFinset,
        slot (treeView m N tree.address) q = existingNode tree.address r := by
    intro q hq
    have hcomplete : Complete m N q := treeView_isSome.mp hq
    exact ⟨q, (hmem q).mpr hcomplete, slot_treeView hcomplete⟩
  refine ⟨⟨(finite_complete m N).toFinset, tree.address, tree.ri, fun p hp => ((hmem p).mp hp).1,
    fun p hp => hself p ((hmem p).mp hp), fun p hp h0 => ?_, fun p hp n hn hinit => ?_,
    fun p hp => ?_, fun p hp => ?_⟩, rfl, rfl, hmem⟩
  · obtain ⟨pred, succ, -, -, hri⟩ := hview p ((hmem p).mp hp)
    have hparent := ((hmem p).mp hp).parent h0
    refine ⟨p.parent m, (hmem _).mpr hparent, ?_⟩
    rw [hri, ← slot_treeView hparent]
    exact if_neg h0
  · obtain ⟨pred, succ, -, -, hri⟩ := hview p ((hmem p).mp hp)
    have hlayout : (tree.ri p).children ++ (tree.ri p).routingTableNeighbors ++
        (tree.ri p).routingTableNeighborChildren = (childPositions m p ++ tableLayout m p ++
          tableChildLayout m p).map (slot (treeView m N tree.address)) := by
      rw [hri, map_append, map_append]
      rfl
    rw [hlayout] at hn
    obtain ⟨q, -, rfl⟩ := mem_map.mp hn
    exact hslot q hinit
  · obtain ⟨pred, succ, hpred, -, hri⟩ := hview p ((hmem p).mp hp)
    refine ⟨pred, ?_, by rw [hri]; rfl⟩
    simpa only [hmem] using hpred
  · obtain ⟨pred, succ, -, hsucc, hri⟩ := hview p ((hmem p).mp hp)
    refine ⟨succ, ?_, by rw [hri]; rfl⟩
    simpa only [hmem] using hsucc

omit hm hsmall in
/-- The steps of a search are hops on the way of the request. -/
theorem Arrives.of_searchRun {st : SearchTree m} {requester p dest : Pos} {visited : List Pos}
    {action : SearchExactAction Unit}
    (hrun : SearchRun st (.ofPos dest) (findQuery st.ri requester) p visited action) :
    (∀ n, action = .receive n (findQuery st.ri requester) →
      Arrives m st.ri requester p dest n.pos) ∧
    ∀ n, action = .sendFailure n (.ofPos dest) (findQuery st.ri requester) →
      ∀ parent q, calcParent m dest = .ok parent → Arrives m st.ri requester n.pos parent q →
        Arrives m st.ri requester p dest q := by
  induction hrun with
  | stop hact _ =>
    exact ⟨fun n hn => .receive (hn ▸ hact), fun n hn parent q hparent hrest =>
      .redirect (hn ▸ hact) hparent hrest⟩
  | hop hact _ _ ih =>
    exact ⟨fun n hn => .hop hact (ih.1 n hn), fun n hn parent q hparent hrest =>
      .hop hact (ih.2 n hn parent q hparent hrest)⟩

omit hm hsmall in
/-- A request has one way only. -/
theorem Arrives.unique {ri : Pos → RoutingInformation} {requester p dest q q' : Pos}
    (h : Arrives m ri requester p dest q) (h' : Arrives m ri requester p dest q') : q = q' := by
  induction h with
  | receive hact =>
    cases h' with
    | receive hact' =>
      cases hact.symm.trans hact'
      rfl
    | hop hact' _ => cases hact.symm.trans hact'
    | redirect hact' _ _ => cases hact.symm.trans hact'
  | hop hact _ ih =>
    cases h' with
    | receive hact' => cases hact.symm.trans hact'
    | hop hact' hrest =>
      cases hact.symm.trans hact'
      exact ih hrest
    | redirect hact' _ _ => cases hact.symm.trans hact'
  | redirect hact hparent _ ih =>
    cases h' with
    | receive hact' => cases hact.symm.trans hact'
    | hop hact' _ => cases hact.symm.trans hact'
    | redirect hact' hparent' hrest =>
      cases hact.symm.trans hact'
      cases hparent.symm.trans hparent'
      exact ih hrest

variable {requester p dest : Pos} (hp : Complete m N p)
include hp

/-- The search for a position finds its node, or sends a failure to the
requesting node. -/
theorem RoutedTree.search_outcome (hdest : dest.Valid m) (hexact : Exact m dest) :
    ∃ st : SearchTree m, st.ri = tree.ri ∧ ∃ visited action,
      SearchRun st (.ofPos dest) (findQuery st.ri requester) p visited action ∧
      (Complete m N dest → action = .receive (existingNode tree.address dest)
        (findQuery st.ri requester)) ∧
      (¬ Complete m N dest → action = .sendFailure (tree.ri requester).selfNodeInfo (.ofPos dest)
        (findQuery st.ri requester)) := by
  obtain ⟨st, hri, haddress, hnodes⟩ := tree.exists_searchTree hm hsmall
  have hexactNodes : ∀ q ∈ st.nodes, Exact m q := fun q hq =>
    Small.exact hm (hsmall q ((hnodes q).mp hq)) ((hnodes q).mp hq).1
  have hlogical : (NodeInfo.ofPos dest).logical = some dest := rfl
  have hquery : (findQuery st.ri requester).isEmpty = false := rfl
  obtain ⟨visited, action, hrun, -, -, hin, hout⟩ :=
    exists_searchRun hm hexactNodes hdest hexact hlogical hquery p ((hnodes p).mpr hp)
  refine ⟨st, hri, visited, action, hrun, fun h => ?_, fun h => ?_⟩
  · rw [← haddress]
    exact hin ((hnodes dest).mpr h)
  · rw [← hri]
    exact hout fun hmem => h ((hnodes dest).mp hmem)

/-- A request for an existing position arrives there. -/
theorem RoutedTree.arrives_of_complete (hdest : Complete m N dest) :
    Arrives m tree.ri requester p dest dest := by
  obtain ⟨st, hri, visited, action, hrun, hin, -⟩ := tree.search_outcome hm hsmall hp hdest.1
    (Small.exact hm (hsmall dest hdest) hdest.1)
  have harrives := (Arrives.of_searchRun hrun).1 _ (hin hdest)
  rw [hri] at harrives
  exact harrives

/-- A request for a missing position goes on to the position above. -/
theorem RoutedTree.arrives_of_missing (hrequester : Complete m N requester)
    (hdest : dest.Valid m) (hexact : Exact m dest) (h0 : dest.level ≠ 0)
    (hmissing : ¬ Complete m N dest) {q : Pos}
    (hrest : Arrives m tree.ri requester requester (dest.parent m) q) :
    Arrives m tree.ri requester p dest q := by
  obtain ⟨st, hri, visited, action, hrun, -, hout⟩ :=
    tree.search_outcome hm hsmall hp hdest hexact
  have hself : (tree.ri requester).selfNodeInfo.pos = requester := by
    rw [tree.selfNodeInfo hm hrequester (hsmall.fits hm requester hrequester)]
    rfl
  have harrives := (Arrives.of_searchRun hrun).2 _ (hout hmissing) (dest.parent m) q
    (calcParent_eq hm hdest h0)
  rw [hri, hself] at harrives
  exact harrives hrest

end Search

/-! ### The handlers -/

section Handlers

variable {m : ℕ} (hm : isFanoutValid m = true) {p : Pos} (hroom : Roomy m p.level)
  {address : Address} {v : Pos → Option Address} {left right : NodeInfo}
include hm hroom

/-- The handler of a DSN is active, and it has the data of its cover area. -/
theorem activity_of_isDsn (hdsn : IsDsn m p) :
    ∃ s, activity m (ofView m p address v left right) = (s, .ok true) ∧
      DsnNode.Covered m p v left right s.handler := by
  obtain ⟨h, hrun, -, -, hbuilt⟩ := checkPosition_of_isDsn hm hroom
    (s := {
      routingInfo := ofView m p address v left right
      handler := ⟨false, false, [], fun _ => none, [], fun _ => none⟩
      inquiries := []
      clock := 0
      reports := []
      handlerFailed := false }) rfl hdsn fun _ => DsnNode.NoData.onlyOccupied fun _ => rfl
  have hcovered := hbuilt rfl
  obtain ⟨s, hstart, hri, hactive, hdata⟩ : ∃ s : DsnNode,
      start m (ofView m p address v left right) = s ∧
      s.routingInfo = ofView m p address v left right ∧ s.handler.isActive = false ∧
      DsnNode.OnlyOccupied m p v left right s.handler := by
    refine ⟨_, rfl, ?_, ?_, ?_⟩
    all_goals
      unfold start construct
      rw [bind_run_ok hrun]
    · rfl
    · rfl
    · exact hcovered.onlyOccupied
  obtain ⟨h', hanswer, -, -, hcovered'⟩ :=
    isActive_of_isDsn hm hroom hri hdsn fun _ => hdata
  rw [activity, hstart, hanswer]
  exact ⟨_, rfl, hcovered' hactive⟩

variable {s : DsnNode} {positions : List Pos}

omit hm hroom in
/-- A temporary DSN enters what it knows of its area. -/
theorem DsnNode.buildTempCoverArea_run (hri : s.routingInfo = ofView m p address v left right)
    (harea : tempCoverArea m s.routingInfo = .ok positions)
    (hvalid : ∀ q ∈ positions, isPositionValid m q = true ∧ p.level ≤ q.level) :
    ∃ h, buildTempCoverArea m s = ({ s with handler := h }, .ok ()) ∧
      h.isActive = s.handler.isActive ∧
      ∀ q, (h.coverData q).isSome = true ↔ (s.handler.coverData q).isSome = true ∨
        q ∈ positions ∧ Occupied m p v left right q := by
  obtain ⟨data, hrun, hspec⟩ :=
    enterKnown_spec address v left right hvalid s.handler.coverData
  obtain ⟨firstChild, hchild, hrest⟩ := bind_eq_ok.mp harea
  obtain ⟨dsn, hdsn, hrest⟩ := bind_eq_ok.mp hrest
  obtain ⟨area, hcover, hrest⟩ := bind_eq_ok.mp hrest
  obtain rfl := ok.inj hrest
  rw [← hri] at hrun
  refine ⟨{ s.handler with
    coverAreaPositions := eraseRemoveIf (fun q => q.level ≠ firstChild.level) area
    coverData := data }, ?_, rfl, hspec⟩
  unfold buildTempCoverArea onHandler
  simp only [get_bind_run, hchild, lift_ok_bind_run, hdsn, hcover,
    modify_bind_run, hrun, modify_run]

omit hm hroom in
theorem DsnNode.checkPosition_of_tempDsn (hri : s.routingInfo = ofView m p address v left right)
    (hprevious : s.handler.wasPreviouslyActive = false)
    (hnot : s.routingInfo.areWeDSN m = .ok false) (htemp : s.routingInfo.areWeTempDSN m = .ok true)
    (harea : tempCoverArea m s.routingInfo = .ok positions)
    (hvalid : ∀ q ∈ positions, isPositionValid m q = true ∧ p.level ≤ q.level) :
    ∃ h, checkPosition m s = ({ s with handler := h }, .ok ()) ∧ h.isActive = true ∧
      ∀ q ∈ positions, Occupied m p v left right q → (h.coverData q).isSome = true := by
  have hinit : s.routingInfo.selfNodeInfo.isInitialized = true := by rw [hri]; rfl
  obtain ⟨h, hrun, hactive, hspec⟩ := buildTempCoverArea_run
    (s := { s with
      handler := { s.handler with isActive := true, wasPreviouslyActive := false } })
    hri harea hvalid
  refine ⟨h, ?_, hactive, fun q hq hocc => (hspec q).mpr (Or.inr ⟨hq, hocc⟩)⟩
  unfold checkPosition onHandler
  simp only [modify_bind_run, get_bind_run, hinit, hnot, htemp, hprevious,
    Bool.not_true, Bool.false_eq_true, if_false, lift_ok_bind_run, Bool.not_false,
    Bool.true_and, Bool.false_and]
  exact hrun

omit hm hroom in
/-- The handler of a temporary DSN is active, and it has the data of those in its
area that it knows. -/
theorem activity_of_tempDsn (hnot : (ofView m p address v left right).areWeDSN m = .ok false)
    (htemp : (ofView m p address v left right).areWeTempDSN m = .ok true)
    (harea : tempCoverArea m (ofView m p address v left right) = .ok positions)
    (hvalid : ∀ q ∈ positions, isPositionValid m q = true ∧ p.level ≤ q.level) :
    ∃ s, activity m (ofView m p address v left right) = (s, .ok true) ∧
      ∀ q ∈ positions, Occupied m p v left right q →
        (s.handler.coverData q).isSome = true := by
  obtain ⟨h, hrun, -, -⟩ := checkPosition_of_tempDsn
    (s := {
      routingInfo := ofView m p address v left right
      handler := ⟨false, false, [], fun _ => none, [], fun _ => none⟩
      inquiries := []
      clock := 0
      reports := []
      handlerFailed := false }) rfl rfl hnot htemp harea hvalid
  obtain ⟨s, hstart, hri, hactive⟩ : ∃ s : DsnNode,
      start m (ofView m p address v left right) = s ∧
      s.routingInfo = ofView m p address v left right ∧ s.handler.isActive = false := by
    refine ⟨_, rfl, ?_, ?_⟩
    all_goals
      unfold start construct
      rw [bind_run_ok hrun]
      rfl
  rw [← hri] at hnot htemp harea
  obtain ⟨h', hrun', hactive', hspec⟩ := checkPosition_of_tempDsn
    (s := { s with handler := { s.handler with wasPreviouslyActive := s.handler.isActive } })
    hri hactive hnot htemp harea hvalid
  refine ⟨{ s with handler := h' }, ?_, hspec⟩
  rw [activity, hstart]
  unfold isActive onHandler
  rw [modify_bind_run, bind_run_ok hrun', get_bind_run]
  simp only [hactive']
  rfl

end Handlers

/-! ### What a DSN of a tree knows -/

theorem Small.roomy {m L : ℕ} (hm : isFanoutValid m = true) (h : Small m L) : Roomy m L := by
  have hm2 := isFanoutValid_iff.mp hm
  have hsquare : m * m ≤ 255 * 255 := Nat.mul_le_mul hm2.2 hm2.2
  have hpow : m ^ (L + 1) ≤ 65536 * (m * m) := by
    calc m ^ (L + 1) = m ^ L * m := pow_succ m L
      _ ≤ 65536 * m * m := Nat.mul_le_mul_right m h
      _ = 65536 * (m * m) := Nat.mul_assoc _ _ _
  unfold Roomy
  omega

section Dsns

variable {m N : ℕ} (tree : RoutedTree m N) (hm : isFanoutValid m = true)
  (hsmall : SmallTree m N) {L i : ℕ} (hi : i < dsnCount m L)
  (hdsn : Complete m N ⟨L, dsnNumber m L i⟩)
include hm hsmall hi hdsn

/-- A DSN of a tree has the nodes of its cover area in its data. -/
theorem RoutedTree.activity_dsn :
    ∃ s, activity m (tree.ri ⟨L, dsnNumber m L i⟩) = (s, .ok true) ∧
      ∀ q, (s.handler.coverData q).isSome = true ↔ q ∈ coverArea m L i ∧ Complete m N q := by
  have hm2 := isFanoutValid_iff.mp hm
  have hfits := hsmall.fits hm _ hdsn
  have hisDsn : IsDsn m ⟨L, dsnNumber m L i⟩ := mem_dsnNumbers.mpr ⟨i, hi, rfl⟩
  have heven := level_even_of_mem_dsnNumbers hisDsn
  obtain ⟨pred, succ, hpred, hsucc, hri⟩ := (tree.correct _ hdsn).eq_ofView hm hdsn.1 hfits
  obtain ⟨s, hactive, hcovered⟩ : ∃ s, activity m (tree.ri ⟨L, dsnNumber m L i⟩) =
      (s, .ok true) ∧ DsnNode.Covered m ⟨L, dsnNumber m L i⟩ (treeView m N tree.address)
        (adjacentSlot tree.address pred) (adjacentSlot tree.address succ) s.handler := by
    rw [hri]
    exact activity_of_isDsn hm (Small.roomy hm (hsmall _ hdsn)) hisDsn
  refine ⟨s, hactive, fun q => ?_⟩
  have harea := (getCoverArea_eq hm heven hfits hi).symm.trans hcovered.1
  rw [hcovered.2 q, ← ok.inj harea]
  refine and_congr_right fun hq => ⟨complete_of_occupied hpred hsucc, fun hcomplete => ?_⟩
  exact Or.inl ⟨isSlot_of_mem_coverArea hm hfits hi hq, treeView_isSome.mpr hcomplete⟩

end Dsns

/-- Above a missing first DSN the handler is active, and it has the data of the
nodes of the level. -/
theorem RoutedTree.activity_above_first {m N : ℕ} (tree : RoutedTree m N)
    (hm : isFanoutValid m = true) (hsmall : SmallTree m N) {p : Pos} (hp : Complete m N p)
    (heven : p.level % 2 = 0) (h0 : p.level ≠ 0)
    (hmissing : ¬ Complete m N ⟨p.level, dsnNumber m p.level 0⟩) :
    ∃ s, activity m (tree.ri ((⟨p.level, dsnNumber m p.level 0⟩ : Pos).parent m)) =
        (s, .ok true) ∧ (s.handler.coverData p).isSome = true := by
  have hm2 := isFanoutValid_iff.mp hm
  have hfits := hsmall.fits hm p hp
  have hcount : 0 < dsnCount m p.level := dsnCount_pos hm2.1 heven
  have hzero := dsnNumber_zero hm h0 hcount
  -- only the children of the first position above exist
  have hlt : p.number < m := by
    by_contra hge
    refine hmissing (hp.of_number_le ?_)
    omega
  have hmem : p.number ∈ coveredNumbers m p.level 0 := by
    have hhigh := le_coverHigh hm (L := p.level) 0
    refine ((mem_coveredNumbers hm hcount).mpr ⟨Nat.zero_le _, ?_⟩).resolve_right ?_
    · omega
    · omega
  have htemp := tree.areWeTempDSN_above_first hm hp hfits heven h0 hmissing
  obtain ⟨below, harea, hbelow⟩ := tree.exists_tempCoverArea_above_first hm hp hfits heven h0
  obtain ⟨K, hK, habove, hparent, -⟩ := exists_above_first hm hp heven h0
  rw [hparent] at htemp harea ⊢
  have hfitsK : Fits m (⟨K, 1⟩ : Pos).level := hsmall.fits hm _ habove
  have hnot := tree.areWeDSN_eq hm habove hfitsK
  rw [decide_eq_false (not_isDsn_of_odd (p := ⟨K, 1⟩) (by show K % 2 = 1; omega))] at hnot
  obtain ⟨pred, succ, -, -, hri⟩ := (tree.correct _ habove).eq_ofView hm habove.1 hfitsK
  rw [hri] at htemp harea hnot ⊢
  obtain ⟨s, hactive, hdata⟩ := activity_of_tempDsn hnot htemp harea fun q hq => by
    have harea : q ∈ coverArea m p.level 0 := by
      rcases mem_append.mp hq with hq | hq
      · exact mem_append_left _ hq
      · exact hbelow q hq
    obtain ⟨hvalid, hlevel⟩ := coverArea_valid hm hcount harea
    exact ⟨(isPositionValid_iff hm).mpr hvalid, by show K ≤ q.level; omega⟩
  refine ⟨s, hactive, hdata p (mem_append_left _ ?_) (Or.inl ⟨?_, ?_⟩)⟩
  · exact mem_map.mpr ⟨p.number, hmem, rfl⟩
  · obtain ⟨r, hr, hchild⟩ := mem_tableChildLayout.mp
      (mem_tableChildLayout_first hm hfits hK habove hlt)
    exact .neighborChild hr hchild
  · exact treeView_isSome.mpr hp

/-! ### The targets of a find -/

/-- The node itself as a DSN, or a DSN of a level.  On the deepest levels it is
the first one. -/
def IsTarget (m : ℕ) (ri : RoutingInformation) (n : NodeInfo) : Prop :=
  (n = ri.selfNodeInfo ∧ IsDsn m n.pos) ∨
    ∃ L i, i < dsnCount m L ∧ n = .ofPos ⟨L, dsnNumber m L i⟩ ∧ L ≤ ri.knownMaxLevel + 1 ∧
      (ri.knownMaxLevel ≤ L → i = 0)

section Targets

variable {m : ℕ} (hm : isFanoutValid m = true) {ri : RoutingInformation}
include hm

/-- The first DSN of an even level other than the root's. -/
theorem isTarget_first {L : ℕ} (heven : L % 2 = 0) (h0 : L ≠ 0) (hL : L ≤ ri.knownMaxLevel + 1) :
    IsTarget m ri (.ofPos ⟨L, m⟩) := by
  have hcount := dsnCount_pos (isFanoutValid_iff.mp hm).1 heven
  refine Or.inr ⟨L, 0, hcount, ?_, hL, fun _ => rfl⟩
  rw [dsnNumber_zero hm h0 hcount]

omit hm in
theorem isTarget_root : IsTarget m ri (.ofPos ⟨0, 0⟩) :=
  Or.inr ⟨0, 0, Nat.one_pos, rfl, Nat.zero_le _, fun _ => rfl⟩

variable {n : NodeInfo}

theorem isTarget_initialDsnOn {weAreDsn : Bool}
    (hown : weAreDsn = true → IsDsn m ri.selfNodeInfo.pos) {level : ℕ} (heven : level % 2 = 0)
    (h0 : level ≠ 0) (hlevel : level < ri.knownMaxLevel) (hfits : Fits m level)
    (hrun : ri.initialDsnOn m weAreDsn level = .ok n) : IsTarget m ri n := by
  unfold RoutingInformation.initialDsnOn at hrun
  split_ifs at hrun with hself
  · obtain rfl := ok.inj hrun
    exact Or.inl ⟨rfl, hown hself.2⟩
  · rw [getDSNSet_eq hm hfits] at hrun
    simp only [bind, Except.bind] at hrun
    have hlength : (dsnNumbers m level).length = dsnCount m level := by simp [dsnNumbers]
    split_ifs at hrun
    · obtain rfl := ok.inj hrun
      exact isTarget_first hm heven h0 (by omega)
    · obtain rfl := ok.inj hrun
      have hcount := dsnCount_pos (isFanoutValid_iff.mp hm).1 heven
      have hmiddle : dsnCount m level / 2 < dsnCount m level := by omega
      rw [hlength, getD_dsnNumbers hmiddle]
      exact Or.inr ⟨level, _, hmiddle, rfl, by omega, by omega⟩

/-- All to whom a find is sent. -/
theorem isTarget_of_mem (hfits : Fits m ri.knownMaxLevel) (hvalid : ri.selfNodeInfo.pos.Valid m)
    {dsns : List NodeInfo} (hrun : ri.calcDSNsToSendInitialCDSForwardingTo m = .ok dsns)
    (hn : n ∈ dsns) : IsTarget m ri n := by
  have hlevel : ri.selfNodeInfo.level ≤ ri.knownMaxLevel := by
    rw [RoutingInformation.knownMaxLevel_eq]
    exact le_max_right _ _
  obtain ⟨thisLevelDs, hset, hrun⟩ := bind_eq_ok.mp hrun
  obtain ⟨middle, hmiddle, hrun⟩ := bind_eq_ok.mp hrun
  obtain rfl := ok.inj hrun
  obtain rfl : dsnNumbers m ri.selfNodeInfo.level = thisLevelDs :=
    ok.inj ((getDSNSet_eq hm (hfits.mono hm hlevel)).symm.trans hset)
  have hown : (!(dsnNumbers m ri.selfNodeInfo.level).isEmpty &&
      (dsnNumbers m ri.selfNodeInfo.level).contains ri.selfNodeInfo.number) = true →
      IsDsn m ri.selfNodeInfo.pos := by
    intro h
    simp only [Bool.and_eq_true, contains_iff_mem] at h
    exact h.2
  rcases mem_cons.mp hn with rfl | hn
  · split_ifs with h0
    · exact isTarget_root
    · -- the root is the only node of its level
      have hlt : ri.selfNodeInfo.number < m ^ ri.selfNodeInfo.level := hvalid
      rw [not_not.mp h0, pow_zero] at hlt
      refine Or.inl ⟨rfl, ?_⟩
      show ri.selfNodeInfo.number ∈ dsnNumbers m ri.selfNodeInfo.level
      rw [not_not.mp h0, show ri.selfNodeInfo.number = 0 by omega]
      exact isDsn_root m
  rcases mem_append.mp hn with hn | hn
  · obtain ⟨level, hmem, hstep⟩ := exists_of_mapM_ok hmiddle hn
    obtain ⟨i, hi, rfl⟩ := mem_range'.mp hmem
    exact isTarget_initialDsnOn hm hown (by omega) (by omega) (by omega)
      (hfits.mono hm (by omega)) hstep
  · obtain rfl := mem_singleton.mp hn
    split_ifs with heven hself hzero
    · exact Or.inl ⟨rfl, hown hself.2⟩
    · rw [hzero]
      exact isTarget_root
    · exact isTarget_first hm heven hzero (by omega)
    · exact isTarget_first hm (by omega) (by omega) le_rfl

end Targets

/-! ### Who receives a request -/

/-- A request to a DSN that exists: an initial one or a forwarded one. -/
def DsnRequest (m N : ℕ) (address : Pos → Address) (msg : FindQueryRequest) : Prop :=
  ∃ L, (∃ q ∈ existingDsns m N L, msg = initialRequest m q) ∨ msg.Forwarded m N L address

section Runs

variable {m N : ℕ} (tree : RoutedTree m N) (hm : isFanoutValid m = true)
  (hsmall : SmallTree m N) {msg : FindQueryRequest} {dsns : List NodeInfo} {n : NodeInfo}

/-- The target is a DSN that exists. -/
theorem DsnRequest.exists_dsn {address : Pos → Address} (h : DsnRequest m N address msg) :
    ∃ L i, i < dsnCount m L ∧
      msg.target.pos = ⟨L, dsnNumber m L i⟩ ∧ Complete m N ⟨L, dsnNumber m L i⟩ := by
  obtain ⟨L, q, hq, htarget⟩ : ∃ L, ∃ q ∈ existingDsns m N L, msg.target.pos = q := by
    obtain ⟨L, ⟨q, hq, rfl⟩ | ⟨⟨q, hq, htarget⟩, -⟩⟩ := h
    · exact ⟨L, q, hq, rfl⟩
    · exact ⟨L, q, hq, by rw [htarget]; rfl⟩
  obtain ⟨hlevel, hnumber, hcomplete⟩ := mem_existingDsns.mp hq
  obtain ⟨i, hi, heq⟩ := mem_dsnNumbers.mp hnumber
  have hpos : q = ⟨L, dsnNumber m L i⟩ := Pos.ext_iff'.mpr ⟨hlevel, heq.symm⟩
  exact ⟨L, i, hi, htarget.trans hpos, hpos ▸ hcomplete⟩

include hm hsmall

omit hm in
theorem small_of_mem_existingDsns {L : ℕ} {q : Pos} (hq : q ∈ existingDsns m N L) :
    Small m L := by
  obtain ⟨rfl, -, hcomplete⟩ := mem_existingDsns.mp hq
  exact hsmall q hcomplete

/-- A DSN forwards a request to DSNs that exist. -/
theorem RoutedTree.dsnRequest_of_mem_forwards {next : FindQueryRequest}
    (h : DsnRequest m N tree.address msg) (hnext : next ∈ forwards m tree.ri msg) :
    DsnRequest m N tree.address next := by
  obtain ⟨L, ⟨q, hq, rfl⟩ | hforwarded⟩ := h
  · have hs := small_of_mem_existingDsns hsmall hq
    exact ⟨L, Or.inr ((forwards_initialRequest hm hs tree hq).1 next hnext)⟩
  · obtain ⟨q, hq, -⟩ := hforwarded.target
    have hs := small_of_mem_existingDsns hsmall hq
    exact ⟨L, Or.inr ((forwards_divides hm hs tree).good msg hforwarded next hnext)⟩

/-- The handler of a DSN that receives a request is active. -/
theorem RoutedTree.active_of_dsnRequest (h : DsnRequest m N tree.address msg) :
    (activity m (tree.ri msg.target.pos)).2 = .ok true := by
  obtain ⟨L, i, hi, hpos, hcomplete⟩ := h.exists_dsn
  obtain ⟨s, hactive, -⟩ := tree.activity_dsn hm hsmall hi hcomplete
  rw [hpos, hactive]

/-- If one DSN of a level receives the initial request, every DSN of the level
receives one. -/
theorem RoutedTree.receives_of_initial {p q q' : Pos} {L : ℕ} (hq : q ∈ existingDsns m N L)
    (hq' : q' ∈ existingDsns m N L) (hinitial : Receives m tree.ri p (initialRequest m q)) :
    ∃ msg, Receives m tree.ri p msg ∧ msg.target.pos = q' := by
  have hs := small_of_mem_existingDsns hsmall hq
  have hdsn : DsnRequest m N tree.address (initialRequest m q) := ⟨L, Or.inl ⟨q, hq, rfl⟩⟩
  by_cases heq : q' = q
  · exact ⟨_, hinitial, heq.symm⟩
  obtain ⟨hgood, htotal⟩ := forwards_initialRequest hm hs tree hq
  obtain ⟨hruns, msgs, s, hrun, hdone⟩ :=
    deliverAll_total (forwards_divides hm hs tree) hgood htotal
  have hdelivered : q' ∈ s.delivered := by
    rw [(hruns msgs s hrun).2 hdone]
    exact (Multiset.mem_erase_of_ne heq).mpr hq'
  have hforward : ∀ msg, DsnRequest m N tree.address msg → Receives m tree.ri p msg →
      ∀ next ∈ forwards m tree.ri msg,
        DsnRequest m N tree.address next ∧ Receives m tree.ri p next :=
    fun msg hmsg hreceives next hnext =>
      ⟨tree.dsnRequest_of_mem_forwards hm hsmall hmsg hnext,
        .forward hreceives (tree.active_of_dsnRequest hm hsmall hmsg) hnext⟩
  obtain ⟨msg, ⟨-, hreceives⟩, hpos⟩ := exists_of_mem_delivered
    (hforward _ hdsn hinitial) (fun msg h => hforward msg h.1 h.2) hrun hdelivered
  exact ⟨msg, hreceives, hpos⟩

variable {p : Pos} (hp : Complete m N p)
include hp

variable (hrun : (tree.ri p).calcDSNsToSendInitialCDSForwardingTo m = .ok dsns)
include hrun

/-- A target with a node receives the initial request. -/
theorem RoutedTree.receives_target (hn : n ∈ dsns) (hcomplete : Complete m N n.pos) :
    Receives m tree.ri p (initialRequest m n.pos) := by
  by_cases hself : n.logical = (tree.ri p).selfNodeInfo.logical
  · exact .own hrun hn hself
  · exact .search hrun hn hself (tree.arrives_of_complete hm hsmall hp hcomplete)

/-- A target is a DSN that exists, or the first DSN of a level that is not above
any other. -/
theorem RoutedTree.target_cases (hn : n ∈ dsns) :
    n.pos ∈ existingDsns m N n.level ∨
      (∃ L, L % 2 = 0 ∧ n = .ofPos ⟨L, dsnNumber m L 0⟩ ∧
        ¬ Complete m N ⟨L, dsnNumber m L 0⟩ ∧ ∃ q, Complete m N q ∧ L ≤ q.level + 1) := by
  obtain ⟨deepest, hdeepest, hlevel⟩ := tree.exists_knownMaxLevel hm (hsmall.fits hm) hp
  have hself := tree.selfNodeInfo hm hp (hsmall.fits hm p hp)
  have hselfPos : (tree.ri p).selfNodeInfo.pos = p := by rw [hself]; rfl
  rcases isTarget_of_mem hm (by rw [← hlevel]; exact hsmall.fits hm _ hdeepest)
    (by rw [hselfPos]; exact hp.1) hrun hn with ⟨rfl, hdsn⟩ | ⟨L, i, hi, rfl, hL, hfirst⟩
  · rw [hselfPos] at hdsn
    left
    refine mem_existingDsns.mpr ⟨rfl, ?_, by rw [hselfPos]; exact hp⟩
    rw [hselfPos, show (tree.ri p).selfNodeInfo.level = p.level from congrArg Pos.level hselfPos]
    exact hdsn
  · have hmem : dsnNumber m L i ∈ dsnNumbers m L := mem_dsnNumbers.mpr ⟨i, hi, rfl⟩
    by_cases hcomplete : Complete m N ⟨L, dsnNumber m L i⟩
    · exact Or.inl (mem_existingDsns.mpr ⟨rfl, hmem, hcomplete⟩)
    · -- all levels above the deepest known one are full
      have hdeep : (tree.ri p).knownMaxLevel ≤ L := by
        by_contra hlt
        exact hcomplete (hdeepest.of_level_lt (dsnNumber_lt_pow hm i) (by
          show L < deepest.level
          omega))
      obtain rfl := hfirst hdeep
      exact Or.inr ⟨L, level_even_of_mem_dsnNumbers hmem, rfl, hcomplete, deepest, hdeepest,
        by omega⟩

end Runs

/-! ### Who is reached -/

/-- Every node of an even level has its covering DSN, or is covered by the first
DSN of the level. -/
def DsnsExist (m N : ℕ) : Prop :=
  ∀ p, Complete m N p → p.level % 2 = 0 → ∀ i < dsnCount m p.level,
    coverLow m p.level i ≤ p.number → p.number ≤ coverHigh m p.level i →
      i = 0 ∨ Complete m N ⟨p.level, dsnNumber m p.level i⟩

section Reached

variable {m N : ℕ} (tree : RoutedTree m N) (hm : isFanoutValid m = true)
  (hsmall : SmallTree m N) {p q : Pos} (hq : Complete m N q)
include hm hsmall hq

variable {msg : FindQueryRequest}

/-- A DSN that receives a request reaches its cover area. -/
theorem RoutedTree.reached_of_dsn {L i : ℕ} (hi : i < dsnCount m L)
    (hdsn : Complete m N ⟨L, dsnNumber m L i⟩) (hreceives : Receives m tree.ri p msg)
    (hpos : msg.target.pos = ⟨L, dsnNumber m L i⟩)
    (hcovers : q = ⟨L, dsnNumber m L i⟩ ∨ q ∈ coverArea m L i) : Reached m tree.ri p q := by
  obtain ⟨s, hactive, hdata⟩ := tree.activity_dsn hm hsmall hi hdsn
  refine ⟨msg, hreceives, by rw [hpos, hactive], ?_⟩
  rcases hcovers with rfl | hmem
  · exact Or.inl hpos.symm
  · right
    rw [hpos, hactive]
    exact (hdata q).mpr ⟨hmem, hq⟩

variable (hp : Complete m N p)
include hp

/-- Where the first DSN of the deepest level is missing, the request comes to
the temporary DSN above it. -/
theorem RoutedTree.reached_of_missing_first (heven : q.level % 2 = 0)
    (hmissing : ¬ Complete m N ⟨q.level, dsnNumber m q.level 0⟩) :
    Reached m tree.ri p q := by
  have h0 : q.level ≠ 0 := by
    intro h0
    rw [h0] at hmissing
    exact hmissing hq.root
  have hvalid : (⟨q.level, dsnNumber m q.level 0⟩ : Pos).Valid m := dsnNumber_lt_pow hm 0
  obtain ⟨dsns, n, hrun, hn, hlevel⟩ := tree.exists_target hm (hsmall.fits hm) hp hq heven
  obtain rfl : n = .ofPos ⟨q.level, dsnNumber m q.level 0⟩ := by
    rcases tree.target_cases hm hsmall hp hrun hn with hdsn | ⟨L, -, rfl, -⟩
    · -- the first DSN would exist with any other one
      rw [hlevel] at hdsn
      have hcount := dsnCount_pos (isFanoutValid_iff.mp hm).1 heven
      obtain ⟨j, hj, hnumber⟩ := mem_dsnNumbers.mp (mem_existingDsns.mp hdsn).2.1
      have hfirst := mk_mem_existingDsns hdsn hcount (by
        rw [← hnumber]
        exact dsnNumber_le hm (Nat.zero_le j) hj)
      exact absurd (mem_existingDsns.mp hfirst).2.2 hmissing
    · have hL : L = q.level := hlevel
      rw [hL]
  have hself : (NodeInfo.ofPos ⟨q.level, dsnNumber m q.level 0⟩).logical ≠
      (tree.ri p).selfNodeInfo.logical := by
    rw [tree.selfNodeInfo hm hp (hsmall.fits hm p hp)]
    intro heq
    have hpos := Option.some.inj heq
    exact hmissing (hpos ▸ hp)
  obtain ⟨K, -, habove, hparent, -⟩ := exists_above_first hm hq heven h0
  have harrives := tree.arrives_of_missing hm hsmall hp hp hvalid
    (Small.exact hm (hsmall q hq) hvalid) h0 hmissing
    (tree.arrives_of_complete hm hsmall hp (hparent ▸ habove))
  obtain ⟨s, hactive, hdata⟩ := tree.activity_above_first hm hsmall hq heven h0 hmissing
  exact ⟨_, .search hrun hn hself harrives, congrArg Prod.snd hactive,
    Or.inr ((congrArg (fun r => (r.1.handler.coverData q).isSome) hactive).trans hdata)⟩

theorem RoutedTree.reached_of_dsnsExist (h : DsnsExist m N) : Reached m tree.ri p q := by
  have hcov : Complete m N (coveringPos m q) := by
    rw [coveringPos]
    split_ifs with heven
    · exact hq
    · exact hq.parent (by omega)
  have heven := coveringPos_level_even (m := m) (p := q)
  have hcount := dsnCount_pos (isFanoutValid_iff.mp hm).1 heven
  obtain ⟨i, hi, hin⟩ := (consecutive_cover hm).exists_index hcount (Nat.le_pred_of_lt hcov.1)
  have hcovers := (mem_coverArea_iff_coveringPos hm heven hi level_eq_coveringPos).mpr hin
  by_cases hdsn : Complete m N ⟨(coveringPos m q).level, dsnNumber m (coveringPos m q).level i⟩
  · obtain ⟨dsns, n, hrun, hn, hlevel⟩ := tree.exists_target hm (hsmall.fits hm) hp hcov heven
    have htarget : n.pos ∈ existingDsns m N n.level := by
      refine (tree.target_cases hm hsmall hp hrun hn).resolve_right ?_
      rintro ⟨L, -, rfl, hmissing, -⟩
      have hL : L = (coveringPos m q).level := hlevel
      rw [hL] at hmissing
      exact hmissing (hdsn.of_number_le (dsnNumber_le hm (Nat.zero_le i) hi))
    have hinitial := tree.receives_target hm hsmall hp hrun hn (mem_existingDsns.mp htarget).2.2
    have hmem : (⟨(coveringPos m q).level, dsnNumber m (coveringPos m q).level i⟩ : Pos) ∈
        existingDsns m N (coveringPos m q).level :=
      mem_existingDsns.mpr ⟨rfl, mem_dsnNumbers.mpr ⟨i, hi, rfl⟩, hdsn⟩
    rw [hlevel] at htarget
    obtain ⟨msg, hreceives, hpos⟩ := tree.receives_of_initial hm hsmall htarget hmem hinitial
    exact tree.reached_of_dsn hm hsmall hq hi hdsn hreceives hpos hcovers
  · obtain rfl := (h _ hcov heven i hi hin.1 hin.2).resolve_right hdsn
    -- the level below would have none
    have hlevel : q.level = (coveringPos m q).level := by
      refine level_eq_coveringPos.resolve_right fun hlevel => hdsn ?_
      refine hq.of_level_lt (dsnNumber_lt_pow hm 0) ?_
      show (coveringPos m q).level < q.level
      omega
    rw [← hlevel] at heven hdsn
    exact tree.reached_of_missing_first hm hsmall hq hp heven hdsn

omit hq in
/-- If every target is a DSN that exists, all requests go to such DSNs. -/
theorem RoutedTree.dsnRequest_of_receives
    (htargets : ∀ dsns, (tree.ri p).calcDSNsToSendInitialCDSForwardingTo m = .ok dsns →
      ∀ n ∈ dsns, n.pos ∈ existingDsns m N n.level) (h : Receives m tree.ri p msg) :
    DsnRequest m N tree.address msg := by
  induction h with
  | own hrun hn _ => exact ⟨_, Or.inl ⟨_, htargets _ hrun _ hn, rfl⟩⟩
  | search hrun hn _ harrives =>
    have hdsn := htargets _ hrun _ hn
    have hcomplete := (mem_existingDsns.mp hdsn).2.2
    obtain rfl := harrives.unique (tree.arrives_of_complete hm hsmall hp hcomplete)
    exact ⟨_, Or.inl ⟨_, hdsn, rfl⟩⟩
  | forward _ _ hnext ih => exact tree.dsnRequest_of_mem_forwards hm hsmall ih hnext

/-- Who has a missing covering DSN that is not the first one is not reached. -/
theorem RoutedTree.not_reached_of_missing (heven : q.level % 2 = 0) {i : ℕ}
    (hi : i < dsnCount m q.level) (hlow : coverLow m q.level i ≤ q.number)
    (hhigh : q.number ≤ coverHigh m q.level i) (h0 : i ≠ 0)
    (hmissing : ¬ Complete m N ⟨q.level, dsnNumber m q.level i⟩) :
    ¬ Reached m tree.ri p q := by
  have hcount := dsnCount_pos (isFanoutValid_iff.mp hm).1 heven
  have hfirst : Complete m N ⟨q.level, dsnNumber m q.level 0⟩ := by
    have hbefore := (consecutive_cover hm (L := q.level)).high_lt_low (Nat.pos_of_ne_zero h0) hi
    have hle := le_coverHigh hm (L := q.level) 0
    exact hq.of_number_le (by omega)
  have htargets : ∀ dsns, (tree.ri p).calcDSNsToSendInitialCDSForwardingTo m = .ok dsns →
      ∀ n ∈ dsns, n.pos ∈ existingDsns m N n.level := by
    intro dsns hrun n hn
    refine (tree.target_cases hm hsmall hp hrun hn).resolve_right ?_
    rintro ⟨L, hL, -, hnone, r, hr, hdeep⟩
    rcases lt_trichotomy L q.level with hlt | rfl | hgt
    · exact hnone (hq.of_level_lt (dsnNumber_lt_pow hm 0) hlt)
    · exact hnone hfirst
    · -- a deeper even level means that this one is full
      refine hmissing (hr.of_level_lt (dsnNumber_lt_pow hm i) ?_)
      show q.level < r.level
      omega
  rintro ⟨msg, hmsg, -, hcase⟩
  obtain ⟨L, j, hj, hpos, hdsn⟩ :=
    (tree.dsnRequest_of_receives hm hsmall hp htargets hmsg).exists_dsn
  obtain ⟨s, hactive, hdata⟩ := tree.activity_dsn hm hsmall hj hdsn
  rw [hpos, hactive] at hcase
  have hcovers : q = ⟨L, dsnNumber m L j⟩ ∨ q ∈ coverArea m L j :=
    hcase.imp_right fun h => ((hdata q).mp h).1
  have hL := level_even_of_mem_dsnNumbers (mem_dsnNumbers.mpr ⟨j, hj, rfl⟩)
  rcases (mem_coverArea hm hj).mp hcovers with ⟨rfl, hin⟩ | ⟨hlevel, -⟩
  · obtain rfl := (consecutive_cover hm).index_unique hi ⟨hlow, hhigh⟩ hj hin
    exact hmissing hdsn
  · omega

end Reached

/-- A find reaches all nodes exactly if no node of an even level has a missing
covering DSN other than the first one of the level. -/
theorem find_reaches_all_iff {m N : ℕ} (hm : isFanoutValid m = true) (hsmall : SmallTree m N)
    (tree : RoutedTree m N) {p : Pos} (hp : Complete m N p) :
    (∀ q, Complete m N q → Reached m tree.ri p q) ↔ DsnsExist m N := by
  constructor
  · intro h q hq heven i hi hlow hhigh
    by_contra hnot
    obtain ⟨h0, hmissing⟩ := not_or.mp hnot
    exact tree.not_reached_of_missing hm hsmall hq hp heven hi hlow hhigh h0 hmissing (h q hq)
  · intro h q hq
    exact tree.reached_of_dsnsExist hm hsmall hq hp h

theorem smallTree_of_levelFour {N : ℕ} (hN : N ≤ 31) : SmallTree 2 N :=
  SmallTree.of_le (L := 4) (by decide) hN (by decide)

/-- Level 4 has two nodes and its first DSN is missing. -/
theorem find_reaches_all_iff_seventeen :
    ∃ tree : RoutedTree 2 17, ∀ q, Complete 2 17 q → Reached 2 tree.ri ⟨3, 5⟩ q := by
  have hm : isFanoutValid 2 = true := by decide
  obtain ⟨tree⟩ : Nonempty (RoutedTree 2 17) := nonempty_routedTree (L := 4) hm (by decide)
    (by decide)
  have hall : ∀ l < 5, ∀ n < 2 ^ l, ∀ i < dsnCount 2 l,
      Complete 2 17 ⟨l, n⟩ ∧ coverLow 2 l i ≤ n ∧ n ≤ coverHigh 2 l i →
        i = 0 ∨ Complete 2 17 ⟨l, dsnNumber 2 l i⟩ := by decide +kernel
  refine ⟨tree, (find_reaches_all_iff hm (smallTree_of_levelFour (by decide)) tree
    (by decide)).mpr fun p hp _ i hi hlow hhigh => ?_⟩
  have hlevel : p.level ≤ 4 := hp.level_le (by decide)
  exact hall p.level (by omega) p.number hp.1 i hi ⟨hp, hlow, hhigh⟩

/-- The node `(4, 5)` belongs to the DSN `(4, 6)`, which does not exist yet.
Whoever starts a find does not reach it. -/
theorem find_misses_node :
    ∃ tree : RoutedTree 2 21, Complete 2 21 ⟨4, 5⟩ ∧
      ∀ p, Complete 2 21 p → ¬ Reached 2 tree.ri p ⟨4, 5⟩ := by
  have hm : isFanoutValid 2 = true := by decide
  obtain ⟨tree⟩ : Nonempty (RoutedTree 2 21) := nonempty_routedTree (L := 4) hm (by decide)
    (by decide)
  refine ⟨tree, by decide, fun p hp => ?_⟩
  exact tree.not_reached_of_missing hm (smallTree_of_levelFour (by decide)) (by decide) hp
    (by decide) (i := 1) (by decide) (by decide) (by decide) (by decide) (by decide)

end Sola.Minhton
