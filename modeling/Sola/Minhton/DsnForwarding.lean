import Sola.Lib.Forwarding
import Sola.Lib.Shares
import Sola.Minhton.EntitySearch

/-!
A find query reaches the DSNs of a level.

A DSN divides the numbers it is responsible for among the DSNs in its routing
table.  The next DSN on each side is always one of them, so nothing is lost;
and as long as the table is sorted by number, the parts do not overlap.  On
deep levels the truncated sort order breaks this for the right neighbors.
-/

namespace Sola.Minhton

open Sola.Lib Sola.Lib.MaryTree Sola.Lib.Distances FindQueryRequest List
open Sola.Lib.Shares Sola.Lib.Forwarding

/-! ### Requests on their way -/

/-- The requests that the target sends when it handles a request. -/
def forwards (m : ℕ) (ri : Pos → RoutingInformation) (msg : FindQueryRequest) :
    List FindQueryRequest :=
  match (ri msg.target.pos).performFindQueryForwarding m msg.direction msg.interval with
  | .ok msgs => msgs
  | .error _ => []

/-- The request that `performFind` sends to a DSN: no direction and the whole level. -/
def initialRequest (m : ℕ) (p : Pos) : FindQueryRequest :=
  ⟨.ofPos p, .kDirectionNone, (0, u32 (m ^ p.level))⟩

/-- Deliver requests after the DSN at `p` has received the initial one. -/
def forwardFrom (m : ℕ) (ri : Pos → RoutingInformation) (p : Pos)
    (msgs : List FindQueryRequest) : Option (Traffic FindQueryRequest Pos) :=
  deliverAll (forwards m ri) (fun msg => msg.target.pos)
    ⟨forwards m ri (initialRequest m p), 0⟩ msgs

/-! ### The existing DSNs of a level -/

def existingDsns (m N L : ℕ) : Multiset Pos :=
  (((dsnNumbers m L).map (Pos.mk L)).filter fun q => Complete m N q : List Pos)

variable {m N L : ℕ} {q : Pos} {ns : List NodeInfo} {msg : FindQueryRequest}

theorem mem_existingDsns :
    q ∈ existingDsns m N L ↔ q.level = L ∧ q.number ∈ dsnNumbers m L ∧ Complete m N q := by
  simp only [existingDsns, Multiset.mem_coe, mem_filter, mem_map, decide_eq_true_eq]
  constructor
  · rintro ⟨⟨d, hd, rfl⟩, hq⟩
    exact ⟨rfl, hd, hq⟩
  · rintro ⟨rfl, hd, hq⟩
    exact ⟨⟨q.number, hd, rfl⟩, hq⟩

/-- On one level the number is the position. -/
theorem existingDsns_ext (q : Pos) (hq : q ∈ existingDsns m N L) (q' : Pos)
    (hq' : q' ∈ existingDsns m N L) (h : q.number = q'.number) : q = q' :=
  Pos.ext_iff'.mpr
    ⟨(mem_existingDsns.mp hq).1.trans (mem_existingDsns.mp hq').1.symm, h⟩

theorem number_lt_of_mem_existingDsns (hq : q ∈ existingDsns m N L) : q.number < m ^ L := by
  obtain ⟨rfl, -, hc⟩ := mem_existingDsns.mp hq
  exact hc.1

theorem mk_mem_existingDsns (hq : q ∈ existingDsns m N L) {i : ℕ} (hi : i < dsnCount m L)
    (hle : dsnNumber m L i ≤ q.number) : (⟨L, dsnNumber m L i⟩ : Pos) ∈ existingDsns m N L := by
  obtain ⟨hl, -, hc⟩ := mem_existingDsns.mp hq
  refine mem_existingDsns.mpr ⟨rfl, mem_dsnNumbers.mpr ⟨i, hi, rfl⟩, ?_⟩
  rw [← hl] at hle ⊢
  exact hc.of_number_le hle

section Level

variable {m N L : ℕ} (hm : isFanoutValid m = true)
include hm

theorem existingDsns_nodup : (existingDsns m N L).Nodup :=
  Multiset.coe_nodup.mpr
    (((dsnNumbers_nodup hm).map fun _ _ h => congrArg Pos.number h).filter _)

variable {q : Pos}

variable (hq : q ∈ existingDsns m N L)
include hq

theorem existingDsns_number_pos {q' : Pos} (hq' : q' ∈ existingDsns m N L) (hne : q ≠ q') :
    0 < q.number := by
  have hm2 := isFanoutValid_iff.mp hm
  obtain ⟨i, hi, hqi⟩ := mem_dsnNumbers.mp (mem_existingDsns.mp hq).2.1
  obtain ⟨j, hj, hqj⟩ := mem_dsnNumbers.mp (mem_existingDsns.mp hq').2.1
  rcases Nat.eq_zero_or_pos i with rfl | hi0
  · by_cases h0 : L = 0
    · -- the root is alone on its level
      have hij : dsnNumber m L 0 = dsnNumber m L j := by simp [dsnNumber, h0]
      exact absurd (existingDsns_ext q hq q' hq' (by rw [← hqi, ← hqj, hij])) hne
    · have hj0 : j ≠ 0 := by
        rintro rfl
        exact hne (existingDsns_ext q hq q' hq' (by rw [← hqi, ← hqj]))
      have hfirst : 0 < m ^ (L - 1) / 2 := by
        unfold dsnCount at hj
        split_ifs at hj <;> omega
      rw [← hqi, dsnNumber, if_neg h0, if_pos hfirst]
      omega
  · rw [← hqi]
    exact Nat.zero_lt_of_lt (dsnNumber_lt hm hi0 hi)

/-- There is a DSN at a distance of the routing table from `q` and not behind `x`. -/
theorem exists_next_dsn {x : Pos} (hx : x ∈ existingDsns m N L) (hlt : q.number < x.number) :
    ∃ y ∈ existingDsns m N L, q.number < y.number ∧ y.number ≤ x.number ∧
      IsDist m (y.number - q.number) := by
  obtain ⟨i, hi, hqi⟩ := mem_dsnNumbers.mp (mem_existingDsns.mp hq).2.1
  obtain ⟨j, hj, hxj⟩ := mem_dsnNumbers.mp (mem_existingDsns.mp hx).2.1
  have hij : i < j := by
    by_contra hji
    rcases Nat.lt_or_eq_of_le (Nat.le_of_not_lt hji) with h | h
    · have := dsnNumber_lt hm h hi
      omega
    · subst h
      omega
  have hsucc : i + 1 < dsnCount m L := by omega
  have hbehind : dsnNumber m L (i + 1) ≤ x.number := by
    rcases Nat.lt_or_eq_of_le (show i + 1 ≤ j from hij) with h | h
    · have := dsnNumber_lt hm h hj
      omega
    · rw [← hxj, ← h]
  refine ⟨⟨L, dsnNumber m L (i + 1)⟩, mk_mem_existingDsns hx hsucc hbehind, ?_, hbehind, ?_⟩
  · rw [← hqi]
    exact dsnNumber_lt hm (Nat.lt_succ_self i) hsucc
  · rw [← hqi]
    exact isDist_dsnNumber_succ hm hsucc

/-- There is a DSN at a distance of the routing table from `q` and not before `x`. -/
theorem exists_previous_dsn {x : Pos} (hx : x ∈ existingDsns m N L) (hlt : x.number < q.number) :
    ∃ y ∈ existingDsns m N L, y.number < q.number ∧ x.number ≤ y.number ∧
      IsDist m (q.number - y.number) := by
  obtain ⟨i, hi, hqi⟩ := mem_dsnNumbers.mp (mem_existingDsns.mp hq).2.1
  obtain ⟨j, hj, hxj⟩ := mem_dsnNumbers.mp (mem_existingDsns.mp hx).2.1
  have hji : j < i := by
    by_contra hij
    rcases Nat.lt_or_eq_of_le (Nat.le_of_not_lt hij) with h | h
    · have := dsnNumber_lt hm h hj
      omega
    · subst h
      omega
  obtain ⟨k, rfl⟩ : ∃ k, i = k + 1 := ⟨i - 1, by omega⟩
  have hbefore : dsnNumber m L k < q.number := by
    rw [← hqi]
    exact dsnNumber_lt hm (Nat.lt_succ_self k) hi
  have hfrom : x.number ≤ dsnNumber m L k := by
    rcases Nat.lt_or_eq_of_le (Nat.le_of_lt_succ hji) with h | h
    · have := dsnNumber_lt hm h (show k < dsnCount m L by omega)
      omega
    · rw [← hxj, ← h]
  refine ⟨⟨L, dsnNumber m L k⟩, mk_mem_existingDsns hq (by omega) hbefore.le, hbefore,
    hfrom, ?_⟩
  rw [← hqi]
  exact isDist_dsnNumber_succ hm hi

end Level

/-! ### What a request answers for -/

/-- The DSNs that are to be reached by a request and by those it causes. -/
def FindQueryRequest.share (E : Multiset Pos) (msg : FindQueryRequest) : Multiset Pos :=
  match msg.direction with
  | .kDirectionRight => part (· < ·) Pos.number E msg.target.number msg.interval.2
  | .kDirectionLeft => part (· > ·) Pos.number E msg.target.number msg.interval.1
  | .kDirectionNone => 0

/-- A request from one DSN to another: the interval begins at the target and
leads away from the sender. -/
structure FindQueryRequest.Forwarded (m N L : ℕ) (address : Pos → Address)
    (msg : FindQueryRequest) : Prop where
  target : ∃ q ∈ existingDsns m N L, msg.target = existingNode address q
  interval : msg.direction = .kDirectionRight ∧ msg.interval.1 = msg.target.number ∧
      msg.target.number < msg.interval.2 ∧ msg.interval.2 ≤ m ^ L ∨
    msg.direction = .kDirectionLeft ∧ msg.interval.2 = msg.target.number ∧
      msg.interval.1 < msg.target.number

/-- Both loops over the neighbors of one side give each of them the part up to
the next one. -/
theorem sum_share_requestsToTheRight (E : Multiset Pos) (stop : ℕ) (ns : List NodeInfo) :
    ((requestsToTheRight stop ns).map (share E)).sum =
      ((shares stop (ns.map NodeInfo.number)).map fun s =>
        part (· < ·) Pos.number E s.1 s.2).sum := by
  induction ns using requestsToTheRight.induct with
  | case1 => rfl
  | case2 n => rfl
  | case3 n next ns ih =>
    rw [requestsToTheRight, map_cons, sum_cons, ih]
    rfl

theorem sum_share_requestsToTheLeft (E : Multiset Pos) (start : ℕ) (ns : List NodeInfo) :
    ((requestsToTheLeft start ns).map (share E)).sum =
      ((shares start (ns.map NodeInfo.number)).map fun s =>
        part (· > ·) Pos.number E s.1 s.2).sum := by
  induction ns using requestsToTheLeft.induct with
  | case1 => rfl
  | case2 n => rfl
  | case3 n next ns ih =>
    rw [requestsToTheLeft, map_cons, sum_cons, ih]
    rfl

theorem mem_requestsToTheRight {stop : ℕ} (hsorted : (ns.map NodeInfo.number).Pairwise (· < ·))
    (hstop : ∀ n ∈ ns, n.number < stop) (hmsg : msg ∈ requestsToTheRight stop ns) :
    msg.target ∈ ns ∧ msg.direction = .kDirectionRight ∧
      msg.interval.1 = msg.target.number ∧ msg.target.number < msg.interval.2 ∧
      msg.interval.2 ≤ stop := by
  induction ns using requestsToTheRight.induct with
  | case1 => cases hmsg
  | case2 n =>
    obtain rfl := mem_singleton.mp hmsg
    exact ⟨by simp, rfl, rfl, hstop n (by simp), le_rfl⟩
  | case3 n next ns ih =>
    obtain ⟨hfirst, hrest⟩ := pairwise_cons.mp hsorted
    rcases mem_cons.mp hmsg with rfl | hmsg
    · exact ⟨by simp, rfl, rfl, hfirst _ (by simp), (hstop next (by simp)).le⟩
    · obtain ⟨hmem, hspec⟩ := ih hrest (fun n hn => hstop n (mem_cons_of_mem _ hn)) hmsg
      exact ⟨mem_cons_of_mem _ hmem, hspec⟩

theorem mem_requestsToTheLeft {start : ℕ} (hsorted : (ns.map NodeInfo.number).Pairwise (· > ·))
    (hstart : ∀ n ∈ ns, start < n.number) (hmsg : msg ∈ requestsToTheLeft start ns) :
    msg.target ∈ ns ∧ msg.direction = .kDirectionLeft ∧
      msg.interval.2 = msg.target.number ∧ msg.interval.1 < msg.target.number := by
  induction ns using requestsToTheLeft.induct with
  | case1 => cases hmsg
  | case2 n =>
    obtain rfl := mem_singleton.mp hmsg
    exact ⟨by simp, rfl, rfl, hstart n (by simp)⟩
  | case3 n next ns ih =>
    obtain ⟨hfirst, hrest⟩ := pairwise_cons.mp hsorted
    rcases mem_cons.mp hmsg with rfl | hmsg
    · exact ⟨by simp, rfl, rfl, hfirst _ (by simp)⟩
    · obtain ⟨hmem, hspec⟩ := ih hrest (fun n hn => hstart n (mem_cons_of_mem _ hn)) hmsg
      exact ⟨mem_cons_of_mem _ hmem, hspec⟩

/-- The comparison that sorts the left neighbors turns their order around. -/
theorem sortedLeft_pairwise (hsorted : (ns.map NodeInfo.number).Pairwise (· < ·)) :
    ((ns.insertionSort fun n n' => n'.number ≤ n.number).map NodeInfo.number).Pairwise
      (· > ·) := by
  have htotal : Std.Total fun n n' : NodeInfo => n'.number ≤ n.number :=
    ⟨fun n n' => le_total _ _⟩
  have htrans : IsTrans NodeInfo fun n n' => n'.number ≤ n.number :=
    ⟨fun _ _ _ h h' => le_trans h' h⟩
  have hnodup : ((ns.insertionSort fun n n' => n'.number ≤ n.number).map
      NodeInfo.number).Nodup :=
    ((perm_insertionSort _ ns).map _).nodup_iff.mpr (hsorted.imp fun h => ne_of_lt h)
  have hsort := pairwise_insertionSort (fun n n' : NodeInfo => n'.number ≤ n.number) ns
  rw [pairwise_map]
  exact (hsort.and (pairwise_map.mp hnodup)).imp fun h => lt_of_le_of_ne h.1 (Ne.symm h.2)

/-- The DSNs among the neighbors that are in the interval. -/
def neighborsInInterval (ri : RoutingInformation) (isDsn : ℕ → Bool) (interval : ℕ × ℕ) :
    List NodeInfo :=
  ri.initializedRoutingTableNeighbors.filter fun n =>
    isDsn n.number && (interval.1 < n.number && n.number < interval.2)

/-- The requests of a node that knows which numbers are those of DSNs. -/
def requestsOf (m : ℕ) (ri : RoutingInformation) (isDsn : ℕ → Bool)
    (direction : ForwardingDirection) (interval : ℕ × ℕ) : List FindQueryRequest :=
  (if direction = .kDirectionRight ∨ direction = .kDirectionNone then
    requestsToTheRight (min interval.2 (u32 (m ^ ri.selfNodeInfo.level)))
      ((neighborsInInterval ri isDsn interval).filter fun n =>
        n.number > ri.selfNodeInfo.number)
  else []) ++
  if direction = .kDirectionLeft ∨ direction = .kDirectionNone then
    requestsToTheLeft interval.1
      (((neighborsInInterval ri isDsn interval).filter fun n =>
        n.number < ri.selfNodeInfo.number).insertionSort fun n n' => n'.number ≤ n.number)
  else []

theorem performFindQueryForwarding_eq {ri : RoutingInformation} {dsnSet : List ℕ}
    {isDsn : ℕ → Bool} (hset : getDSNSet m ri.selfNodeInfo.level = .ok dsnSet)
    (hdsn : ∀ k, dsnSet.contains k = isDsn k) (direction : ForwardingDirection) (interval : ℕ × ℕ) :
    ri.performFindQueryForwarding m direction interval =
      .ok (requestsOf m ri isDsn direction interval) := by
  simp only [RoutingInformation.performFindQueryForwarding, hset, bind, Except.bind, pure,
    Except.pure, hdsn, Nat.zero_max]
  rfl

/-! ### One DSN divides its interval -/

section Forwarding

variable {m N L : ℕ} (hm : isFanoutValid m = true) (hs : Small m L) (tree : RoutedTree m N)
  {q : Pos} (hq : q ∈ existingDsns m N L)
include hm hs hq

/-- The routing table of a DSN holds the existing nodes at the distances of
the table, from left to right. -/
theorem initializedNeighbors_eq :
    (tree.ri q).initializedRoutingTableNeighbors =
      ((leftNumbers m q ++ rightNumbers m q).filter fun k => Complete m N ⟨L, k⟩).map
        fun k => existingNode tree.address ⟨L, k⟩ := by
  obtain ⟨rfl, -, hc⟩ := mem_existingDsns.mp hq
  obtain ⟨_, _, -, -, hri⟩ := (tree.correct q hc).eq_ofView hm hc.1 (Small.fits hm hs)
  rw [hri]
  unfold RoutingInformation.initializedRoutingTableNeighbors
  simp only [RoutingInformation.ofView, tableLayout_eq hm hc.1 hs, map_map]
  rw [filter_map]
  have hfilter : (leftNumbers m q ++ rightNumbers m q).filter
      (NodeInfo.isInitialized ∘ slot (treeView m N tree.address) ∘ Pos.mk q.level) =
      (leftNumbers m q ++ rightNumbers m q).filter fun k => Complete m N ⟨q.level, k⟩ := by
    refine filter_congr fun k _ => ?_
    rw [Bool.eq_iff_iff]
    simp [treeView_isSome]
  rw [hfilter]
  refine map_congr_left fun k hk => ?_
  exact slot_treeView (by simpa using (mem_filter.mp hk).2)

theorem initializedNeighbors_sorted :
    ((tree.ri q).initializedRoutingTableNeighbors.map NodeInfo.number).Pairwise (· < ·) := by
  obtain ⟨rfl, -, hc⟩ := mem_existingDsns.mp hq
  rw [initializedNeighbors_eq hm hs tree hq, map_map]
  have hid : NodeInfo.number ∘ (fun k => existingNode tree.address ⟨q.level, k⟩) = id := rfl
  rw [hid, map_id]
  exact (tableNumbers_pairwise hm (Small.fits hm hs) hc.1).filter _

/-- The DSNs among the neighbors. -/
theorem mem_initializedNeighbors {n : NodeInfo} (hdsn : n.number ∈ dsnNumbers m L) :
    n ∈ (tree.ri q).initializedRoutingTableNeighbors ↔
      ∃ y ∈ existingDsns m N L, n = existingNode tree.address y ∧
        (y.number < q.number ∧ IsDist m (q.number - y.number) ∨
          q.number < y.number ∧ IsDist m (y.number - q.number)) := by
  obtain ⟨hl, -, hc⟩ := mem_existingDsns.mp hq
  have hfits : Fits m q.level := hl ▸ Small.fits hm hs
  rw [initializedNeighbors_eq hm hs tree hq]
  simp only [mem_map, mem_filter, mem_append, decide_eq_true_eq,
    mem_leftNumbers hm hfits hc.1, mem_rightNumbers hm hfits]
  constructor
  · rintro ⟨k, ⟨hk, hcomplete⟩, rfl⟩
    refine ⟨⟨L, k⟩, mem_existingDsns.mpr ⟨rfl, hdsn, hcomplete⟩, rfl, ?_⟩
    exact hk.imp_right fun h => ⟨h.1, h.2.2⟩
  · rintro ⟨y, hy, rfl, hdist⟩
    obtain ⟨rfl, -, hcomplete⟩ := mem_existingDsns.mp hy
    refine ⟨y.number, ⟨hdist.imp_right fun h => ⟨h.1, ?_, h.2⟩, hcomplete⟩, rfl⟩
    rw [hl]
    exact hcomplete.1

variable {ns : List NodeInfo}

omit hs in
/-- The DSNs of the table to the right of `q`, in increasing order, divide the
numbers between `q` and the end of the interval. -/
theorem requestsToTheRight_spec {stop : ℕ} (hend : stop ≤ m ^ L)
    (hsorted : (ns.map NodeInfo.number).Pairwise (· < ·))
    (hmem : ∀ n, n ∈ ns ↔ ∃ y ∈ existingDsns m N L, n = existingNode tree.address y ∧
      q.number < y.number ∧ IsDist m (y.number - q.number) ∧ y.number < stop) :
    (∀ msg ∈ requestsToTheRight stop ns, msg.Forwarded m N L tree.address) ∧
      ((requestsToTheRight stop ns).map (share (existingDsns m N L))).sum =
        inside (· < ·) Pos.number (existingDsns m N L) q.number stop := by
  have hbefore : ∀ n ∈ ns, q.number < n.number ∧ n.number < stop := by
    intro n hn
    obtain ⟨y, -, rfl, hlt, -, hy⟩ := (hmem n).mp hn
    exact ⟨hlt, hy⟩
  constructor
  · intro msg hmsg
    obtain ⟨htarget, hdir, hlow, hlt, hle⟩ :=
      mem_requestsToTheRight hsorted (fun n hn => (hbefore n hn).2) hmsg
    obtain ⟨y, hy, heq, -⟩ := (hmem _).mp htarget
    exact ⟨⟨y, hy, heq⟩, Or.inl ⟨hdir, hlow, hlt, hle.trans hend⟩⟩
  · rw [sum_share_requestsToTheRight]
    refine sum_shares_eq_inside hsorted (fun k hk => ?_) fun x hx hlt hstop => ?_
    · obtain ⟨n, hn, rfl⟩ := mem_map.mp hk
      exact hbefore n hn
    · obtain ⟨y, hy, hqy, hyx, hdist⟩ := exists_next_dsn hm hq hx hlt
      refine ⟨y.number, mem_map.mpr ⟨existingNode tree.address y, ?_, rfl⟩, by omega⟩
      exact (hmem _).mpr ⟨y, hy, rfl, hqy, hdist, lt_of_le_of_lt hyx hstop⟩

omit hs in
/-- The same to the left of `q`, in decreasing order. -/
theorem requestsToTheLeft_spec {start : ℕ} (hsorted : (ns.map NodeInfo.number).Pairwise (· > ·))
    (hmem : ∀ n, n ∈ ns ↔ ∃ y ∈ existingDsns m N L, n = existingNode tree.address y ∧
      y.number < q.number ∧ IsDist m (q.number - y.number) ∧ start < y.number) :
    (∀ msg ∈ requestsToTheLeft start ns, msg.Forwarded m N L tree.address) ∧
      ((requestsToTheLeft start ns).map (share (existingDsns m N L))).sum =
        inside (· > ·) Pos.number (existingDsns m N L) q.number start := by
  have hbehind : ∀ n ∈ ns, n.number < q.number ∧ start < n.number := by
    intro n hn
    obtain ⟨y, -, rfl, hlt, -, hy⟩ := (hmem n).mp hn
    exact ⟨hlt, hy⟩
  constructor
  · intro msg hmsg
    obtain ⟨htarget, hdir, hhigh, hlt⟩ :=
      mem_requestsToTheLeft hsorted (fun n hn => (hbehind n hn).2) hmsg
    obtain ⟨y, hy, heq, -⟩ := (hmem _).mp htarget
    exact ⟨⟨y, hy, heq⟩, Or.inr ⟨hdir, hhigh, hlt⟩⟩
  · rw [sum_share_requestsToTheLeft]
    refine sum_shares_eq_inside hsorted (fun k hk => ?_) fun x hx hlt hstart => ?_
    · obtain ⟨n, hn, rfl⟩ := mem_map.mp hk
      exact hbehind n hn
    · obtain ⟨y, hy, hyq, hxy, hdist⟩ := exists_previous_dsn hm hq hx hlt
      refine ⟨y.number, mem_map.mpr ⟨existingNode tree.address y, ?_, rfl⟩, by omega⟩
      exact (hmem _).mpr ⟨y, hy, rfl, hyq, hdist, lt_of_lt_of_le hstart hxy⟩

/-- A DSN divides the part of its interval on each side of itself. -/
theorem performFindQueryForwarding_spec (direction : ForwardingDirection) (interval : ℕ × ℕ)
    (hlow : interval.1 ≤ q.number) (hhigh : q.number ≤ interval.2)
    (hend : interval.2 ≤ m ^ L) :
    ∃ right left, (tree.ri q).performFindQueryForwarding m direction interval =
        .ok ((if direction = .kDirectionRight ∨ direction = .kDirectionNone then right else []) ++
          if direction = .kDirectionLeft ∨ direction = .kDirectionNone then left else []) ∧
      (∀ msg ∈ right ++ left, msg.Forwarded m N L tree.address) ∧
      (right.map (share (existingDsns m N L))).sum =
        inside (· < ·) Pos.number (existingDsns m N L) q.number interval.2 ∧
      (left.map (share (existingDsns m N L))).sum =
        inside (· > ·) Pos.number (existingDsns m N L) q.number interval.1 := by
  obtain ⟨hl, -, hc⟩ := mem_existingDsns.mp hq
  have hfits : Fits m L := Small.fits hm hs
  have hself : (tree.ri q).selfNodeInfo = ⟨some q, some (tree.address q)⟩ :=
    tree.selfNodeInfo hm hc (hl ▸ hfits)
  have hstop : min interval.2 (u32 (m ^ L)) = interval.2 := by
    have hm2 := isFanoutValid_iff.mp hm
    have hbound := hfits.pow_add_le hm
    rw [u32, Nat.mod_eq_of_lt (by omega)]
    omega
  set chosen := neighborsInInterval (tree.ri q) (dsnNumbers m L).contains interval with hchosen
  have hsorted : (chosen.map NodeInfo.number).Pairwise (· < ·) :=
    (initializedNeighbors_sorted hm hs tree hq).sublist (filter_sublist.map _)
  have hmem : ∀ n, n ∈ chosen ↔ ∃ y ∈ existingDsns m N L, n = existingNode tree.address y ∧
      (y.number < q.number ∧ IsDist m (q.number - y.number) ∨
        q.number < y.number ∧ IsDist m (y.number - q.number)) ∧
      interval.1 < y.number ∧ y.number < interval.2 := by
    intro n
    simp only [hchosen, neighborsInInterval, mem_filter, contains_iff_mem,
      Bool.and_eq_true, decide_eq_true_eq]
    constructor
    · rintro ⟨hn, hdsn, hint⟩
      obtain ⟨y, hy, rfl, hdist⟩ := (mem_initializedNeighbors hm hs tree hq hdsn).mp hn
      exact ⟨y, hy, rfl, hdist, hint⟩
    · rintro ⟨y, hy, rfl, hdist, hint⟩
      have hdsn : (existingNode tree.address y).number ∈ dsnNumbers m L :=
        (mem_existingDsns.mp hy).2.1
      exact ⟨(mem_initializedNeighbors hm hs tree hq hdsn).mpr ⟨y, hy, rfl, hdist⟩, hdsn, hint⟩
  have hrightMem : ∀ n, n ∈ chosen.filter (fun n => n.number > q.number) ↔
      ∃ y ∈ existingDsns m N L, n = existingNode tree.address y ∧
        q.number < y.number ∧ IsDist m (y.number - q.number) ∧ y.number < interval.2 := by
    intro n
    simp only [mem_filter, hmem, decide_eq_true_eq]
    constructor
    · rintro ⟨⟨y, hy, rfl, hdist, -, hlt⟩, hgt⟩
      have hqy : q.number < y.number := hgt
      rcases hdist with ⟨h, -⟩ | ⟨-, hdist⟩
      · omega
      · exact ⟨y, hy, rfl, hqy, hdist, hlt⟩
    · rintro ⟨y, hy, rfl, hqy, hdist, hlt⟩
      exact ⟨⟨y, hy, rfl, Or.inr ⟨hqy, hdist⟩, by omega, hlt⟩, hqy⟩
  have hleftMem : ∀ n, n ∈ (chosen.filter fun n => n.number < q.number).insertionSort
        (fun n n' => n'.number ≤ n.number) ↔
      ∃ y ∈ existingDsns m N L, n = existingNode tree.address y ∧
        y.number < q.number ∧ IsDist m (q.number - y.number) ∧ interval.1 < y.number := by
    intro n
    simp only [mem_insertionSort, mem_filter, hmem, decide_eq_true_eq]
    constructor
    · rintro ⟨⟨y, hy, rfl, hdist, hgt, -⟩, hlt⟩
      have hyq : y.number < q.number := hlt
      rcases hdist with ⟨-, hdist⟩ | ⟨h, -⟩
      · exact ⟨y, hy, rfl, hyq, hdist, hgt⟩
      · omega
    · rintro ⟨y, hy, rfl, hyq, hdist, hgt⟩
      exact ⟨⟨y, hy, rfl, Or.inl ⟨hyq, hdist⟩, hgt, by omega⟩, hyq⟩
  have hright := requestsToTheRight_spec hm tree hq hend
    (hsorted.sublist (filter_sublist.map _)) hrightMem
  have hleft := requestsToTheLeft_spec hm tree hq
    (sortedLeft_pairwise (hsorted.sublist (filter_sublist.map _))) hleftMem
  refine ⟨_, _, ?_, fun msg hmsg => ?_, hright.2, hleft.2⟩
  · have hset : getDSNSet m (tree.ri q).selfNodeInfo.level = .ok (dsnNumbers m L) := by
      rw [hself, NodeInfo.level_mk, hl]
      exact getDSNSet_eq hm hfits
    rw [performFindQueryForwarding_eq hset (fun _ => rfl), requestsOf, ← hchosen, hself,
      NodeInfo.number_mk, NodeInfo.level_mk, hl, hstop]
  · rcases mem_append.mp hmsg with hmsg | hmsg
    · exact hright.1 msg hmsg
    · exact hleft.1 msg hmsg

end Forwarding

/-! ### The DSNs of a level together -/

section Level

variable {m N L : ℕ} (hm : isFanoutValid m = true) (hs : Small m L) (tree : RoutedTree m N)
include hm hs

/-- A forwarded request reaches its target, and the target divides the rest. -/
theorem forwards_divides :
    Divides (forwards m tree.ri) (fun msg => msg.target.pos)
      (FindQueryRequest.Forwarded m N L tree.address)
      (share (existingDsns m N L)) := by
  have hspec : ∀ msg : FindQueryRequest, msg.Forwarded m N L tree.address →
      (∀ next ∈ forwards m tree.ri msg, next.Forwarded m N L tree.address) ∧
      msg.share (existingDsns m N L) = msg.target.pos ::ₘ
        ((forwards m tree.ri msg).map (share (existingDsns m N L))).sum := by
    rintro ⟨target, direction, low, high⟩ ⟨⟨q, hq, htarget⟩, hint⟩
    simp only at htarget hint
    subst htarget
    have hpos : (existingNode tree.address q).pos = q := rfl
    have hnumber : (existingNode tree.address q).number = q.number := rfl
    rw [hnumber] at hint
    rcases hint with ⟨rfl, rfl, hlt, hend⟩ | ⟨rfl, rfl, hlt⟩
    · obtain ⟨right, left, hsend, hgood, hsum, -⟩ :=
        performFindQueryForwarding_spec hm hs tree hq .kDirectionRight
          (q.number, high) le_rfl hlt.le hend
      have hforwards : forwards m tree.ri ⟨existingNode tree.address q, .kDirectionRight,
          (q.number, high)⟩ = right := by
        simp [forwards, hpos, hsend]
      rw [hforwards, hsum]
      refine ⟨fun next hnext => hgood next (mem_append_left _ hnext), ?_⟩
      exact part_eq_cons_inside (existingDsns_nodup hm) existingDsns_ext hq hlt
    · obtain ⟨right, left, hsend, hgood, -, hsum⟩ :=
        performFindQueryForwarding_spec hm hs tree hq .kDirectionLeft
          (low, q.number) hlt.le le_rfl (number_lt_of_mem_existingDsns hq).le
      have hforwards : forwards m tree.ri ⟨existingNode tree.address q, .kDirectionLeft,
          (low, q.number)⟩ = left := by
        simp [forwards, hpos, hsend]
      rw [hforwards, hsum]
      refine ⟨fun next hnext => hgood next (mem_append_right _ hnext), ?_⟩
      exact part_eq_cons_inside (existingDsns_nodup hm) existingDsns_ext hq hlt
  exact ⟨fun msg hmsg => (hspec msg hmsg).1, fun msg hmsg => (hspec msg hmsg).2⟩

omit hs in
/-- Left and right of a DSN are all the other ones. -/
theorem inside_add_inside {q : Pos} (hq : q ∈ existingDsns m N L) :
    inside (· < ·) Pos.number (existingDsns m N L) q.number (m ^ L) +
      inside (· > ·) Pos.number (existingDsns m N L) q.number 0 =
      (existingDsns m N L).erase q := by
  rw [(existingDsns_nodup hm).erase_eq_filter,
    ← Multiset.filter_add_not (fun x => q.number < x.number)
      ((existingDsns m N L).filter fun x => x ≠ q),
    Multiset.filter_filter, Multiset.filter_filter]
  congr 1
  · refine Multiset.filter_congr fun x hx => ?_
    constructor
    · rintro ⟨hlt, -⟩
      exact ⟨hlt, fun h => absurd (h ▸ hlt) (lt_irrefl _)⟩
    · rintro ⟨hlt, -⟩
      exact ⟨hlt, number_lt_of_mem_existingDsns hx⟩
  · refine Multiset.filter_congr fun x hx => ?_
    constructor
    · rintro ⟨hlt, -⟩
      exact ⟨Nat.not_lt.mpr (le_of_lt hlt), fun h => absurd (h ▸ hlt) (lt_irrefl _)⟩
    · rintro ⟨hle, hne⟩
      refine ⟨?_, existingDsns_number_pos hm hx hq hne⟩
      have hnumber : x.number ≠ q.number := fun h => hne (existingDsns_ext x hx q hq h)
      omega

/-- What the DSN that receives the initial request sends answers for all the
other DSNs. -/
theorem forwards_initialRequest {q : Pos} (hq : q ∈ existingDsns m N L) :
    (∀ msg ∈ forwards m tree.ri (initialRequest m q), msg.Forwarded m N L tree.address) ∧
      ((forwards m tree.ri (initialRequest m q)).map
        (share (existingDsns m N L))).sum = (existingDsns m N L).erase q := by
  have hlevel := (mem_existingDsns.mp hq).1
  have hnumber := number_lt_of_mem_existingDsns hq
  obtain ⟨right, left, hsend, hgood, hright, hleft⟩ :=
    performFindQueryForwarding_spec hm hs tree hq .kDirectionNone (0, m ^ L) (Nat.zero_le _)
      hnumber.le le_rfl
  have hu32 : u32 (m ^ L) = m ^ L := by
    have hm2 := isFanoutValid_iff.mp hm
    have hbound := (Small.fits hm hs).pow_add_le hm
    exact Nat.mod_eq_of_lt (by omega)
  have hforwards : forwards m tree.ri (initialRequest m q) = right ++ left := by
    have hpos : (NodeInfo.ofPos q).pos = q := rfl
    simp [forwards, initialRequest, hpos, hlevel, hu32, hsend]
  rw [hforwards, map_append, sum_append, hright, hleft, inside_add_inside hm hq]
  exact ⟨hgood, rfl⟩

end Level

/-- A DSN receives a query for the whole level.  On a level whose parents have
numbers below 65536 only finitely many requests are sent, in whatever order
they are delivered, and when all of them are delivered every other existing DSN
of the level has received the query exactly once. -/
theorem forwarding_reaches_dsns_once {m N L t : ℕ} {dsnSet : List ℕ}
    (hm : isFanoutValid m = true) (hs : Small m L) (hset : getDSNSet m L = .ok dsnSet)
    (ht : t ∈ dsnSet) (hcomplete : Complete m N ⟨L, t⟩) (tree : RoutedTree m N) :
    (∀ msgs s, forwardFrom m tree.ri ⟨L, t⟩ msgs = some s → msgs.length < dsnSet.length ∧
      (s.pending = 0 → ∀ q, s.delivered.count q =
        if q.level = L ∧ q.number ∈ dsnSet ∧ Complete m N q ∧ q ≠ ⟨L, t⟩ then 1 else 0)) ∧
    ∃ msgs s, forwardFrom m tree.ri ⟨L, t⟩ msgs = some s ∧ s.pending = 0 := by
  have hdsns : dsnSet = dsnNumbers m L :=
    (Except.ok.inj ((getDSNSet_eq hm (Small.fits hm hs)).symm.trans hset)).symm
  subst hdsns
  have hq : (⟨L, t⟩ : Pos) ∈ existingDsns m N L := mem_existingDsns.mpr ⟨rfl, ht, hcomplete⟩
  obtain ⟨hgood, htotal⟩ := forwards_initialRequest hm hs tree hq
  obtain ⟨hruns, hdone⟩ := deliverAll_total (forwards_divides hm hs tree) hgood htotal
  have hnodup := existingDsns_nodup (N := N) (L := L) hm
  refine ⟨fun msgs s hrun => ?_, hdone⟩
  obtain ⟨hlength, hdelivered⟩ := hruns msgs s hrun
  constructor
  · have hpos : 0 < (existingDsns m N L).card := Multiset.card_pos_iff_exists_mem.mpr ⟨_, hq⟩
    have hle : (existingDsns m N L).card ≤ (dsnNumbers m L).length := by
      rw [← length_map (Pos.mk L)]
      exact length_filter_le _ _
    rw [Multiset.card_erase_of_mem hq, Nat.pred_eq_sub_one] at hlength
    omega
  · intro hempty q
    rw [hdelivered hempty, Multiset.count_eq_of_nodup (hnodup.erase _)]
    refine if_congr ?_ rfl rfl
    rw [hnodup.mem_erase_iff, mem_existingDsns]
    tauto

theorem forwarding_reaches_dsns_once_levelFour :
    getDSNSet 2 4 = .ok [2, 6, 10, 14] ∧ ∃ tree : RoutedTree 2 31,
      (∀ msgs s, forwardFrom 2 tree.ri ⟨4, 6⟩ msgs = some s → msgs.length < 4 ∧
        (s.pending = 0 → ∀ q, s.delivered.count q =
          if q.level = 4 ∧ q.number ∈ [2, 6, 10, 14] ∧ Complete 2 31 q ∧ q ≠ ⟨4, 6⟩ then 1
          else 0)) ∧
      ∃ msgs s, forwardFrom 2 tree.ri ⟨4, 6⟩ msgs = some s ∧ s.pending = 0 := by
  have hset : getDSNSet 2 4 = .ok [2, 6, 10, 14] := by decide +kernel
  obtain ⟨tree⟩ : Nonempty (RoutedTree 2 31) :=
    nonempty_routedTree (L := 4) (by decide) (by decide) (by decide)
  exact ⟨hset, tree, forwarding_reaches_dsns_once (by decide) (by decide) hset (by decide)
    (by decide) tree⟩

/-! ### A truncated sort order -/

/-- The DSNs of level 18 of a binary tree. -/
theorem contains_dsnNumbers_two (d : ℕ) :
    (dsnNumbers 2 18).contains d = decide (d % 4 = 2 ∧ d < 262144) := by
  rw [Bool.eq_iff_iff, contains_iff_mem, mem_dsnNumbers, decide_eq_true_eq]
  have hcount : dsnCount 2 18 = 65536 := by decide
  have hnumber : ∀ i < 65536, dsnNumber 2 18 i = 2 + 4 * i := by
    intro i hi
    simp only [dsnNumber]
    rw [if_neg (by decide), if_pos (by omega)]
  constructor
  · rintro ⟨i, hi, rfl⟩
    rw [hcount] at hi
    rw [hnumber i hi]
    omega
  · rintro ⟨hmod, hlt⟩
    refine ⟨d / 4, by omega, ?_⟩
    rw [hnumber _ (by omega)]
    omega

/-- The table of a node of the binary tree with 393218 nodes. -/
def binaryTable (p : Pos) : RoutingInformation :=
  .ofView 2 p 0 (treeView 2 393218 fun _ => 0) .none .none

/-- Forwarding reads the routing table only. -/
theorem forwards_binaryTable {tree : RoutedTree 2 393218} (haddress : tree.address = fun _ => 0)
    (hmsg : Complete 2 393218 msg.target.pos) :
    forwards 2 tree.ri msg = forwards 2 binaryTable msg := by
  have hfits : Fits 2 msg.target.pos.level :=
    Fits.mono (by decide) (show Fits 2 18 by decide) (hmsg.level_le (by decide))
  obtain ⟨pred, succ, -, -, hri⟩ := (tree.correct _ hmsg).eq_ofView (by decide) hmsg.1 hfits
  rw [haddress] at hri
  unfold forwards
  rw [hri]
  rfl

theorem forwards_levelEighteen (hlevel : msg.target.level = 18) :
    forwards 2 binaryTable msg = requestsOf 2 (binaryTable msg.target.pos)
      (fun d => d % 4 = 2 ∧ d < 262144) msg.direction msg.interval := by
  have hset : getDSNSet 2 (binaryTable msg.target.pos).selfNodeInfo.level =
      .ok (dsnNumbers 2 18) := by
    have hself : (binaryTable msg.target.pos).selfNodeInfo.level = 18 := hlevel
    rw [hself]
    exact getDSNSet_eq (by decide) (by decide)
  unfold forwards
  rw [performFindQueryForwarding_eq hset contains_dsnNumbers_two]

def requestTo (k stop : ℕ) : FindQueryRequest :=
  ⟨existingNode (fun _ => 0) ⟨18, k⟩, .kDirectionRight, (k, stop)⟩

/-- The parent number 65537 of position 131074 is truncated to 1: the DSN 2
finds this neighbor to the left of its other right neighbors. -/
theorem mem_forwards_first :
    requestTo 131074 6 ∈ forwards 2 binaryTable (initialRequest 2 ⟨18, 2⟩) ∧
      requestTo 65538 262144 ∈ forwards 2 binaryTable (initialRequest 2 ⟨18, 2⟩) := by
  rw [forwards_levelEighteen rfl]
  decide +kernel

/-- The last right neighbor reaches the same position again. -/
theorem mem_forwards_second :
    requestTo 131074 65542 ∈ forwards 2 binaryTable (requestTo 65538 262144) := by
  rw [forwards_levelEighteen rfl]
  decide +kernel

/-- On level 18 of a binary tree the DSN 2 sends the query to the DSN 131074,
and gives the last of its other right neighbors the whole rest of the level, in
which 131074 is reached again. -/
theorem forwarding_reaches_dsn_twice :
    isFanoutValid 2 = true ∧ getDSNSet 2 18 = .ok (dsnNumbers 2 18) ∧
      2 ∈ dsnNumbers 2 18 ∧ 131074 ∈ dsnNumbers 2 18 ∧
      Complete 2 393218 ⟨18, 2⟩ ∧ Complete 2 393218 ⟨18, 131074⟩ ∧
      ∃ tree : RoutedTree 2 393218, ∃ msgs s,
        forwardFrom 2 tree.ri ⟨18, 2⟩ msgs = some s ∧ s.delivered.count ⟨18, 131074⟩ = 2 := by
  have hm : isFanoutValid 2 = true := by decide
  have hfits : ∀ p, Complete 2 393218 p → Fits 2 p.level := fun p hp =>
    Fits.mono hm (show Fits 2 18 by decide) (hp.level_le (by decide))
  have hmem : ∀ d, d % 4 = 2 ∧ d < 262144 → d ∈ dsnNumbers 2 18 := fun d hd =>
    contains_iff_mem.mp (by rw [contains_dsnNumbers_two]; exact decide_eq_true hd)
  obtain ⟨tree, haddress⟩ := exists_routedTree hm (fun _ => 0) hfits
  refine ⟨hm, getDSNSet_eq hm (by decide), hmem 2 (by decide), hmem 131074 (by decide),
    by decide, by decide, tree,
    [requestTo 131074 6, requestTo 65538 262144, requestTo 131074 65542], ?_⟩
  obtain ⟨hfirst, hlast⟩ := mem_forwards_first
  have hne : requestTo 65538 262144 ≠ requestTo 131074 6 := by decide
  have hfrom : forwards 2 tree.ri (initialRequest 2 ⟨18, 2⟩) =
      forwards 2 binaryTable (initialRequest 2 ⟨18, 2⟩) :=
    forwards_binaryTable haddress (by decide)
  have hthird : requestTo 131074 65542 ∈ forwards 2 tree.ri (requestTo 65538 262144) := by
    rw [forwards_binaryTable haddress (by decide)]
    exact mem_forwards_second
  rw [← hfrom] at hfirst hlast
  unfold forwardFrom
  rw [deliverAll_cons_of_mem hfirst,
    deliverAll_cons_of_mem (Multiset.mem_add.mpr
      (Or.inl ((Multiset.mem_erase_of_ne hne).mpr hlast))),
    deliverAll_cons_of_mem (Multiset.mem_add.mpr (Or.inr hthird))]
  refine ⟨_, rfl, ?_⟩
  show Multiset.count (⟨18, 131074⟩ : Pos)
    (⟨18, 131074⟩ ::ₘ ⟨18, 65538⟩ ::ₘ ⟨18, 131074⟩ ::ₘ 0) = 2
  decide

end Sola.Minhton
