import Sola.Minhton.CoveringDsn
import Sola.Minhton.Join

/-!
Who is in a routing table, and who is known through it.

The positions in the routing table of a child have their parents in the
routing table of its own parent, and a DSN has its whole cover area and the
next DSNs of its level in its slots.
-/

namespace Sola.Minhton

open Sola.Lib Sola.Lib.MaryTree Sola.Lib.Distances List RoutingInformation
open RoutingInformation (ofView fill)

/-! ### The neighbors of a child -/

section Children

variable {m : ℕ} (hm : isFanoutValid m = true) {p c q : Pos} (hp : p.Valid m)
  (hsize : m ^ (p.level + 1) ≤ 2 ^ 31) (hc : c ∈ childPositions m p)
include hm hp hsize hc

theorem mem_tablePositions_child (hq : q ∈ tablePositions m c) :
    q.level = p.level + 1 ∧ q.number < m ^ (p.level + 1) ∧
      ∃ δ, IsDist m δ ∧ (q.number + δ = c.number ∨ c.number + δ = q.number) := by
  obtain ⟨hlevel, hvalid⟩ := childPositions_valid hp hc
  rw [← hlevel] at hsize ⊢
  have hlt : c.number < m ^ c.level := hvalid
  rcases mem_append.mp hq with hq | hq
  · obtain ⟨δ, hδ, rfl⟩ := mem_map.mp hq
    obtain ⟨hdist, hle⟩ := (mem_leftDistances_of_size hm hsize hvalid).mp hδ
    exact ⟨rfl, lt_of_le_of_lt (Nat.sub_le _ _) hlt, δ, hdist, Or.inl (Nat.sub_add_cancel hle)⟩
  · obtain ⟨δ, hδ, rfl⟩ := mem_map.mp hq
    obtain ⟨hdist, hright⟩ := (mem_rightDistances_of_size hm hsize).mp hδ
    exact ⟨rfl, hright, δ, hdist, Or.inr rfl⟩

/-- The parent of a neighbor of a child is a neighbor of the child's parent. -/
theorem parent_mem_tablePositions (hq : q ∈ tablePositions m c) :
    q.parent m = p ∨ q.parent m ∈ tablePositions m p := by
  have hm2 := isFanoutValid_iff.mp hm
  have hfits : Fits m p.level := le_trans hsize (by norm_num)
  obtain ⟨hlevel, hlt, δ, hdist, hδ⟩ := mem_tablePositions_child hm hp hsize hc hq
  obtain ⟨-, hnumber⟩ := (mem_childPositions_iff_div hm).mp hc
  have hparent : (q.parent m).level = p.level := by
    rw [Pos.parent_level, hlevel, Nat.add_sub_cancel]
  have hbound : q.number / m < m ^ p.level := by
    rwa [Nat.div_lt_iff_lt_mul (by omega), ← pow_succ]
  rw [mem_tablePositions hm hfits hp, Pos.parent_number]
  rcases hδ with hδ | hδ
  · rcases hdist.div hm2.1 hδ with heq | ⟨hless, hdist⟩
    · exact Or.inl (Pos.ext_iff'.mpr ⟨hparent, heq.trans hnumber⟩)
    · rw [hnumber] at hless hdist
      exact Or.inr ⟨hparent, Or.inl ⟨hless, hdist⟩⟩
  · rcases hdist.div hm2.1 hδ with heq | ⟨hless, hdist⟩
    · exact Or.inl (Pos.ext_iff'.mpr ⟨hparent, heq.symm.trans hnumber⟩)
    · rw [hnumber] at hless hdist
      exact Or.inr ⟨hparent, Or.inr ⟨hless, hbound, hdist⟩⟩

/-- A node has a slot for every neighbor of its children. -/
theorem isSlot_of_mem_tablePositions_child (hq : q ∈ tablePositions m c) : IsSlot m p q := by
  obtain ⟨hlevel, -⟩ := mem_tablePositions_child hm hp hsize hc hq
  have hchild : q ∈ childPositions m (q.parent m) :=
    (mem_childPositions_iff_div hm).mpr ⟨by rw [Pos.parent_level]; omega, rfl⟩
  rcases parent_mem_tablePositions hm hp hsize hc hq with heq | hmem
  · rw [heq] at hchild
    exact .child hchild
  · exact .neighborChild hmem hchild

/-- Looking up the neighbors of a child does not throw and leaves out no node. -/
theorem getRoutingTableNeighborsForNewChild_ofView (address : Address)
    (v : Pos → Option Address) (left right : NodeInfo) (a : Option Address) :
    ∃ nodes, (ofView m p address v left right).getRoutingTableNeighborsForNewChild m
        ⟨some c, a⟩ = .ok nodes ∧
      ∀ q ∈ tablePositions m c, (v q).isSome = true →
        ∃ n ∈ nodes, n.logical = some q ∧ n.isInitialized = true := by
  obtain ⟨hlevel, hvalid⟩ := childPositions_valid hp hc
  have hlookup : ∀ q ∈ tablePositions m c, ∃ n,
      (ofView m p address v left right).getNodeInfoByPosition m q = .ok n ∧
      ((v q).isSome = true → n.logical = some q ∧ n.isInitialized = true) := by
    intro q hq
    obtain ⟨hqlevel, hlt, -⟩ := mem_tablePositions_child hm hp hsize hc hq
    rw [← hqlevel] at hlt
    obtain ⟨n, hn, hocc, hpos⟩ : ∃ n,
        (ofView m p address v left right).getNodeInfoByPosition m q = .ok n ∧
        (n.isInitialized = true ↔ Occupied m p v left right q) ∧
        (n.isInitialized = true → n.pos = q) :=
      getNodeInfoByPosition_ofView ((isPositionValid_iff hm).mpr hlt) (by omega)
    refine ⟨n, hn, fun hsome => ?_⟩
    have hinit := hocc.mpr
      (Or.inl ⟨isSlot_of_mem_tablePositions_child hm hp hsize hc hq, hsome⟩)
    exact ⟨NodeInfo.logical_eq_of_pos hinit (hpos hinit), hinit⟩
  have hnonempty : Nonempty NodeInfo := ⟨.none⟩
  choose! node hnode hsome using hlookup
  have hchild : (ofView m p address v left right).children.any
      (fun n => n.logical = some c) = true :=
    any_eq_true.mpr ⟨slot v c, mem_map_of_mem hc, by simp⟩
  refine ⟨((tablePositions m c).map node).filter (·.isInitialized), ?_, fun q hq hv => ?_⟩
  · rw [getRoutingTableNeighborsForNewChild, if_neg (by simp [ofView]),
      if_neg (by rw [hchild]; simp), knownTableNeighbors, NodeInfo.pos_mk,
      calcLeftRT_eq hm hvalid, calcRightRT_eq_of_size hm (by rwa [hlevel]) hvalid]
    simp only [bind, Except.bind]
    rw [show map _ _ ++ map _ _ = tablePositions m c from rfl, mapM_ok hnode]
    rfl
  · exact ⟨node q, mem_filter.mpr ⟨mem_map_of_mem hq, (hsome q hq hv).2⟩,
      hsome q hq hv⟩

end Children

section Near

variable {m L : ℕ} (hm : isFanoutValid m = true)
include hm

/-- The last DSN is at most the fanout away from the end of its level. -/
theorem lastDsn_near (h0 : L ≠ 0) (heven : L % 2 = 0) : m ^ L - 1 ≤ lastDsn m L + m := by
  have hm2 := isFanoutValid_iff.mp hm
  obtain ⟨k, rfl⟩ : ∃ k, L = k + 1 := ⟨L - 1, by omega⟩
  have hparity : m ^ k % 2 = m % 2 := pow_mod_two m (by omega)
  have hpos : m ^ 1 ≤ m ^ k := Nat.pow_le_pow_right (by omega) (by omega)
  rw [pow_one] at hpos
  have hcount : dsnCount m (k + 1) = m ^ k / 2 + m % 2 := by
    rw [dsnCount, if_neg h0, if_neg (by omega : ¬ (k + 1) % 2 = 1), Nat.add_sub_cancel]
  rw [lastDsn, dsnNumber, if_neg h0, hcount, Nat.add_sub_cancel]
  by_cases hodd : m % 2 = 1
  · rw [if_neg (by omega)]
    omega
  · -- half of an even number of pairs
    obtain ⟨j, hj⟩ : ∃ j, m ^ k = 2 * j + 2 := ⟨(m ^ k - 2) / 2, by omega⟩
    have hpow : m ^ (k + 1) = 2 * m * j + 2 * m := by rw [pow_succ, hj]; ring
    rw [if_pos (by omega), hpow, hj, show (2 * j + 2) / 2 + m % 2 - 1 = j by omega]
    omega

/-- A DSN is at most the fanout away from all that it covers on its level. -/
theorem cover_near (h0 : L ≠ 0) {i n : ℕ} (hi : i < dsnCount m L) (hlow : coverLow m L i ≤ n)
    (hhigh : n ≤ coverHigh m L i) :
    dsnNumber m L i ≤ n + m ∧ n ≤ dsnNumber m L i + m := by
  have hm2 := isFanoutValid_iff.mp hm
  constructor
  · unfold coverLow at hlow
    cases i with
    | zero =>
      rw [dsnNumber_zero hm h0 hi]
      omega
    | succ i =>
      rw [if_neg (by omega), Nat.add_sub_cancel] at hlow
      rcases dsnNumber_succ_cases hm hi with hgap | ⟨-, hgap⟩
      · omega
      · omega
  · unfold coverHigh at hhigh
    split_ifs at hhigh with hlast
    · have heven := level_even_of_mem_dsnNumbers (mem_dsnNumbers.mpr ⟨i, hi, rfl⟩)
      have hnear := lastDsn_near hm h0 heven
      rw [lastDsn, ← hlast] at hnear
      omega
    · rcases dsnNumber_succ_cases hm (by omega : i + 1 < dsnCount m L) with hgap | ⟨-, hgap⟩
      · omega
      · omega

variable {i : ℕ} (hfits : Fits m L) (hi : i < dsnCount m L)
include hfits hi

theorem mem_tablePositions_of_covered {n : ℕ} (hne : n ≠ dsnNumber m L i)
    (hlow : coverLow m L i ≤ n) (hhigh : n ≤ coverHigh m L i) :
    (⟨L, n⟩ : Pos) ∈ tablePositions m ⟨L, dsnNumber m L i⟩ := by
  have hown : (⟨L, dsnNumber m L i⟩ : Pos).Valid m := dsnNumber_lt_pow hm i
  have hlt : n < m ^ L := lt_of_le_of_lt hhigh (coverHigh_lt_pow hm hi)
  have h0 : L ≠ 0 := by
    rintro rfl
    have hroot := dsnNumber_lt_pow hm (L := 0) i
    rw [pow_zero] at hlt hroot
    omega
  obtain ⟨hleft, hright⟩ := cover_near hm h0 hi hlow hhigh
  exact mem_tablePositions_of_near hm hfits hown hlt hne hleft hright

/-- What a DSN covers is in its routing table, or the child of something there
that it covers. -/
theorem mem_coverArea_cases {q : Pos} (hq : q ∈ coverArea m L i) :
    q.level = L ∧ q ∈ tablePositions m ⟨L, dsnNumber m L i⟩ ∨
      q.level = L + 1 ∧ ∃ r, (r = ⟨L, dsnNumber m L i⟩ ∨
        r ∈ coverArea m L i ∧ r ∈ tablePositions m ⟨L, dsnNumber m L i⟩) ∧
        q ∈ childPositions m r := by
  rcases (mem_coverArea hm hi).mp (Or.inr hq) with ⟨rfl, hlow, hhigh⟩ | ⟨hlevel, hlow, hhigh⟩
  · refine Or.inl ⟨rfl, mem_tablePositions_of_covered hm hfits hi (fun heq => ?_) hlow hhigh⟩
    refine dsn_not_mem_coverArea hm hi ?_
    rw [← heq]
    exact hq
  · refine Or.inr ⟨hlevel, ⟨L, q.number / m⟩, ?_,
      (mem_childPositions_iff_div hm).mpr ⟨hlevel, rfl⟩⟩
    rcases (mem_coverArea hm hi (p := ⟨L, q.number / m⟩)).mpr (Or.inl ⟨rfl, hlow, hhigh⟩)
      with heq | harea
    · exact Or.inl heq
    · refine Or.inr ⟨harea, mem_tablePositions_of_covered hm hfits hi (fun heq => ?_) hlow hhigh⟩
      rw [heq] at harea
      exact dsn_not_mem_coverArea hm hi harea

/-- A DSN has a slot for every position of its cover area. -/
theorem isSlot_of_mem_coverArea {q : Pos} (hq : q ∈ coverArea m L i) :
    IsSlot m ⟨L, dsnNumber m L i⟩ q := by
  rcases mem_coverArea_cases hm hfits hi hq with ⟨-, htable⟩ | ⟨-, r, rfl | ⟨-, htable⟩, hchild⟩
  · exact .neighbor htable
  · exact .child hchild
  · exact .neighborChild htable hchild

end Near

/-- A DSN has its cover area in its routing table and among the children of
it, and the DSNs before and after it in its routing table. -/
theorem dsn_knows_coverArea {m L : ℕ} (hm : isFanoutValid m = true) (hfits : m ^ (L + 1) ≤ 2 ^ 32) :
    ∃ dsnSet, getDSNSet m L = .ok dsnSet ∧
      (∀ d ∈ dsnSet, ∃ area left right, getCoverArea m ⟨L, d⟩ = .ok area ∧
        calcLeftRT m ⟨L, d⟩ = .ok left ∧ calcRightRT m ⟨L, d⟩ = .ok right ∧
        ∀ q ∈ area, q.level = L ∧ q ∈ left ++ right ∨
          q.level = L + 1 ∧ ∃ r, (r = ⟨L, d⟩ ∨ r ∈ area ∧ r ∈ left ++ right) ∧
            ∃ children, calcChildren m r = .ok children ∧ q ∈ children) ∧
      ∀ i d d', dsnSet[i]? = some d → dsnSet[i + 1]? = some d' →
        (∃ right, calcRightRT m ⟨L, d⟩ = .ok right ∧ ⟨L, d'⟩ ∈ right) ∧
        ∃ left, calcLeftRT m ⟨L, d'⟩ = .ok left ∧ ⟨L, d⟩ ∈ left := by
  have hvalid : ∀ i, (⟨L, dsnNumber m L i⟩ : Pos).Valid m := fun i => dsnNumber_lt_pow hm i
  have hown : ∀ i, Fits m (⟨L, dsnNumber m L i⟩ : Pos).level := fun _ => hfits
  refine ⟨_, getDSNSet_eq hm hfits, fun d hd => ?_, fun i d d' hd hd' => ?_⟩
  · obtain ⟨i, hi, rfl⟩ := mem_dsnNumbers.mp hd
    refine ⟨_, _, _, getCoverArea_eq hm (level_even_of_mem_dsnNumbers hd) hfits hi,
      calcLeftRT_eq hm (hvalid i), calcRightRT_eq hm hfits (hvalid i), fun q hq => ?_⟩
    rcases mem_coverArea_cases hm hfits hi hq with htable | ⟨hlevel, r, hr, hchild⟩
    · exact Or.inl htable
    · refine Or.inr ⟨hlevel, r, hr, _, Fits.calcChildren_eq hm ?_ ?_, hchild⟩
      · have := (mem_childPositions.mp hchild).1
        exact Fits.mono hm hfits (by omega)
      · rcases hr with rfl | ⟨-, htable⟩
        · exact hvalid i
        · exact (tablePositions_valid hm (hown i) (hvalid i) htable).1
  · have hget : ∀ {k e}, (dsnNumbers m L)[k]? = some e →
        k < dsnCount m L ∧ dsnNumber m L k = e := by
      intro k e h
      simpa [dsnNumbers, List.getElem?_eq_some_iff] using h
    obtain ⟨hsucc, rfl⟩ := hget hd'
    obtain ⟨-, rfl⟩ := hget hd
    have hle := (dsnNumber_lt hm (Nat.lt_succ_self i) hsucc).le
    have hdist := isDist_dsnNumber_succ hm hsucc
    refine ⟨⟨_, calcRightRT_eq hm hfits (hvalid i), mem_map.mpr ⟨_,
      (mem_rightDistances hm (hown i)).mpr ⟨hdist, ?_⟩, ?_⟩⟩, _, calcLeftRT_eq hm (hvalid _),
      mem_map.mpr ⟨_, (mem_leftDistances hm (hown _) (hvalid _)).mpr ⟨hdist, ?_⟩, ?_⟩⟩
    · rw [Nat.add_sub_cancel' hle]
      exact hvalid (i + 1)
    · rw [Nat.add_sub_cancel' hle]
    · exact Nat.sub_le _ _
    · rw [Nat.sub_sub_self hle]

/-- The DSNs 2:3 and 2:5 of a tree with fanout 3. -/
theorem dsn_knows_coverArea_three_two :
    (∃ area left right, getCoverArea 3 ⟨2, 3⟩ = .ok area ∧ calcLeftRT 3 ⟨2, 3⟩ = .ok left ∧
      calcRightRT 3 ⟨2, 3⟩ = .ok right ∧ ∀ q ∈ area, q.level = 2 → q ∈ left ++ right) ∧
      ∃ right, calcRightRT 3 ⟨2, 3⟩ = .ok right ∧ ⟨2, 5⟩ ∈ right := by
  obtain ⟨dsnSet, hset, hareas, hnext⟩ :=
    dsn_knows_coverArea (m := 3) (L := 2) (by decide) (by decide)
  obtain rfl : [3, 5] = dsnSet := Except.ok.inj hset
  obtain ⟨area, left, right, harea, hleft, hright, hcases⟩ := hareas 3 (by decide)
  refine ⟨⟨area, left, right, harea, hleft, hright, fun q hq hlevel => ?_⟩, (hnext 0 3 5 rfl rfl).1⟩
  rcases hcases q hq with ⟨-, htable⟩ | ⟨hbelow, -⟩
  · exact htable
  · omega

end Sola.Minhton
