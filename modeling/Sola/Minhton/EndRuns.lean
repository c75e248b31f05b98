import Sola.Minhton.CorrectRouting
import Sola.Minhton.EndRouting

/-!
Runs of a join or find-replacement request through a complete tree.

In a complete tree with correct routing information on levels without
truncation, a join request reaches the parent of the first free position
from every node, and a find-replacement request reaches the last node.
-/

namespace Sola.Minhton

open Sola.Lib.MaryTree Sola.Lib.Distances RoutingInformation List

/-! ### One argument for both searches -/

/-- The routing information of all nodes of a tree shows the tree `v`, and
its adjacents are the in-order neighbors. -/
structure ShowsEverywhere (m P count : ℕ) (v : Pos → Option Address)
    (ri : Pos → RoutingInformation) : Prop where
  tree : ShowsTree m P count v
  valid : ∀ p, (v p).isSome = true → p.Valid m
  shows : ∀ p, (v p).isSome = true → Shows m v p (ri p)
  left : ∀ p, (v p).isSome = true → ∃ o, IsPred m (fun q => (v q).isSome = true) p o ∧
    (ri p).adjacentLeft = o.elim .none (slot v)
  right : ∀ p, (v p).isSome = true → ∃ o, IsSucc m (fun q => (v q).isSome = true) p o ∧
    (ri p).adjacentRight = o.elim .none (slot v)

section Search

variable {m P count : ℕ} {v : Pos → Option Address} {ri : Pos → RoutingInformation}
  (hs : ShowsEverywhere m P count v ri) {join : Bool}
  (hjoin : join = true → count < m ^ (P + 1)) (hleave : join = false → 0 < count)

/-- A property of requests that holds where a request is accepted and is
passed back along every hop.  A hop that searches to the right goes to a
parent that is not to the right of the parent of the end. -/
structure PassedBack (m P count : ℕ) (v : Pos → Option Address)
    (ri : Pos → RoutingInformation) (join : Bool) (R : Pos → SearchProgress → Prop) :
    Prop where
  accept : ∀ progress,
    (ri ⟨P, endParent m count join⟩).findEnd m join progress = .ok .accept →
    R ⟨P, endParent m count join⟩ progress
  hop : ∀ p q progress progress', (v p).isSome = true → (v q).isSome = true →
    (ri p).findEnd m join progress = .ok (.forward (slot v q) progress') →
    (progress' = .kSearchRight → q.level = P ∧ q.number ≤ endParent m count join) →
    R q progress' → R p progress

/-- The same with a bound on the number of hops that are left. -/
structure PassedBackWithin (m P count : ℕ) (v : Pos → Option Address)
    (ri : Pos → RoutingInformation) (join : Bool) (R : ℕ → Pos → SearchProgress → Prop) :
    Prop where
  accept : ∀ progress,
    (ri ⟨P, endParent m count join⟩).findEnd m join progress = .ok .accept →
    R 0 ⟨P, endParent m count join⟩ progress
  hop : ∀ k p q progress progress', (v p).isSome = true → (v q).isSome = true →
    (ri p).findEnd m join progress = .ok (.forward (slot v q) progress') →
    (progress' = .kSearchRight → q.level = P ∧ q.number ≤ endParent m count join) →
    R k q progress' → R (k + 1) p progress
  mono : ∀ k k' p progress, k ≤ k' → R k p progress → R k' p progress

theorem PassedBack.within {m P count : ℕ} {v : Pos → Option Address}
    {ri : Pos → RoutingInformation} {join : Bool} {R : Pos → SearchProgress → Prop}
    (hR : PassedBack m P count v ri join R) :
    PassedBackWithin m P count v ri join fun _ => R :=
  ⟨hR.accept, fun _ => hR.hop, fun _ _ _ _ _ h => h⟩

variable {R : ℕ → Pos → SearchProgress → Prop}
  (hR : PassedBackWithin m P count v ri join R)

theorem endParent_lt (ht : ShowsTree m P count v)
    (hjoin : join = true → count < m ^ (P + 1)) (hleave : join = false → 0 < count) :
    endParent m count join < m ^ P := by
  have hcount := ht.count_le
  unfold endParent
  rw [pow_succ'] at hcount hjoin
  cases join with
  | true => exact Nat.div_lt_of_lt_mul (hjoin rfl)
  | false =>
    have := hleave rfl
    exact Nat.div_lt_of_lt_mul (by omega)

include hs hjoin hleave hR

variable {n k : ℕ} {progress : SearchProgress} {p : Pos}

omit hjoin in
/-- A search that has come to the parent of the end. -/
theorem reaches_of_isCorrectParent (hn : n < m ^ P)
    (hc : (ri ⟨P, n⟩).isCorrectParent m join = true)
    (hprogress : progress = .kSearchLeft ∨ progress = .kSearchRight) : R 0 ⟨P, n⟩ progress := by
  have h := hs.shows ⟨P, n⟩ (hs.tree.isSome_of_lt hn)
  obtain rfl := (hs.tree.isCorrectParent_iff h hleave).mp hc
  refine hR.accept _ ?_
  rcases hprogress with rfl | rfl
  · simp [findEnd, hc]
  · simp [findEnd, hc]

/-- Searching to the right on the level of the parents takes one digit of the
distance to the parent of the end away with every hop. -/
theorem reaches_searchRight_within (hn : n ≤ endParent m count join)
    (hk : endParent m count join - n ≤ m ^ k) : R (k + 1) ⟨P, n⟩ .kSearchRight := by
  have hlt := endParent_lt hs.tree hjoin hleave
  have hsome := hs.tree.isSome_of_lt (lt_of_le_of_lt hn hlt)
  have h := hs.shows ⟨P, n⟩ hsome
  have hcorrect := hs.tree.isCorrectParent_iff h hleave
  induction k generalizing n with
  | zero =>
    by_cases hc : (ri ⟨P, n⟩).isCorrectParent m join = true
    · exact hR.mono _ _ _ _ (Nat.zero_le _)
        (reaches_of_isCorrectParent hs hleave hR (by omega) hc (Or.inr rfl))
    · have hne : n ≠ endParent m count join := fun he => hc (hcorrect.mpr he)
      obtain ⟨w, hw, hnw, -, hwsome, hres⟩ :=
        hs.tree.searchEnd_right h hjoin hleave (by omega)
      obtain rfl : w = endParent m count join := by
        rw [pow_zero] at hk
        omega
      refine hR.hop _ _ ⟨P, endParent m count join⟩ _ _ hsome hwsome
        (by simpa [findEnd, hc] using hres) (fun _ => ⟨rfl, le_rfl⟩) ?_
      exact reaches_of_isCorrectParent hs hleave hR hlt
        ((hs.tree.isCorrectParent_iff (hs.shows _ hwsome) hleave).mpr rfl) (Or.inr rfl)
  | succ k ih =>
    by_cases hc : (ri ⟨P, n⟩).isCorrectParent m join = true
    · exact hR.mono _ _ _ _ (Nat.zero_le _)
        (reaches_of_isCorrectParent hs hleave hR (by omega) hc (Or.inr rfl))
    · have hne : n ≠ endParent m count join := fun he => hc (hcorrect.mpr he)
      obtain ⟨w, hw, hnw, hnear, hwsome, hres⟩ :=
        hs.tree.searchEnd_right h hjoin hleave (by omega)
      refine hR.hop _ _ ⟨P, w⟩ _ _ hsome hwsome
        (by simpa [findEnd, hc] using hres) (fun _ => ⟨rfl, hw⟩) ?_
      exact ih hw (hnear k hk) hwsome (hs.shows _ hwsome)
        (hs.tree.isCorrectParent_iff (hs.shows _ hwsome) hleave)

theorem reaches_searchRight (hn : n ≤ endParent m count join) : R (P + 1) ⟨P, n⟩ .kSearchRight := by
  have hlt := endParent_lt hs.tree hjoin hleave
  exact reaches_searchRight_within hs hjoin hleave hR hn (by omega)

/-- Searching to the left from a node that is not the leftmost one: once the
property holds for searches to the left further left, it holds here. -/
theorem reaches_of_searchEnd_left (hn : n < m ^ P) (hpos : 0 < n)
    (hfind : (ri ⟨P, n⟩).findEnd m join progress =
      (ri ⟨P, n⟩).searchEndOnLevel m join true)
    (hleft : ∀ x < n, Shorter m x n → count ≤ x * m → R (k + P + 1) ⟨P, x⟩ .kSearchLeft) :
    R (k + P + 2) ⟨P, n⟩ progress := by
  have hsome := hs.tree.isSome_of_lt hn
  rcases hs.tree.searchEnd_left (hs.shows _ hsome) hjoin hpos with
    ⟨x, hx, hshorter, hcount, hres⟩ | ⟨w, hw, hwsome, hres⟩
  · exact hR.hop _ _ ⟨P, x⟩ _ _ hsome (hs.tree.isSome_of_lt (by omega)) (hfind.trans hres)
      (by simp) (hleft x hx hshorter hcount)
  · refine hR.hop _ _ ⟨P, w⟩ _ _ hsome hwsome (hfind.trans hres) (fun _ => ⟨rfl, hw⟩) ?_
    exact hR.mono _ _ _ _ (by omega) (reaches_searchRight hs hjoin hleave hR hw)

/-- Searching to the left from a node without children takes one digit of its
number away with every hop. -/
theorem reaches_searchLeft (hn : n < m ^ P) (hcount : count ≤ n * m) (hk : n < m ^ k) :
    R (k + P + 1) ⟨P, n⟩ .kSearchLeft := by
  induction k generalizing n with
  | zero =>
    -- at the left edge the tree has no children, so this is its end
    obtain rfl : n = 0 := by
      rw [pow_zero] at hk
      omega
    have h := hs.shows ⟨P, 0⟩ (hs.tree.isSome_of_lt hn)
    have hc : (ri ⟨P, 0⟩).isCorrectParent m join = true := by
      refine (hs.tree.isCorrectParent_iff h hleave).mpr ?_
      cases join with
      | true =>
        have hzero : count = 0 := by omega
        simp [endParent, hzero]
      | false => exact absurd (hleave rfl) (by omega)
    exact hR.mono _ _ _ _ (Nat.zero_le _)
      (reaches_of_isCorrectParent hs hleave hR hn hc (Or.inl rfl))
  | succ k ih =>
    by_cases hc : (ri ⟨P, n⟩).isCorrectParent m join = true
    · exact hR.mono _ _ _ _ (Nat.zero_le _)
        (reaches_of_isCorrectParent hs hleave hR hn hc (Or.inl rfl))
    · by_cases hpos : 0 < n
      · have hnext := reaches_of_searchEnd_left hs hjoin hleave hR (k := k) hn hpos
          (by simp [findEnd, hc] : (ri ⟨P, n⟩).findEnd m join
            .kSearchLeft = _) fun x hx hshorter hx' => ih (by omega) hx' (hshorter k hk)
        exact hR.mono _ _ _ _ (by omega) hnext
      · obtain rfl : n = 0 := by omega
        have hm2 := (hs.shows ⟨P, 0⟩ (hs.tree.isSome_of_lt hn)).two_le
        exact hR.mono _ _ _ _ (by omega) (ih hn hcount (Nat.pow_pos (by omega)))

/-- Searching to the left from any node on the level of the parents. -/
theorem reaches_of_searchEnd_left_all (hn : n < m ^ P) (hpos : 0 < n)
    (hfind : (ri ⟨P, n⟩).findEnd m join progress =
      (ri ⟨P, n⟩).searchEndOnLevel m join true) : R (2 * P + 2) ⟨P, n⟩ progress :=
  hR.mono _ _ _ _ (by omega) (reaches_of_searchEnd_left hs hjoin hleave hR (k := P) hn hpos
    hfind fun x hx _ hx' => reaches_searchLeft hs hjoin hleave hR (by omega) hx' (by omega))

/-- Looking for the right edge on the level of the parents takes one digit of
the distance to the edge away with every hop. -/
theorem reaches_checkRight_within (hpos : 0 < n) (hn : n + 1 < m ^ P) (hk : m ^ P - 1 - n < m ^ k) :
    R (k + 2 * P + 2) ⟨P, n⟩ .kCheckRight := by
  induction k generalizing n with
  | zero =>
    rw [pow_zero] at hk
    omega
  | succ k ih =>
    have hsome := hs.tree.isSome_of_lt (by omega : n < m ^ P)
    rcases hs.tree.checkRight_parents (hs.shows _ hsome) join hn with
      ⟨y, hny, hy, hshorter, hysome, hres⟩ | hres
    · have hnext : R (k + 2 * P + 2 + 1) ⟨P, n⟩ .kCheckRight :=
        hR.hop _ _ ⟨P, y⟩ _ _ hsome hysome hres (by simp)
          (ih (by omega) hy (hshorter k hk))
      exact hR.mono _ _ _ _ (by omega) hnext
    · exact hR.mono _ _ _ _ (by omega)
        (reaches_of_searchEnd_left_all hs hjoin hleave hR (by omega) hpos hres)

theorem reaches_checkRight (hpos : 0 < n) (hn : n + 1 < m ^ P) :
    R (3 * P + 2) ⟨P, n⟩ .kCheckRight :=
  hR.mono _ _ _ _ (by omega)
    (reaches_checkRight_within hs hjoin hleave hR (k := P) hpos hn (by omega))

/-! #### The last level -/

section

variable (hn : n < count)
include hn

/-- From the last level up to the level of the parents. -/
theorem reaches_of_parent (hfind : (ri ⟨P + 1, n⟩).findEnd m join progress =
    .ok (.forward (slot v ⟨P, n / m⟩) .kSearchRight)) : R (P + 2) ⟨P + 1, n⟩ progress := by
  have hsome : (v ⟨P + 1, n⟩).isSome = true := hs.tree.isSome_last hn
  have hle : n / m ≤ endParent m count join := by
    unfold endParent
    cases join with
    | true => exact Nat.div_le_div_right hn.le
    | false => exact Nat.div_le_div_right (by omega)
  have hlt := endParent_lt hs.tree hjoin hleave
  exact hR.hop _ _ ⟨P, n / m⟩ _ _ hsome (hs.tree.isSome_of_lt (by omega)) hfind
    (fun _ => ⟨rfl, hle⟩) (reaches_searchRight hs hjoin hleave hR hle)

/-- Searching to the left on a full last level, in a leave. -/
theorem reaches_of_searchEnd_left_last_within (hfalse : join = false)
    (hfind : (ri ⟨P + 1, n⟩).findEnd m join progress = (ri ⟨P + 1, n⟩).searchEndOnLevel m join true)
    (hk : n < m ^ k) : R (k + P + 2) ⟨P + 1, n⟩ progress := by
  subst hfalse
  induction k generalizing n progress with
  | zero =>
    obtain rfl : n = 0 := by
      rw [pow_zero] at hk
      omega
    have hsome : (v ⟨P + 1, 0⟩).isSome = true := hs.tree.isSome_last hn
    rcases hs.tree.searchEnd_left_last (hs.shows _ hsome) hn with ⟨x, hx, -⟩ | hres
    · omega
    · exact hR.mono _ _ _ _ (by omega)
        (reaches_of_parent hs hjoin hleave hR hn (hfind.trans hres))
  | succ k ih =>
    have hsome : (v ⟨P + 1, n⟩).isSome = true := hs.tree.isSome_last hn
    rcases hs.tree.searchEnd_left_last (hs.shows _ hsome) hn with
      ⟨x, hx, hshorter, hres⟩ | hres
    · have hxsome : (v ⟨P + 1, x⟩).isSome = true :=
        hs.tree.isSome_last (lt_trans hx hn)
      have hnext := hR.hop _ _ ⟨P + 1, x⟩ _ _ hsome hxsome (hfind.trans hres) (by simp)
        (ih (by omega) (hshorter k hk) (by simp [findEnd,
          hs.tree.isCorrectParent_last (hs.shows _ hxsome) (Or.inl rfl)]))
      exact hR.mono _ _ _ _ (by omega) hnext
    · exact hR.mono _ _ _ _ (by omega)
        (reaches_of_parent hs hjoin hleave hR hn (hfind.trans hres))

theorem reaches_of_searchEnd_left_last (hfalse : join = false)
    (hfind : (ri ⟨P + 1, n⟩).findEnd m join progress =
      (ri ⟨P + 1, n⟩).searchEndOnLevel m join true) : R (2 * P + 3) ⟨P + 1, n⟩ progress :=
  hR.mono _ _ _ _ (by omega) (reaches_of_searchEnd_left_last_within hs hjoin hleave hR
    (k := P + 1) hn hfalse hfind (lt_of_lt_of_le hn hs.tree.count_le))

/-- Looking for the right edge on the last level. -/
theorem reaches_checkRight_last_within (hedge : n + 1 < m ^ (P + 1))
    (hk : m ^ (P + 1) - 1 - n < m ^ k) : R (k + 2 * P + 3) ⟨P + 1, n⟩ .kCheckRight := by
  induction k generalizing n with
  | zero =>
    rw [pow_zero] at hk
    omega
  | succ k ih =>
    have hsome : (v ⟨P + 1, n⟩).isSome = true := hs.tree.isSome_last hn
    rcases hs.tree.checkRight_last (hs.shows _ hsome) hjoin hedge with
      hres | ⟨y, hny, hy, hyedge, hshorter, hres⟩ | ⟨hfalse, hres⟩
    · exact hR.mono _ _ _ _ (by omega) (reaches_of_parent hs hjoin hleave hR hn hres)
    · have hysome : (v ⟨P + 1, y⟩).isSome = true := hs.tree.isSome_last hy
      have hnext : R (k + 2 * P + 3 + 1) ⟨P + 1, n⟩ .kCheckRight :=
        hR.hop _ _ ⟨P + 1, y⟩ _ _ hsome hysome hres (by simp)
          (ih hy hyedge (hshorter k hk))
      exact hR.mono _ _ _ _ (by omega) hnext
    · exact hR.mono _ _ _ _ (by omega)
        (reaches_of_searchEnd_left_last hs hjoin hleave hR hn hfalse hres)

theorem reaches_checkRight_last (hedge : n + 1 < m ^ (P + 1)) :
    R (3 * P + 4) ⟨P + 1, n⟩ .kCheckRight :=
  hR.mono _ _ _ _ (by omega)
    (reaches_checkRight_last_within hs hjoin hleave hR (k := P + 1) hn hedge (by omega))

end

/-! #### The start -/

/-- A request that starts at a node with room for a child. -/
theorem reaches_of_room (hp : (v p).isSome = true) (hroom : (ri p).areChildrenFull = false) :
    R (3 * P + 5) p .kNone := by
  have h := hs.shows p hp
  have hfind : (ri p).findEnd m join .kNone = (ri p).decideNextStep m join := by
    simp [findEnd, hroom]
  obtain ⟨l, n⟩ := p
  rcases (hs.tree.isSome_iff _ h.valid).mp hp with hl | ⟨hl, hn⟩
  · -- above the level of the parents there is no room
    have hlP : l = P := by
      by_contra hne
      have hfull : (ri ⟨l, n⟩).areChildrenFull = true := by
        rw [h.areChildrenFull_iff]
        intro c hc
        refine (hs.tree.isSome_iff _ (h.valid.child hc)).mpr (Or.inl ?_)
        simp only [Pos.child_level]
        have hl' : l ≤ P := hl
        omega
      simp [hfull] at hroom
    subst hlP
    have hn : n < m ^ l := h.valid
    have hcount : count < (n + 1) * m := by
      have := hs.tree.areChildrenFull_iff h
      rw [hroom] at this
      simpa using this
    rcases hs.tree.decideNextStep_parents h hleave hcount with
      ⟨rfl, hres⟩ | ⟨hpos, hres⟩ | ⟨y, hny, hy, hysome, hres⟩
    · exact hR.mono _ _ _ _ (Nat.zero_le _) (hR.accept _ (hfind.trans hres))
    · exact hR.mono _ _ _ _ (by omega)
        (reaches_of_searchEnd_left_all hs hjoin hleave hR hn hpos (hfind.trans hres))
    · have hnext := hR.hop _ _ ⟨l, y⟩ _ _ hp hysome (hfind.trans hres) (by simp)
        (reaches_checkRight hs hjoin hleave hR (by omega) hy)
      exact hR.mono _ _ _ _ (by omega) hnext
  · obtain rfl : l = P + 1 := hl
    have hn' : n < count := hn
    rcases hs.tree.decideNextStep_last h hjoin hn' with
      hres | ⟨y, hny, hy, hyedge, hres⟩ | ⟨hfalse, hres⟩
    · exact hR.mono _ _ _ _ (by omega)
        (reaches_of_parent hs hjoin hleave hR hn' (hfind.trans hres))
    · have hysome : (v ⟨P + 1, y⟩).isSome = true := hs.tree.isSome_last hy
      exact hR.hop _ _ ⟨P + 1, y⟩ _ _ hp hysome (hfind.trans hres) (by simp)
        (reaches_checkRight_last hs hjoin hleave hR hy hyedge)
    · exact hR.mono _ _ _ _ (by omega)
        (reaches_of_searchEnd_left_last hs hjoin hleave hR hn' hfalse (hfind.trans hres))

/-- A request that starts at any node: a node with all children hands it to
an in-order neighbor, which has room. -/
theorem reaches_end_within (hp : (v p).isSome = true) : R (3 * P + 6) p .kNone := by
  have h := hs.shows p hp
  have hm2 := h.two_le
  by_cases hfull : (ri p).areChildrenFull = true
  · have hchild := h.areChildrenFull_iff.mp hfull
    have hhalf := half_lt hm2
    -- the neighbor below misses one of its children
    have hnext : ∀ (q : Pos) (c : ℕ), (v q).isSome = true → c < m →
        ¬ (v (q.child m c)).isSome = true → R (3 * P + 5) q .kNone := by
      intro q c hq hc hmiss
      refine reaches_of_room hs hjoin hleave hR hq ?_
      rw [← Bool.not_eq_true, (hs.shows q hq).areChildrenFull_iff]
      exact fun hall => hmiss (hall c hc)
    have hfind : (ri p).findEnd m join .kNone = (ri p).forwardToAdjacentNode m := by
      simp [findEnd, hfull]
    by_cases hside : 2 * ((ri p).selfNodeInfo.number + 1) < m ^ (ri p).selfNodeInfo.level
    · obtain ⟨o, hsucc, hslot⟩ := hs.right p hp
      cases o with
      | none =>
        exact absurd ((before_child_iff hm2 p _).mpr le_rfl)
          (hsucc _ (hchild (half m) hhalf))
      | some q =>
        have hq := hsucc.1
        have hres : (ri p).forwardToAdjacentNode m = .ok (.forward (slot v q) .kNone) := by
          unfold forwardToAdjacentNode
          simp [hside, hslot, hq]
        exact hR.hop _ _ q _ _ hp hq (hfind.trans hres) (by simp)
          (hnext q 0 hq (by omega) (hsucc.below hm2 (hchild _ hhalf)).2)
    · obtain ⟨o, hpred, hslot⟩ := hs.left p hp
      cases o with
      | none =>
        exact absurd ((child_before_iff hm2 p 0).mpr (half_pos hm2))
          (hpred _ (hchild 0 (by omega)))
      | some q =>
        have hq := hpred.1
        have hres : (ri p).forwardToAdjacentNode m = .ok (.forward (slot v q) .kNone) := by
          unfold forwardToAdjacentNode
          simp [hside, hslot, hq]
        exact hR.hop _ _ q _ _ hp hq (hfind.trans hres) (by simp)
          (hnext q (half m) hq hhalf (hpred.below hm2 (hchild _ (by omega))).2)
  · exact hR.mono _ _ _ _ (by omega)
      (reaches_of_room hs hjoin hleave hR hp (by simpa using hfull))

omit hR in
theorem reaches_end {R : Pos → SearchProgress → Prop} (hR : PassedBack m P count v ri join R)
    (hp : (v p).isSome = true) : R p .kNone :=
  reaches_end_within hs hjoin hleave hR.within hp

end Search

/-! ### Complete trees -/

/-- On every level of the tree the numbers of parents are below 65536. -/
def SmallTree (m N : ℕ) : Prop := ∀ p, Complete m N p → Small m p.level

variable {m N P count : ℕ} {tree : RoutedTree m N} {p a a' : Pos} {progress : SearchProgress}
  {v : Pos → Option Address} {ri : RoutingInformation}

theorem SmallTree.fits (hm : isFanoutValid m = true) (h : SmallTree m N) (p : Pos)
    (hp : Complete m N p) : Fits m p.level := Small.fits hm (h p hp)

theorem SmallTree.of_le {L : ℕ} (hm : isFanoutValid m = true) (hN : N ≤ levelStart m (L + 1))
    (hL : Small m L) : SmallTree m N :=
  fun _ hp => hL.mono hm (hp.level_le hN)

theorem adjacentSlot_eq {address : Pos → Address} {o : Option Pos}
    (h : ∀ q, o = some q → Complete m N q) :
    adjacentSlot address o = o.elim .none (slot (treeView m N address)) := by
  cases o with
  | none => rfl
  | some q => exact (slot_treeView (h q rfl)).symm

/-- Correct routing information on small levels shows the tree. -/
theorem RoutedTree.showsEverywhere (hm : isFanoutValid m = true)
    (hN : N = levelStart m (P + 1) + count) (hcount : count ≤ m ^ (P + 1)) (tree : RoutedTree m N)
    (hsmall : SmallTree m N) : ShowsEverywhere m P count (treeView m N tree.address) tree.ri := by
  set v := treeView m N tree.address with hv
  have hview : ∀ p, Complete m N p → ∃ pred succ,
      IsPred m (Complete m N) p pred ∧ IsSucc m (Complete m N) p succ ∧
      tree.ri p = .ofView m p (tree.address p) v (pred.elim .none (slot v))
        (succ.elim .none (slot v)) := by
    intro p hp
    obtain ⟨pred, succ, hpred, hsucc, he⟩ := (tree.correct p hp).eq_ofView hm hp.1
      (Small.fits hm (hsmall p hp))
    refine ⟨pred, succ, hpred, hsucc, ?_⟩
    rw [he, adjacentSlot_eq (by rintro q rfl; exact hpred.1),
      adjacentSlot_eq (by rintro q rfl; exact hsucc.1)]
  have hE : (fun q => (v q).isSome = true) = Complete m N := by
    funext q; exact propext treeView_isSome
  have hadj : ∀ o : Option Pos, (∀ q, o = some q → Complete m N q) →
      ShownAdjacent v (o.elim .none (slot v)) := by
    intro o ho
    cases o with
    | none => exact Or.inl rfl
    | some q => exact Or.inr ⟨q, rfl, treeView_isSome.mpr (ho q rfl)⟩
  refine ⟨⟨hcount, fun q hq => ?_⟩, fun p hp => (treeView_isSome.mp hp).1, ?_, ?_, ?_⟩
  · rw [hv, treeView_isSome, hN, complete_iff hcount]
    constructor
    · rintro ⟨-, h | h⟩
      · exact Or.inl (by omega)
      · exact Or.inr h
    · rintro (h | h)
      · exact ⟨hq, Or.inl (by omega)⟩
      · exact ⟨hq, Or.inr h⟩
  · intro p hp
    have hp' := treeView_isSome.mp hp
    obtain ⟨pred, succ, hpred, hsucc, he⟩ := hview p hp'
    refine ⟨⟨hm, hp'.1, hsmall p hp', ?_, tree.address p, _, _, he⟩, ?_, ?_⟩
    · -- the level below is small if somebody is there
      by_cases hex : ∃ q : Pos, q.level = p.level + 1 ∧ Complete m N q
      · obtain ⟨q, hql, hq⟩ := hex
        exact Or.inl (hql ▸ hsmall q hq)
      · refine Or.inr fun q hql => treeView_of_not_complete fun hq => hex ⟨q, hql, hq⟩
    · rw [he]
      exact hadj pred (by rintro q rfl; exact hpred.1)
    · rw [he]
      exact hadj succ (by rintro q rfl; exact hsucc.1)
  · intro p hp
    obtain ⟨pred, succ, hpred, -, he⟩ := hview p (treeView_isSome.mp hp)
    exact ⟨pred, by rw [hE]; exact hpred, by rw [he]; rfl⟩
  · intro p hp
    obtain ⟨pred, succ, -, hsucc, he⟩ := hview p (treeView_isSome.mp hp)
    exact ⟨succ, by rw [hE]; exact hsucc, by rw [he]; rfl⟩

/-! ### Joins -/

/-- The run of a join request: the nodes hand it on until one accepts. -/
inductive JoinRun {m N : ℕ} (tree : RoutedTree m N) : Pos → SearchProgress → Pos → Prop
  | accept {p : Pos} {progress : SearchProgress} :
      (tree.ri p).processJoinDecision m progress = .ok .accept → JoinRun tree p progress p
  | hop {p q a : Pos} {progress progress' : SearchProgress} :
      (tree.ri p).processJoinDecision m progress =
        .ok (.forward (existingNode tree.address q) progress') →
      Complete m N q → JoinRun tree q progress' a → JoinRun tree p progress a

theorem JoinRun.unique (h : JoinRun tree p progress a) (h' : JoinRun tree p progress a') :
    a = a' := by
  induction h with
  | accept hacc =>
    cases h' with
    | accept _ => rfl
    | hop hfwd _ _ => rw [hacc] at hfwd; simp at hfwd
  | hop hfwd _ _ ih =>
    cases h' with
    | accept hacc => rw [hfwd] at hacc; simp at hacc
    | hop hfwd' _ hrest =>
      rw [hfwd] at hfwd'
      injection Except.ok.inj hfwd' with hnode hprog
      have hq := Option.some.inj (congrArg NodeInfo.logical hnode)
      subst hq
      subst hprog
      exact ih hrest

/-- The first free child of the parent of the end is the first free position. -/
theorem calcNewChildPosition_end {n : ℕ} (ht : ShowsTree m P count v) (h : Shows m v ⟨P, n⟩ ri)
    (hn : n = count / m) (hroom : count < m ^ (P + 1)) :
    ri.calcNewChildPosition m = some ⟨P + 1, count⟩ := by
  have hm2 := h.two_le
  have hmod : count % m < m := Nat.mod_lt _ (by omega)
  have hsum : n * m + count % m = count := by
    rw [hn, Nat.mul_comm]; exact Nat.div_add_mod _ _
  have hfind : ri.children.findIdx? (fun child => !child.isInitialized) = some (count % m) := by
    rw [h.children, findIdx?_eq_some_iff_getElem]
    refine ⟨by simpa [childPositions] using hmod, ?_, fun j hj => ?_⟩
    · have hfree : ¬ (v ((⟨P, n⟩ : Pos).child m (count % m))).isSome = true := by
        intro hsome
        have := (ht.child_isSome_iff h hmod).mp hsome
        omega
      simpa [childPositions] using hfree
    · have htaken : (v ((⟨P, n⟩ : Pos).child m j)).isSome = true :=
        (ht.child_isSome_iff h (lt_trans hj hmod)).mpr (by omega)
      simpa [childPositions, Option.isSome_iff_ne_none] using htaken
  have hlt : count < 2 ^ 32 := lt_of_lt_of_le hroom h.fits
  unfold calcNewChildPosition
  rw [hfind, Option.map_some, h.self_level, h.self_number]
  show some (⟨P + 1, u32 (u32 (n * m) + count % m)⟩ : Pos) = _
  rw [u32, u32, Nat.mod_eq_of_lt (by omega : n * m < 2 ^ 32), hsum, Nat.mod_eq_of_lt hlt]

/-- A join request that starts at any node of a complete tree is accepted by
the parent of the first free position, and by no other node, and the child
gets that position. -/
theorem join_reaches_first_free {m N : ℕ} (hm : isFanoutValid m = true) (hN : 0 < N)
    (tree : RoutedTree m N) (hsmall : SmallTree m N) {p : Pos} (hp : Complete m N p) :
    ∃ next : Pos, next.Valid m ∧ next.index m = N ∧
      JoinRun tree p .kNone (next.parent m) ∧
      (∀ a, JoinRun tree p .kNone a → a = next.parent m) ∧
      (tree.ri (next.parent m)).calcNewChildPosition m = some next := by
  have hm2 := (isFanoutValid_iff.mp hm).1
  obtain ⟨F, count, hcount, hshape⟩ := exists_shape (by omega : 0 < m) N
  obtain ⟨P, rfl⟩ : ∃ P, F = P + 1 := by
    cases F with
    | zero => simp [levelStart] at hshape hcount; omega
    | succ P => exact ⟨P, rfl⟩
  have hs := tree.showsEverywhere hm hshape hcount.le hsmall
  have hmem : ∀ q, (treeView m N tree.address q).isSome = true ↔ Complete m N q :=
    fun q => treeView_isSome
  have hlt : count / m < m ^ P := by
    rw [pow_succ'] at hcount
    exact Nat.div_lt_of_lt_mul hcount
  have hparent : (⟨P + 1, count⟩ : Pos).parent m = ⟨P, endParent m count true⟩ := rfl
  have hcomplete : Complete m N ⟨P, count / m⟩ := by
    rw [hshape, complete_iff hcount.le]
    exact ⟨hlt, Or.inl (Nat.lt_succ_self P)⟩
  have hrun : JoinRun tree p .kNone ⟨P, endParent m count true⟩ := by
    refine reaches_end hs (fun _ => hcount) (by simp)
      (R := fun q progress => JoinRun tree q progress ⟨P, endParent m count true⟩)
      ⟨fun progress h => .accept h, fun a b progress progress' ha hb h _ hrest => ?_⟩
      ((hmem p).mpr hp)
    rw [slot_treeView ((hmem b).mp hb)] at h
    exact .hop h ((hmem b).mp hb) hrest
  refine ⟨⟨P + 1, count⟩, hcount, hshape.symm, ?_, fun a ha => ?_, ?_⟩
  · rw [hparent]; exact hrun
  · rw [hparent]; exact ha.unique hrun
  · exact calcNewChildPosition_end hs.tree (hs.shows _ ((hmem _).mpr hcomplete)) rfl hcount

theorem join_reaches_first_free_fourNodes :
    ∃ tree : RoutedTree 2 4, ∃ next : Pos, next.Valid 2 ∧ next.index 2 = 4 ∧
      JoinRun tree ⟨0, 0⟩ .kNone (next.parent 2) ∧
      (∀ a, JoinRun tree ⟨0, 0⟩ .kNone a → a = next.parent 2) ∧
      (tree.ri (next.parent 2)).calcNewChildPosition 2 = some next := by
  have hm : isFanoutValid 2 = true := by decide
  obtain ⟨tree⟩ : Nonempty (RoutedTree 2 4) := nonempty_routedTree (L := 2) hm (by decide)
    (by unfold Fits; decide)
  exact ⟨tree, join_reaches_first_free hm (by decide) tree
    (.of_le (L := 2) hm (by decide) (by unfold Small; decide)) (by decide)⟩

/-- On a level whose parents have numbers from 65536 on, the children of
neighbors are sorted by truncated parent numbers: `17:98304` takes `18:65537`
for the last child to its left and accepts a child. -/
theorem accept_truncated (tree : RoutedTree 2 327681) :
    (tree.ri ⟨17, 98304⟩).processJoinDecision 2 .kNone = .ok .accept ∧
      (tree.ri ⟨17, 98304⟩).calcNewChildPosition 2 = some ⟨18, 196608⟩ := by
  have hm : isFanoutValid 2 = true := by decide
  have hp : Complete 2 327681 ⟨17, 98304⟩ := by decide
  obtain ⟨pred, succ, -, -, hri⟩ := (tree.correct _ hp).eq_ofView hm hp.1
    (by unfold Fits; decide)
  set v := treeView 2 327681 tree.address
  have hfree : ∀ q : Pos, ¬ Complete 2 327681 q → (slot v q).isInitialized = false :=
    fun q hq => by simp [v, treeView_of_not_complete hq]
  have htaken : (slot v ⟨18, 65537⟩).isInitialized = true := by
    simp [v, treeView_of_complete (show Complete 2 327681 ⟨18, 65537⟩ by decide)]
  have hchildren : (tree.ri ⟨17, 98304⟩).children =
      [slot v ⟨18, 196608⟩, slot v ⟨18, 196609⟩] := by
    rw [hri]; rfl
  have hfull : (tree.ri ⟨17, 98304⟩).areChildrenFull = false := by
    simp [areChildrenFull, hchildren,
      hfree ⟨18, 196608⟩ (by decide)]
  have hlast : ((tree.ri ⟨17, 98304⟩).leftNeighborChildren 2).getLast? =
      some (slot v ⟨18, 65537⟩) := by
    rw [hri, leftNeighborChildren_eq_map, getLast?_map,
      show getLast? _ = some (⟨18, 65537⟩ : Pos) by decide +kernel]
    rfl
  have hne : (tree.ri ⟨17, 98304⟩).leftNeighborChildren 2 ≠ [] := by
    intro hnil
    simp [hnil] at hlast
  have hparent : (tree.ri ⟨17, 98304⟩).isCorrectParent 2 true = true := by
    simp [isCorrectParent, ownCriteria, hfull, hne,
      getLastD_eq_getLast?, hlast, htaken]
  have hvalid : ((tree.ri ⟨17, 98304⟩).leftmostNeighborChild 2).isValidPeer = true := by
    unfold leftmostNeighborChild
    rw [headD_eq_head?_getD, hri, leftNeighborChildren_eq_map,
      head?_map, show head? _ = some (⟨18, 131072⟩ : Pos) by decide +kernel]
    rfl
  have haccept : (tree.ri ⟨17, 98304⟩).processJoinDecision 2 .kNone = .ok .accept := by
    simp [processJoinDecision, findEnd, hfull,
      decideNextStep, hvalid, hparent]
  refine ⟨haccept, ?_⟩
  unfold calcNewChildPosition
  rw [hchildren, findIdx?_cons, hfree ⟨18, 196608⟩ (by decide), hri]
  simp [ofView, u32]

/-- The first free position is `18:65538`, but `17:98304` accepts a child. -/
theorem join_accepted_elsewhere : Nonempty (RoutedTree 2 327681) ∧
    ∀ tree : RoutedTree 2 327681, Complete 2 327681 ⟨17, 98304⟩ ∧
      JoinRun tree ⟨17, 98304⟩ .kNone ⟨17, 98304⟩ ∧
      (tree.ri ⟨17, 98304⟩).calcNewChildPosition 2 = some ⟨18, 196608⟩ ∧
      (⟨18, 65538⟩ : Pos).Valid 2 ∧ (⟨18, 65538⟩ : Pos).index 2 = 327681 := by
  have hm : isFanoutValid 2 = true := by decide
  refine ⟨nonempty_routedTree (L := 18) hm (by decide) (by unfold Fits; decide),
    fun tree => ?_⟩
  obtain ⟨haccept, hchild⟩ := accept_truncated tree
  exact ⟨by decide, .accept haccept, hchild, by decide, by decide⟩

/-! ### Find-replacement requests -/

/-- The run of a find-replacement request that arrives at a node from
`sender`, until it is there as a request to the replacement node. -/
inductive FindReplacementRun {m N : ℕ} (tree : RoutedTree m N) :
    NodeInfo → Pos → SearchProgress → Pos → Prop
  | arrived {sender : NodeInfo} {p : Pos} :
      FindReplacementRun tree sender p .kReplacementNode p
  | hop {sender : NodeInfo} {p q a : Pos} {progress progress' : SearchProgress} :
      progress ≠ .kReplacementNode →
      (tree.ri p).processFindReplacementDecision m sender progress =
        .ok (.forward (existingNode tree.address q) progress') →
      Complete m N q →
      FindReplacementRun tree (tree.ri p).selfNodeInfo q progress' a →
      FindReplacementRun tree sender p progress a

theorem FindReplacementRun.unique {sender : NodeInfo}
    (h : FindReplacementRun tree sender p progress a)
    (h' : FindReplacementRun tree sender p progress a') : a = a' := by
  induction h with
  | arrived =>
    cases h' with
    | arrived => rfl
    | hop hne _ _ _ => exact absurd rfl hne
  | hop hne hfwd _ _ ih =>
    cases h' with
    | arrived => exact absurd rfl hne
    | hop _ hfwd' _ hrest =>
      rw [hfwd] at hfwd'
      injection Except.ok.inj hfwd' with hnode hprog
      have hq := Option.some.inj (congrArg NodeInfo.logical hnode)
      subst hq
      subst hprog
      exact ih hrest

/-- The last child of the parent of the end is the last node. -/
theorem lastChild_end {n : ℕ} (ht : ShowsTree m P count v) (h : Shows m v ⟨P, n⟩ ri)
    (hcount : 0 < count) (hn : n = (count - 1) / m) :
    ri.initializedChildren.getLastD .none = slot v ⟨P + 1, count - 1⟩ := by
  have hm2 := h.two_le
  have hmod : (count - 1) % m < m := Nat.mod_lt _ (by omega)
  have hsum : n * m + (count - 1) % m = count - 1 := by
    rw [hn, Nat.mul_comm]; exact Nat.div_add_mod _ _
  have hfilter : ri.initializedChildren =
      ((range m).filter fun c => n * m + c < count).map
        fun c => slot v ⟨P + 1, n * m + c⟩ := by
    rw [h.initializedChildren, childPositions, filter_map, map_map]
    congr 1
    refine filter_congr fun c hc => ?_
    rw [Bool.eq_iff_iff, decide_eq_true_iff]
    exact ht.child_isSome_iff h (mem_range.mp hc)
  have hlast : ((range m).filter fun c => n * m + c < count).getLast? =
      some ((count - 1) % m) := by
    refine getLast?_of_ge (pairwise_lt_range.filter _) ?_ fun c hc => ?_
    · simp only [mem_filter, mem_range, decide_eq_true_iff]
      omega
    · simp only [mem_filter, mem_range, decide_eq_true_iff] at hc
      omega
  rw [hfilter, getLastD_eq_getLast?, getLast?_map, hlast]
  simp [hsum]

/-- A search to the right that is not beyond the parent of the end does not
turn round. -/
theorem findReplacementProgress_eq (ht : ShowsTree m P count v) (h : Shows m v p ri)
    (hcount : 0 < count) (sender : NodeInfo)
    (hp : progress = .kSearchRight → p.level = P ∧ p.number ≤ endParent m count false) :
    ri.findReplacementProgress sender progress = progress := by
  by_cases hright : progress = .kSearchRight
  · obtain ⟨l, n⟩ := p
    obtain ⟨rfl, hn⟩ : l = P ∧ n ≤ (count - 1) / m := hp hright
    have hm2 := h.two_le
    have hle : n * m ≤ count - 1 :=
      le_trans (Nat.mul_le_mul_right m hn) (Nat.div_mul_le_self _ _)
    have hfirst : (ri.children.headD .none).isInitialized = true := by
      obtain ⟨k, rfl⟩ : ∃ k, m = k + 1 := ⟨m - 1, by omega⟩
      rw [h.children, childPositions, range_succ_eq_map]
      exact (ht.child_isSome_iff h (by omega : 0 < k + 1)).mpr (by omega)
    unfold findReplacementProgress
    rw [if_neg]
    rintro ⟨-, -, hnone, -⟩
    rw [hfirst] at hnone
    exact absurd hnone (by decide)
  · unfold findReplacementProgress
    rw [if_neg (by simp [hright])]

theorem processFindReplacementDecision_eq (ht : ShowsTree m P count v) (h : Shows m v p ri)
    (hcount : 0 < count) (sender : NodeInfo)
    (hp : progress = .kSearchRight → p.level = P ∧ p.number ≤ endParent m count false) :
    ri.processFindReplacementDecision m sender progress =
      (ri.findEnd m false progress).map ri.forwardToLastChild := by
  unfold processFindReplacementDecision
  rw [findReplacementProgress_eq ht h hcount sender hp]
  cases ri.findEnd m false progress <;> rfl

/-- `performFindReplacement()` at `p` leads to a request to the replacement
node at `a`. -/
def FindReplacementFrom {m N : ℕ} (tree : RoutedTree m N) (p a : Pos) : Prop :=
  ∃ q progress,
    (tree.ri p).performFindReplacement m =
      .ok (.forward (existingNode tree.address q) progress) ∧
    Complete m N q ∧ FindReplacementRun tree (tree.ri p).selfNodeInfo q progress a

theorem FindReplacementFrom.unique (h : FindReplacementFrom tree p a)
    (h' : FindReplacementFrom tree p a') : a = a' := by
  obtain ⟨q, progress, hfwd, -, hrun⟩ := h
  obtain ⟨q', progress', hfwd', -, hrun'⟩ := h'
  rw [hfwd] at hfwd'
  injection Except.ok.inj hfwd' with hnode hprog
  have hq := Option.some.inj (congrArg NodeInfo.logical hnode)
  subst hq
  subst hprog
  exact hrun.unique hrun'

/-- A request for a replacement that starts at any node of a complete tree
ends at the last node. -/
theorem findReplacement_reaches_last {m N : ℕ} (hm : isFanoutValid m = true) (hN : 2 ≤ N)
    (tree : RoutedTree m N) (hsmall : SmallTree m N) {p : Pos} (hp : Complete m N p) :
    ∃ last : Pos, last.Valid m ∧ last.index m + 1 = N ∧ FindReplacementFrom tree p last ∧
      ∀ a, FindReplacementFrom tree p a → a = last := by
  have hm2 := (isFanoutValid_iff.mp hm).1
  obtain ⟨P, count, hpos, hcount, hshape⟩ := exists_shape_last (by omega : 0 < m) hN
  have hs := tree.showsEverywhere hm hshape hcount hsmall
  have hmem : ∀ q, (treeView m N tree.address q).isSome = true ↔ Complete m N q :=
    fun q => treeView_isSome
  have hend : endParent m count false < m ^ P :=
    endParent_lt hs.tree (by simp) fun _ => hpos
  have hparent : Complete m N ⟨P, endParent m count false⟩ := by
    rw [hshape, complete_iff hcount]
    exact ⟨hend, Or.inl (Nat.lt_succ_self P)⟩
  have hlast : Complete m N ⟨P + 1, count - 1⟩ := by
    rw [hshape, complete_iff hcount]
    exact ⟨show count - 1 < m ^ (P + 1) by omega, Or.inr ⟨rfl, by dsimp only; omega⟩⟩
  have hdecision : ∀ (q : Pos) (sender : NodeInfo) (progress : SearchProgress),
      Complete m N q →
      (progress = .kSearchRight → q.level = P ∧ q.number ≤ endParent m count false) →
      (tree.ri q).processFindReplacementDecision m sender progress =
        ((tree.ri q).findEnd m false progress).map (tree.ri q).forwardToLastChild :=
    fun q sender _ hq hright => processFindReplacementDecision_eq hs.tree
      (hs.shows q ((hmem q).mpr hq)) hpos sender hright
  have hback : PassedBack m P count (treeView m N tree.address) tree.ri false
      fun q progress => ∀ sender,
        (progress = .kSearchRight → q.level = P ∧ q.number ≤ endParent m count false) →
        FindReplacementRun tree sender q progress ⟨P + 1, count - 1⟩ := by
    refine ⟨fun progress h sender hright => ?_, fun a b progress progress' ha hb h hright hrest
      sender hright' => ?_⟩
    · refine .hop (q := ⟨P + 1, count - 1⟩) ?_ ?_ hlast
        .arrived
      · rintro rfl; simp [findEnd] at h
      · rw [hdecision _ _ _ hparent hright, h, ← slot_treeView hlast,
          ← lastChild_end hs.tree (hs.shows _ ((hmem _).mpr hparent)) hpos rfl]
        rfl
    · refine .hop (q := b) ?_ ?_ ((hmem b).mp hb)
        (hrest _ hright)
      · rintro rfl; simp [findEnd] at h
      · rw [hdecision _ _ _ ((hmem a).mp ha) hright', h, slot_treeView ((hmem b).mp hb)]
        rfl
  have hfrom : FindReplacementFrom tree p ⟨P + 1, count - 1⟩ := by
    cases reaches_end hs (by simp) (fun _ => hpos) hback ((hmem p).mpr hp) .none (by simp) with
    | hop _ hfwd hq hrest =>
      refine ⟨_, _, ?_, hq, hrest⟩
      rw [← hfwd, hdecision p _ _ hp (by simp)]
      unfold performFindReplacement
      cases (tree.ri p).findEnd m false .kNone <;> rfl
  refine ⟨⟨P + 1, count - 1⟩, hlast.1, ?_, hfrom, fun a ha => ha.unique hfrom⟩
  show levelStart m (P + 1) + (count - 1) + 1 = N
  omega

theorem findReplacement_reaches_last_fourNodes :
    ∃ tree : RoutedTree 2 4, ∃ last : Pos, last.Valid 2 ∧ last.index 2 + 1 = 4 ∧
      FindReplacementFrom tree ⟨0, 0⟩ last ∧
      ∀ a, FindReplacementFrom tree ⟨0, 0⟩ a → a = last := by
  have hm : isFanoutValid 2 = true := by decide
  obtain ⟨tree⟩ : Nonempty (RoutedTree 2 4) := nonempty_routedTree (L := 2) hm (by decide)
    (by unfold Fits; decide)
  exact ⟨tree, findReplacement_reaches_last hm (by decide) tree
    (.of_le (L := 2) hm (by decide) (by unfold Small; decide)) (by decide)⟩

/-- With truncated parent numbers the children of `17:65536` come first among
those to the right of `17:0`, which therefore believes to be the parent of the
last node: the request ends at `18:1` while the last node is `18:2`. -/
theorem findReplacement_ends_elsewhere : Nonempty (RoutedTree 2 262146) ∧
    ∀ tree : RoutedTree 2 262146, Complete 2 262146 ⟨18, 0⟩ ∧
      FindReplacementFrom tree ⟨18, 0⟩ ⟨18, 1⟩ ∧
      (⟨18, 2⟩ : Pos).Valid 2 ∧ (⟨18, 2⟩ : Pos).index 2 + 1 = 262146 := by
  have hm : isFanoutValid 2 = true := by decide
  refine ⟨nonempty_routedTree (L := 18) hm (by decide) (by unfold Fits; decide),
    fun tree => ?_⟩
  have hstart : Complete 2 262146 ⟨18, 0⟩ := by decide
  have hparent : Complete 2 262146 ⟨17, 0⟩ := by decide
  obtain ⟨_, _, -, -, hri⟩ := (tree.correct _ hstart).eq_ofView hm hstart.1
    (by unfold Fits; decide)
  obtain ⟨_, _, -, -, hri'⟩ := (tree.correct _ hparent).eq_ofView hm hparent.1
    (by unfold Fits; decide)
  set v := treeView 2 262146 tree.address
  have hfree : ∀ q : Pos, ¬ Complete 2 262146 q → (slot v q).isInitialized = false :=
    fun q hq => by simp [v, treeView_of_not_complete hq]
  have htaken : ∀ q : Pos, Complete 2 262146 q → (slot v q).isInitialized = true :=
    fun q hq => by simp [v, treeView_of_complete hq]
  -- the leaving node sends the request to its parent
  have hfirst : (tree.ri ⟨18, 0⟩).performFindReplacement 2 =
      .ok (.forward (existingNode tree.address ⟨17, 0⟩) .kSearchRight) := by
    have hfull : (tree.ri ⟨18, 0⟩).areChildrenFull = false := by
      rw [areChildrenFull, show (tree.ri ⟨18, 0⟩).children =
        [slot v ⟨19, 0⟩, slot v ⟨19, 1⟩] by rw [hri]; rfl]
      simp [hfree ⟨19, 0⟩ (by decide)]
    have hnone : (tree.ri ⟨18, 0⟩).leftmostNeighborChild 2 = .none := by
      rw [hri]; rfl
    have hrightmost : (tree.ri ⟨18, 0⟩).rightmostNeighbor = slot v ⟨18, 65536⟩ := by
      unfold rightmostNeighbor
      rw [getLastD_eq_getLast?, hri, rightNeighbors_eq_map,
        getLast?_map, show getLast? _ = some (⟨18, 65536⟩ : Pos) by decide +kernel]
      rfl
    have hup : (tree.ri ⟨18, 0⟩).parent = existingNode tree.address ⟨17, 0⟩ := by
      rw [hri, ← slot_treeView hparent]; rfl
    have hend : (tree.ri ⟨18, 0⟩).findEnd 2 false .kNone =
        .ok (.forward (existingNode tree.address ⟨17, 0⟩) .kSearchRight) := by
      simp only [findEnd, hfull, decideNextStep, hnone,
        decideFromRight, hrightmost, hup, hfree ⟨18, 65536⟩ (by decide)]
      rfl
    unfold performFindReplacement
    rw [hend]
    rfl
  -- which takes itself for the parent of the last node
  have hsecond : (tree.ri ⟨17, 0⟩).processFindReplacementDecision 2
      (tree.ri ⟨18, 0⟩).selfNodeInfo .kSearchRight =
        .ok (.forward (existingNode tree.address ⟨18, 1⟩) .kReplacementNode) := by
    have hprogress : (tree.ri ⟨17, 0⟩).findReplacementProgress
        (tree.ri ⟨18, 0⟩).selfNodeInfo .kSearchRight = .kSearchRight := by
      unfold findReplacementProgress
      rw [if_neg (by rw [hri, hri']; simp [ofView])]
    have hchildren : (tree.ri ⟨17, 0⟩).initializedChildren =
        [slot v ⟨18, 0⟩, slot v ⟨18, 1⟩] := by
      rw [initializedChildren, show (tree.ri ⟨17, 0⟩).children =
        [slot v ⟨18, 0⟩, slot v ⟨18, 1⟩] by rw [hri']; rfl]
      simp only [filter_cons, htaken ⟨18, 0⟩ (by decide), htaken ⟨18, 1⟩ (by decide),
        filter_nil, if_true]
    have hempty : (tree.ri ⟨17, 0⟩).leftNeighbors = [] := by
      rw [hri']; rfl
    have hright : ((tree.ri ⟨17, 0⟩).rightNeighborChildren 2).headD .none =
        slot v ⟨18, 131072⟩ := by
      rw [headD_eq_head?_getD, hri', rightNeighborChildren_eq_map,
        head?_map, show head? _ = some (⟨18, 131072⟩ : Pos) by decide +kernel]
      rfl
    have hcorrect : (tree.ri ⟨17, 0⟩).isCorrectParent 2 false = true := by
      simp only [isCorrectParent, hempty, ownCriteria,
        hchildren, hright, hfree ⟨18, 131072⟩ (by decide)]
      simp
    unfold processFindReplacementDecision
    rw [hprogress, findEnd, if_pos hcorrect]
    simp only [bind, Except.bind, pure, Except.pure, forwardToLastChild,
      hchildren]
    rw [← slot_treeView (show Complete 2 262146 ⟨18, 1⟩ by decide)]
    rfl
  exact ⟨hstart, ⟨_, _, hfirst, hparent, .hop (by decide) hsecond (by decide) .arrived⟩,
    by decide, by decide⟩

end Sola.Minhton
