import Sola.Minhton.CorrectRouting
import Sola.Minhton.DsnCoverage
import Sola.Minhton.TemporaryDsn

/-!
The DSN that covers a position (`getCoveringDSN` in
`minhton/src/core/routing_calculations.cpp` and `getCoveringDSNOrTempDSN` in
`routing_information_general_helper.cpp`).

The search for the nearest DSN is meant to invert the cover areas.  It does so
up to the last DSN of a level; behind that one the iterator of the search is
read at the end of the vector.
-/

namespace Sola.Minhton

open Sola.Lib Sola.Lib.MaryTree Sola.Lib.Distances List Except
open RoutingInformation

/-! ### The nearest DSN -/

/-- A search for the first element that is not below `x` splits a list. -/
theorem exists_split_map (f : ℕ → ℕ) (x : ℕ) (n start : ℕ) :
    ∃ k ≤ n, ((range' start n).map f).takeWhile (· < x) = (range' start k).map f ∧
      ((range' start n).map f).dropWhile (· < x) =
        (range' (start + k) (n - k)).map f ∧
      (∀ i < k, f (start + i) < x) ∧ (k < n → x ≤ f (start + k)) := by
  induction n generalizing start with
  | zero => exact ⟨0, le_rfl, rfl, rfl, by simp, by simp⟩
  | succ n ih =>
    rw [range'_succ, map_cons]
    by_cases hlt : f start < x
    · obtain ⟨k, hk, htake, hdrop, hbelow, habove⟩ := ih (start + 1)
      refine ⟨k + 1, by omega, ?_, ?_, fun i hi => ?_, fun hkn => ?_⟩
      · rw [takeWhile_cons_of_pos (by simpa using hlt), htake, range'_succ,
          map_cons]
      · rw [dropWhile_cons_of_pos (by simpa using hlt), hdrop,
          show start + 1 + k = start + (k + 1) by omega, show n - k = n + 1 - (k + 1) by omega]
      · cases i with
        | zero => exact hlt
        | succ i =>
          have hi' := hbelow i (by omega)
          rwa [show start + 1 + i = start + (i + 1) by omega] at hi'
      · have hx := habove (by omega)
        rwa [show start + 1 + k = start + (k + 1) by omega] at hx
    · refine ⟨0, by omega, ?_, ?_, by simp, fun _ => by simpa using hlt⟩
      · rw [takeWhile_cons_of_neg (by simpa using hlt)]
        rfl
      · rw [dropWhile_cons_of_neg (by simpa using hlt)]
        rfl

/-- The number of the last DSN of a level. -/
def lastDsn (m L : ℕ) : ℕ := dsnNumber m L (dsnCount m L - 1)

/-- The position on the level of DSNs that decides who covers `p`. -/
def coveringPos (m : ℕ) (p : Pos) : Pos := if p.level % 2 = 0 then p else p.parent m

section Nearest

variable {m L : ℕ} (hm : isFanoutValid m = true)
include hm

theorem dsnNumber_le_lastDsn {i : ℕ} (hi : i < dsnCount m L) :
    dsnNumber m L i ≤ lastDsn m L :=
  dsnNumber_le hm (by omega) (by omega)

/-- What the search for `x` on a level finds, up to the last DSN. -/
theorem nearest_dsn {x : ℕ} (hpos : 0 < dsnCount m L) (hx : x ≤ lastDsn m L) :
    ∃ i < dsnCount m L, (coverLow m L i ≤ x ∧ x ≤ coverHigh m L i) ∧
      (match (dsnNumbers m L).takeWhile (· < x), (dsnNumbers m L).dropWhile (· < x) with
        | _, [] => (.error "read behind the last element" : Except String Pos)
        | [], lower :: _ => return ⟨L, lower⟩
        | before :: more, lower :: _ =>
          let prior := (before :: more).getLastD 0
          if lower = x then return ⟨L, lower⟩
          else if lower - x < x - prior then return ⟨L, lower⟩
          else return ⟨L, prior⟩) = .ok ⟨L, dsnNumber m L i⟩ := by
  obtain ⟨k, hk, htake, hdrop, hbelow, habove⟩ :=
    exists_split_map (dsnNumber m L) x (dsnCount m L) 0
  rw [← range_eq_range'] at htake hdrop
  have hkn : k < dsnCount m L := by
    by_contra hge
    have hlast := hbelow (dsnCount m L - 1) (by omega)
    rw [Nat.zero_add] at hlast
    exact absurd hx (by rw [lastDsn]; omega)
  have hx' : x ≤ dsnNumber m L k := by simpa using habove hkn
  rw [dsnNumbers, htake, hdrop, Nat.zero_add,
    show dsnCount m L - k = dsnCount m L - k - 1 + 1 by omega, range'_succ, map_cons]
  cases k with
  | zero =>
    refine ⟨0, hkn, ⟨by simp [coverLow], hx'.trans (le_coverHigh hm 0)⟩, rfl⟩
  | succ k =>
    have hprior : dsnNumber m L k < x := by simpa using hbelow k (by omega)
    obtain ⟨g, hg, hgap⟩ := dsnNumber_succ hm hkn
    have hlast : ((range' 0 (k + 1)).map (dsnNumber m L)).getLastD 0 =
        dsnNumber m L k := by
      rw [range'_concat]
      simp
    have hcons : ∃ before more, (range' 0 (k + 1)).map (dsnNumber m L) =
        before :: more := by
      rw [range'_succ]
      exact ⟨_, _, rfl⟩
    obtain ⟨before, more, hbefore⟩ := hcons
    rw [hbefore] at hlast ⊢
    simp only [hlast]
    by_cases heq : dsnNumber m L (k + 1) = x
    · refine ⟨k + 1, hkn, ?_, by rw [if_pos heq]; rfl⟩
      exact ⟨heq ▸ coverLow_le hm hkn, heq ▸ le_coverHigh hm (k + 1)⟩
    · rw [if_neg heq]
      by_cases hnear : dsnNumber m L (k + 1) - x < x - dsnNumber m L k
      · refine ⟨k + 1, hkn, ⟨?_, hx'.trans (le_coverHigh hm (k + 1))⟩, by rw [if_pos hnear]; rfl⟩
        rw [coverLow, if_neg (by omega), Nat.add_sub_cancel]
        omega
      · refine ⟨k, by omega, ⟨(coverLow_le hm (by omega)).trans hprior.le, ?_⟩,
          by rw [if_neg hnear]; rfl⟩
        rw [coverHigh, if_neg (by omega)]
        omega

variable {p : Pos} (hp : p.Valid m)
include hp

theorem coveringLevel_eq (hbound : m ^ p.level ≤ 2 ^ 31) :
    coveringLevel m p =
      .ok (dsnNumbers m (coveringPos m p).level, coveringPos m p) := by
  have hm2 := isFanoutValid_iff.mp hm
  rw [coveringLevel, coveringPos]
  by_cases heven : p.level % 2 = 0
  · rw [if_pos heven, if_pos heven, getDSNSet_eq_of_le hm (by omega)]
    rfl
  · have hle : m ^ (p.level - 1) ≤ m ^ p.level :=
      Nat.pow_le_pow_right (by omega) (Nat.sub_le _ _)
    rw [if_neg heven, if_neg heven, getDSNSet_eq_of_le hm (by omega),
      calcParent_eq hm hp (by omega)]
    rfl

omit hm hp in
/-- The level of a position that decides who covers another one is even. -/
theorem coveringPos_level_even : (coveringPos m p).level % 2 = 0 := by
  rw [coveringPos]
  split_ifs with heven
  · exact heven
  · show (p.level - 1) % 2 = 0
    omega

omit hm hp in
theorem level_eq_coveringPos :
    p.level = (coveringPos m p).level ∨ p.level = (coveringPos m p).level + 1 := by
  rw [coveringPos]
  split_ifs with heven
  · exact Or.inl rfl
  · exact Or.inr (by show p.level = p.level - 1 + 1; omega)

omit hm hp in
theorem coveringPos_level_le : (coveringPos m p).level ≤ p.level := by
  rw [coveringPos]
  split_ifs
  · exact le_rfl
  · exact Nat.sub_le _ _

theorem getCoveringDSN_of_le (hbound : m ^ p.level ≤ 2 ^ 31)
    (hx : (coveringPos m p).number ≤ lastDsn m (coveringPos m p).level) :
    ∃ i < dsnCount m (coveringPos m p).level,
      (coverLow m (coveringPos m p).level i ≤ (coveringPos m p).number ∧
        (coveringPos m p).number ≤ coverHigh m (coveringPos m p).level i) ∧
      getCoveringDSN m p =
        .ok ⟨(coveringPos m p).level, dsnNumber m (coveringPos m p).level i⟩ := by
  have hpos := dsnCount_pos (isFanoutValid_iff.mp hm).1 (coveringPos_level_even (m := m) (p := p))
  obtain ⟨i, hi, hin, hrun⟩ := nearest_dsn hm hpos hx
  refine ⟨i, hi, hin, ?_⟩
  rw [getCoveringDSN, coveringLevel_eq hm hp hbound]
  exact hrun

theorem getCoveringDSN_of_lt (hbound : m ^ p.level ≤ 2 ^ 31)
    (hx : lastDsn m (coveringPos m p).level < (coveringPos m p).number) :
    getCoveringDSN m p = .error "read behind the last element" := by
  have hnil : (dsnNumbers m (coveringPos m p).level).dropWhile (· < (coveringPos m p).number) =
      [] := by
    rw [dropWhile_eq_nil_iff]
    intro d hd
    obtain ⟨i, hi, rfl⟩ := mem_dsnNumbers.mp hd
    simpa using lt_of_le_of_lt (dsnNumber_le_lastDsn hm hi) hx
  rw [getCoveringDSN, coveringLevel_eq hm hp hbound]
  simp only [bind, Except.bind, hnil]

end Nearest

/-! ### Cover areas near the end of the number range -/

/-- The numbers of the children of all that a DSN covers on its level are
not taken for wrapped ones. -/
def ChildrenFit (m L i : ℕ) : Prop :=
  ∀ n, coverLow m L i ≤ n → n ≤ coverHigh m L i → ∀ c < m, n ≤ (n * m + c) % 2 ^ 32

section ChildrenFit

variable {m L : ℕ} (hm : isFanoutValid m = true)
include hm

variable {p : Pos} {i : ℕ} {area : List Pos}

theorem calcChildren_ok_iff (hp : p.Valid m) (hbound : m ^ p.level ≤ 2 ^ 31) :
    (∃ children, calcChildren m p = .ok children) ↔
      ∀ c < m, p.number ≤ (p.number * m + c) % 2 ^ 32 := by
  have hm2 := isFanoutValid_iff.mp hm
  have hlevel : p.level ≠ 2 ^ 32 - 1 := by
    have h2 : 2 ^ p.level ≤ 2 ^ 31 := le_trans (Nat.pow_le_pow_left hm2.1 _) hbound
    have h31 := (Nat.pow_le_pow_iff_right (by omega)).mp h2
    omega
  rw [calcChildren, if_neg (by simp [(isPositionValid_iff hm).mpr hp]), if_neg hlevel,
    mapM_ok_iff]
  simp only [mem_range]
  refine forall₂_congr fun c hc => ?_
  have hnumber : u32 (u32 (p.number * m) + c) = (p.number * m + c) % 2 ^ 32 := by
    rw [u32, u32, Nat.mod_add_mod]
  simp only [calcChild, hnumber]
  by_cases hlt : (p.number * m + c) % 2 ^ 32 < p.number
  · rw [if_pos hlt]
    simpa using hlt
  · rw [if_neg hlt]
    simpa using hlt

theorem getCoverArea_eq_ok (h0 : L ≠ 0) (hbound : m ^ L + 2 * m ≤ 2 ^ 32) (hi : i < dsnCount m L) :
    getCoverArea m ⟨L, dsnNumber m L i⟩ = .ok area ↔
      ∃ covered, ((coveredNumbers m L i).map (Pos.mk L)).mapM (calcChildren m) = .ok covered ∧
        ∃ children, calcChildren m ⟨L, dsnNumber m L i⟩ = .ok children ∧
          (coveredNumbers m L i).map (Pos.mk L) ++ covered.flatten ++ children = area := by
  rw [getCoverArea, if_neg (by simp [h0]), getDSNSet_eq_of_le hm hbound, bind_eq_ok]
  simp only [ok.injEq, exists_eq_left', idxOf?_dsnNumbers hm hi, covered_eq hbound hi,
    bind_eq_ok, pure, Except.pure]

/-- The cover area of a DSN can be told if the children of all that it
covers can. -/
theorem getCoverArea_ok_iff (h0 : L ≠ 0) (hbound : m ^ L ≤ 2 ^ 31) (hi : i < dsnCount m L) :
    (∃ area, getCoverArea m ⟨L, dsnNumber m L i⟩ = .ok area) ↔ ChildrenFit m L i := by
  have hm2 := isFanoutValid_iff.mp hm
  have hchildren : ∀ n, n < m ^ L → ((∃ children, calcChildren m ⟨L, n⟩ = .ok children) ↔
      ∀ c < m, n ≤ (n * m + c) % 2 ^ 32) :=
    fun n hn => calcChildren_ok_iff hm (p := ⟨L, n⟩) hn hbound
  have hown := hchildren _ (dsnNumber_lt_pow hm i)
  have hcovered := mapM_ok_iff (f := calcChildren m) (l := (coveredNumbers m L i).map (Pos.mk L))
  simp only [getCoverArea_eq_ok hm h0 (by omega : m ^ L + 2 * m ≤ 2 ^ 32) hi]
  constructor
  · rintro ⟨area, covered, hc, children, ho, -⟩ n hlow hhigh
    rcases (mem_coveredNumbers hm hi).mpr ⟨hlow, hhigh⟩ with hn | rfl
    · refine (hchildren n (coveredNumbers_lt hm hi hn)).mp ?_
      exact hcovered.mp ⟨covered, hc⟩ _ (mem_map_of_mem hn)
    · exact hown.mp ⟨children, ho⟩
  · intro hfit
    have hin := fun n => (mem_coveredNumbers hm hi (n := n)).mp
    obtain ⟨children, ho⟩ := hown.mpr (hfit _ (hin _ (Or.inr rfl)).1 (hin _ (Or.inr rfl)).2)
    obtain ⟨covered, hc⟩ := hcovered.mpr (by
      intro q hq
      obtain ⟨n, hn, rfl⟩ := mem_map.mp hq
      obtain ⟨hlow, hhigh⟩ := hin n (Or.inl hn)
      exact (hchildren n (coveredNumbers_lt hm hi hn)).mpr (hfit n hlow hhigh))
    exact ⟨_, covered, hc, children, ho, rfl⟩

/-- Whenever the area can be told it has the covered positions of the level. -/
theorem mem_of_getCoverArea_ok (h0 : L ≠ 0) (hbound : m ^ L + 2 * m ≤ 2 ^ 32)
    (hi : i < dsnCount m L) (harea : getCoverArea m ⟨L, dsnNumber m L i⟩ = .ok area) {n : ℕ}
    (hn : n ∈ coveredNumbers m L i) : (⟨L, n⟩ : Pos) ∈ area := by
  obtain ⟨covered, -, children, -, rfl⟩ := (getCoverArea_eq_ok hm h0 hbound hi).mp harea
  exact mem_append_left _ (mem_append_left _ (mem_map_of_mem hn))

/-- On a level whose children have numbers below `2 ^ 32` nothing is taken
for wrapped. -/
theorem Fits.childrenFit (hfits : Fits m L) (hi : i < dsnCount m L) : ChildrenFit m L i := by
  intro n hlow hhigh c hc
  have hm2 := isFanoutValid_iff.mp hm
  have hn : n < m ^ L := by
    rcases (mem_coveredNumbers hm hi).mpr ⟨hlow, hhigh⟩ with hn | rfl
    · exact coveredNumbers_lt hm hi hn
    · exact dsnNumber_lt_pow hm i
  have hlt : n * m + c < m ^ (L + 1) := by
    calc n * m + c < n * m + m := by omega
      _ = (n + 1) * m := by ring
      _ ≤ m ^ L * m := Nat.mul_le_mul_right m hn
      _ = m ^ (L + 1) := (pow_succ m L).symm
  have hle : n ≤ n * m := Nat.le_mul_of_pos_right n (by omega)
  rw [Nat.mod_eq_of_lt (lt_of_lt_of_le hlt hfits)]
  omega

/-- A DSN covers the positions of its level in its interval and those below
them. -/
theorem mem_coverArea_iff_coveringPos (hL : L % 2 = 0) (hi : i < dsnCount m L)
    (hlevel : p.level = L ∨ p.level = L + 1) :
    p = ⟨L, dsnNumber m L i⟩ ∨ p ∈ coverArea m L i ↔
      coverLow m L i ≤ (coveringPos m p).number ∧
        (coveringPos m p).number ≤ coverHigh m L i := by
  rw [mem_coverArea hm hi, coveringPos]
  rcases hlevel with hl | hl
  · simp [hl, hL]
  · simp [hl, show (L + 1) % 2 ≠ 0 by omega, Pos.parent]

/-- Who is responsible for a position, where the level below has numbers
below `2 ^ 32`. -/
theorem covers_iff_of_fits (hL : L % 2 = 0) (hfits : Fits m L) (hi : i < dsnCount m L)
    (hlevel : p.level = L ∨ p.level = L + 1) :
    (p = ⟨L, dsnNumber m L i⟩ ∨
        ∃ area, getCoverArea m ⟨L, dsnNumber m L i⟩ = .ok area ∧ p ∈ area) ↔
      coverLow m L i ≤ (coveringPos m p).number ∧
        (coveringPos m p).number ≤ coverHigh m L i := by
  simp only [getCoverArea_eq hm hL hfits hi, ok.injEq, exists_eq_left']
  exact mem_coverArea_iff_coveringPos hm hL hi hlevel

/-- Only the children of an even level can make the area of the covering DSN
fail. -/
theorem covers_iff_childrenFit (hbound : m ^ p.level ≤ 2 ^ 31)
    (hi : i < dsnCount m (coveringPos m p).level)
    (hin : coverLow m (coveringPos m p).level i ≤ (coveringPos m p).number ∧
      (coveringPos m p).number ≤ coverHigh m (coveringPos m p).level i) :
    (p = ⟨(coveringPos m p).level, dsnNumber m (coveringPos m p).level i⟩ ∨
        ∃ area, getCoverArea m
          ⟨(coveringPos m p).level, dsnNumber m (coveringPos m p).level i⟩ = .ok area ∧
          p ∈ area) ↔
      (p = ⟨(coveringPos m p).level, dsnNumber m (coveringPos m p).level i⟩ ∨
        ChildrenFit m (coveringPos m p).level i) := by
  have hm2 := isFanoutValid_iff.mp hm
  by_cases hfits : Fits m (coveringPos m p).level
  · have hresp := covers_iff_of_fits hm coveringPos_level_even hfits hi level_eq_coveringPos
    exact iff_of_true (hresp.mpr hin) (Or.inr (Fits.childrenFit hm hfits hi))
  -- otherwise the position is on a deep even level itself
  have heven : p.level % 2 = 0 := by
    by_contra hodd
    refine hfits ?_
    rw [coveringPos, if_neg hodd, Fits, show (p.parent m).level = p.level - 1 from rfl,
      show p.level - 1 + 1 = p.level by omega]
    omega
  have hpos : coveringPos m p = p := if_pos heven
  rw [hpos] at hi hin hfits ⊢
  have h0 : p.level ≠ 0 := by
    intro h0
    refine hfits ?_
    rw [h0, Fits, Nat.zero_add, pow_one]
    omega
  refine or_congr_right' fun hne => ?_
  rw [← getCoverArea_ok_iff hm h0 hbound hi]
  refine exists_congr fun area => and_iff_left_of_imp fun harea => ?_
  have hn := ((mem_coveredNumbers hm hi).mpr hin).resolve_right fun h => hne (Pos.ext_iff'.mpr
    ⟨rfl, h⟩)
  exact mem_of_getCoverArea_ok hm h0 (by omega) hi harea hn

end ChildrenFit

/-- The search finds the DSN that covers a position, unless the position is
behind the last DSN of the level, where the element after the last one is
read, or the numbers of the children make the cover area fail. -/
theorem getCoveringDSN_covers_iff {m : ℕ} (hm : isFanoutValid m = true) {p : Pos}
    (hp : p.Valid m) (hbound : m ^ p.level ≤ 2 ^ 31) :
    (∃ d, getCoveringDSN m p = .ok d ∧
        (∃ dsnSet, getDSNSet m d.level = .ok dsnSet ∧ d.number ∈ dsnSet) ∧
        (p = d ∨ ∃ area, getCoverArea m d = .ok area ∧ p ∈ area)) ↔
      (coveringPos m p).number ≤ lastDsn m (coveringPos m p).level ∧
        ∃ i < dsnCount m (coveringPos m p).level,
          (coverLow m (coveringPos m p).level i ≤ (coveringPos m p).number ∧
            (coveringPos m p).number ≤ coverHigh m (coveringPos m p).level i) ∧
          (p = ⟨(coveringPos m p).level, dsnNumber m (coveringPos m p).level i⟩ ∨
            ChildrenFit m (coveringPos m p).level i) := by
  have hm2 := isFanoutValid_iff.mp hm
  rcases Nat.lt_or_ge (lastDsn m (coveringPos m p).level) (coveringPos m p).number with
    hlt | hle
  · rw [getCoveringDSN_of_lt hm hp hbound hlt]
    constructor
    · rintro ⟨d, hd, -⟩
      cases hd
    · rintro ⟨hle, -⟩
      omega
  obtain ⟨i, hi, hin, hrun⟩ := getCoveringDSN_of_le hm hp hbound hle
  have hmem : dsnNumber m (coveringPos m p).level i ∈ dsnNumbers m (coveringPos m p).level :=
    mem_dsnNumbers.mpr ⟨i, hi, rfl⟩
  have hle' : m ^ (coveringPos m p).level ≤ m ^ p.level :=
    Nat.pow_le_pow_right (by omega) coveringPos_level_le
  have hset := getDSNSet_eq_of_le hm
    (by omega : m ^ (coveringPos m p).level + 2 * m ≤ 2 ^ 32)
  have hcovers := covers_iff_childrenFit hm hbound hi hin
  rw [hrun]
  constructor
  · rintro ⟨d, hd, -, hcov⟩
    obtain rfl := ok.inj hd
    exact ⟨hle, i, hi, hin, hcovers.mp hcov⟩
  · rintro ⟨-, j, hj, hjn, hfit⟩
    obtain rfl := (consecutive_cover hm).index_unique hj hjn hi hin
    exact ⟨_, rfl, ⟨_, hset, hmem⟩, hcovers.mpr hfit⟩

theorem getCoveringDSN_covers_iff_levelThree :
    (∃ d, getCoveringDSN 2 ⟨3, 5⟩ = .ok d ∧
        (∃ dsnSet, getDSNSet 2 d.level = .ok dsnSet ∧ d.number ∈ dsnSet) ∧
        ((⟨3, 5⟩ : Pos) = d ∨ ∃ area, getCoverArea 2 d = .ok area ∧ ⟨3, 5⟩ ∈ area)) :=
  (getCoveringDSN_covers_iff (by decide) (p := ⟨3, 5⟩) (by decide) (by decide)).mpr
    ⟨by decide, 0, by decide, by decide, Or.inr (Fits.childrenFit (by decide) (by decide)
      (by decide))⟩

/-- The last position of the second level of a binary tree has no DSN at or
behind it. -/
theorem getCoveringDSN_behind_last :
    (⟨2, 3⟩ : Pos).Valid 2 ∧
      getCoveringDSN 2 ⟨2, 3⟩ = .error "read behind the last element" := by
  refine ⟨by decide, ?_⟩
  exact getCoveringDSN_of_lt (by decide) (by decide) (by decide) (by decide)

/-! ### Who is responsible for a node -/

variable {q : Pos}

namespace RoutingInformation

/-- The last search looks for the element before the covering DSN, and finds
the covering DSN again. -/
def getCoveringDSNOrTempDSN (m : ℕ) (ri : RoutingInformation) : Except String NodeInfo := do
  let covering ← getCoveringDSN m ri.selfNodeInfo.pos
  let coveringDsn ← ri.getNodeInfoByPosition m covering
  if coveringDsn.isInitialized then return coveringDsn
  else if ri.selfNodeInfo.level ≠ covering.level then return .ofPos covering
  else
    let dsnSet ← getDSNSet m covering.level
    match dsnSet with
    | [] => .error "read behind the last element"
    | first :: _ =>
      if first = covering.number then
        let parent ← calcParent m covering
        return .ofPos parent
      else
        match dsnSet.dropWhile (· < u32 (covering.number + 2 ^ 32 - 1)) with
        | [] => .error "read behind the last element"
        | lower :: _ => return .ofPos ⟨covering.level, lower⟩

/-- The node is a DSN or a temporary DSN, and its cover area has `p`. -/
def Responsible (m : ℕ) (ri : RoutingInformation) (p : Pos) : Prop :=
  (ri.areWeDSN m = .ok true ∧
      ∃ area, getCoverArea m ri.selfNodeInfo.pos = .ok area ∧ p ∈ area) ∨
    (ri.areWeTempDSN m = .ok true ∧ ∃ area, DsnNode.tempCoverArea m ri = .ok area ∧ p ∈ area)

/-- Whatever is found at a position is a node of this position. -/
theorem getNodeInfoByPosition_pos {m : ℕ} {ri : RoutingInformation}
    (hself : ri.selfNodeInfo.isValidPeer = true) (hq : isPositionValid m q = true) :
    ∃ n, ri.getNodeInfoByPosition m q = .ok n ∧ (n.isInitialized = true → n.logical = some q) := by
  rcases getNodeInfoByPosition_cases hself hq with ⟨n, -, hpos, hlookup⟩ | ⟨-, hlookup⟩
  · exact ⟨n, hlookup, fun hinit => NodeInfo.logical_eq_of_pos hinit hpos⟩
  · exact ⟨.none, hlookup, fun hinit => by simp at hinit⟩

end RoutingInformation

section Search

variable {m L : ℕ} (hm : isFanoutValid m = true)
include hm

variable {i : ℕ}

/-- The search for the number before a DSN finds the DSN itself. -/
theorem dropWhile_before_dsn (hi : i < dsnCount m L) (h0 : i ≠ 0) :
    ∃ rest, (dsnNumbers m L).dropWhile (· < dsnNumber m L i - 1) =
      dsnNumber m L i :: rest := by
  obtain ⟨k, hk, -, hdrop, hbelow, habove⟩ :=
    exists_split_map (dsnNumber m L) (dsnNumber m L i - 1) (dsnCount m L) 0
  simp only [Nat.zero_add] at hbelow habove hdrop
  rw [← range_eq_range'] at hdrop
  obtain ⟨j, rfl⟩ : ∃ j, i = j + 1 := ⟨i - 1, by omega⟩
  obtain ⟨g, hg, hgap⟩ := dsnNumber_succ hm hi
  have hki : k = j + 1 := by
    rcases lt_trichotomy k (j + 1) with hlt | heq | hgt
    · -- an earlier DSN is at least two numbers away
      have hx := habove (by omega)
      have hle : dsnNumber m L k ≤ dsnNumber m L j := by
        rcases Nat.lt_or_ge k j with hkj | hkj
        · exact (dsnNumber_lt hm hkj (by omega)).le
        · rw [show k = j by omega]
      omega
    · exact heq
    · have hx := hbelow (j + 1) hgt
      omega
  subst hki
  rw [dsnNumbers, hdrop,
    show dsnCount m L - (j + 1) = dsnCount m L - (j + 1) - 1 + 1 by omega, range'_succ,
    map_cons]
  exact ⟨_, rfl⟩

theorem dsnNumber_zero (h0 : L ≠ 0) (hcount : 0 < dsnCount m L) : dsnNumber m L 0 = m := by
  have hm2 := isFanoutValid_iff.mp hm
  have heven : L % 2 ≠ 1 := by
    intro hodd
    simp [dsnCount, h0, hodd] at hcount
  have hpow : m ^ 1 ≤ m ^ (L - 1) := Nat.pow_le_pow_right (by omega) (by omega)
  rw [pow_one] at hpow
  rw [dsnNumber, if_neg h0, if_pos (by omega)]
  omega

/-- The numbers that the first DSN covers, up to the last DSN, are at most
the fanout away from it. -/
theorem first_dsn_near {x : ℕ} (hx : x ≤ lastDsn m L) (hhigh : x ≤ coverHigh m L 0)
    (h0 : L ≠ 0) (hcount : 0 < dsnCount m L) : x ≤ 2 * m := by
  have hm2 := isFanoutValid_iff.mp hm
  have hzero := dsnNumber_zero hm h0 hcount
  by_cases hone : dsnCount m L = 1
  · rw [lastDsn, hone, Nat.sub_self, hzero] at hx
    omega
  · rw [coverHigh, if_neg (by omega), Nat.zero_add] at hhigh
    rcases dsnNumber_succ_cases hm (by omega : 0 + 1 < dsnCount m L) with hgap | ⟨-, hgap⟩
    · rw [Nat.zero_add] at hgap
      omega
    · rw [Nat.zero_add] at hgap
      omega

/-- The search finds the DSN whose interval has the position. -/
theorem getCoveringDSN_eq {p : Pos} (hp : p.Valid m) (hfits : Fits m p.level)
    (hle : (coveringPos m p).number ≤ lastDsn m (coveringPos m p).level)
    (hi : i < dsnCount m (coveringPos m p).level)
    (hin : coverLow m (coveringPos m p).level i ≤ (coveringPos m p).number ∧
      (coveringPos m p).number ≤ coverHigh m (coveringPos m p).level i) :
    getCoveringDSN m p =
      .ok ⟨(coveringPos m p).level, dsnNumber m (coveringPos m p).level i⟩ := by
  have hbound := Fits.two_mul_pow_le hm hfits
  obtain ⟨j, hj, hjn, hrun⟩ := getCoveringDSN_of_le hm hp (by omega) hle
  obtain rfl := (consecutive_cover hm).index_unique hj hjn hi hin
  exact hrun

/-- A DSN is covered by itself. -/
theorem getCoveringDSN_dsn (hfits : Fits m L) (hi : i < dsnCount m L) :
    getCoveringDSN m ⟨L, dsnNumber m L i⟩ = .ok ⟨L, dsnNumber m L i⟩ := by
  have heven : L % 2 = 0 :=
    level_even_of_mem_dsnNumbers (mem_dsnNumbers.mpr ⟨i, hi, rfl⟩)
  have hpos : coveringPos m ⟨L, dsnNumber m L i⟩ = ⟨L, dsnNumber m L i⟩ := if_pos heven
  have hrun := getCoveringDSN_eq hm (p := ⟨L, dsnNumber m L i⟩) (dsnNumber_lt_pow hm i) hfits
    (i := i)
  rw [hpos] at hrun
  exact hrun (dsnNumber_le_lastDsn hm hi) hi ⟨coverLow_le hm hi, le_coverHigh hm i⟩

end Search

variable {p : Pos}

/-- Whoever a node of a tree knows exists. -/
theorem complete_of_occupied {m N : ℕ} {address : Pos → Address} {pred succ : Option Pos}
    (hpred : IsPred m (Complete m N) p pred) (hsucc : IsSucc m (Complete m N) p succ)
    (hocc : Occupied m p (treeView m N address) (adjacentSlot address pred)
      (adjacentSlot address succ) q) : Complete m N q := by
  rcases hocc with ⟨-, hsome⟩ | ⟨hlog, -⟩ | ⟨hlog, -⟩
  · exact treeView_isSome.mp hsome
  · cases pred with
    | none => cases hlog
    | some r =>
      obtain rfl := Option.some.inj hlog
      exact hpred.1
  · cases succ with
    | none => cases hlog
    | some r =>
      obtain rfl := Option.some.inj hlog
      exact hsucc.1

section Tree

variable {m N : ℕ} (tree : RoutedTree m N) (hm : isFanoutValid m = true) {p : Pos}
  (hp : Complete m N p) (hfits : Fits m p.level)
include hm hp hfits

theorem RoutedTree.areWeDSN_eq : (tree.ri p).areWeDSN m = .ok (decide (IsDsn m p)) := by
  obtain ⟨pred, succ, -, -, hri⟩ := (tree.correct p hp).eq_ofView hm hp.1 hfits
  rw [hri, areWeDSN_of_fits hm hfits]

/-- What the routing information finds at a position that is not above. -/
theorem RoutedTree.getNodeInfoByPosition_cases (hq : q.Valid m) (hlevel : p.level ≤ q.level) :
    ∃ n, (tree.ri p).getNodeInfoByPosition m q = .ok n ∧
      (n.isInitialized = true → n.logical = some q ∧ Complete m N q) ∧
      (Complete m N q → q ∈ tablePositions m p → n.isInitialized = true) := by
  obtain ⟨pred, succ, hpred, hsucc, hri⟩ := (tree.correct p hp).eq_ofView hm hp.1 hfits
  obtain ⟨n, hn, hocc, hpos⟩ : ∃ n,
      (ofView m p (tree.address p) (treeView m N tree.address)
        (adjacentSlot tree.address pred)
        (adjacentSlot tree.address succ)).getNodeInfoByPosition m q = .ok n ∧
      (n.isInitialized = true ↔ Occupied m p (treeView m N tree.address)
        (adjacentSlot tree.address pred) (adjacentSlot tree.address succ) q) ∧
      (n.isInitialized = true → n.pos = q) :=
    getNodeInfoByPosition_ofView ((isPositionValid_iff hm).mpr hq) hlevel
  refine ⟨n, by rw [hri]; exact hn, fun hinit => ⟨?_, ?_⟩, fun hcomplete htable => ?_⟩
  · exact NodeInfo.logical_eq_of_pos hinit (hpos hinit)
  · exact complete_of_occupied hpred hsucc (hocc.mp hinit)
  · exact hocc.mpr (Or.inl ⟨.neighbor htable, treeView_isSome.mpr hcomplete⟩)

omit hm hp hfits in
theorem exists_dsnNumbers_cons {L : ℕ} (hcount : 0 < dsnCount m L) :
    ∃ rest, dsnNumbers m L = dsnNumber m L 0 :: rest := by
  rw [dsnNumbers, show dsnCount m L = dsnCount m L - 1 + 1 by omega, range_succ_eq_map,
    map_cons]
  exact ⟨_, rfl⟩

/-- The position that a node takes for the one of its covering DSN. -/
def assumedDsn (m N : ℕ) (p : Pos) (i : ℕ) : Pos :=
  let d : Pos := ⟨(coveringPos m p).level, dsnNumber m (coveringPos m p).level i⟩
  if p.level % 2 = 0 ∧ i = 0 ∧ ¬ Complete m N d then d.parent m else d

section Found

variable {i : ℕ} (hle : (coveringPos m p).number ≤ lastDsn m (coveringPos m p).level)
  (hi : i < dsnCount m (coveringPos m p).level)
  (hin : coverLow m (coveringPos m p).level i ≤ (coveringPos m p).number ∧
    (coveringPos m p).number ≤ coverHigh m (coveringPos m p).level i)
include hle hi hin

theorem RoutedTree.getCoveringDSNOrTempDSN_odd (hodd : p.level % 2 ≠ 0) :
    ∃ n, (tree.ri p).getCoveringDSNOrTempDSN m = .ok n ∧
      n.logical = some (assumedDsn m N p i) := by
  have hself := tree.selfNodeInfo hm hp hfits
  have hcov := getCoveringDSN_eq hm hp.1 hfits hle hi hin
  have hvalid : (⟨(coveringPos m p).level, dsnNumber m (coveringPos m p).level i⟩ : Pos).Valid
      m := dsnNumber_lt_pow hm i
  have hpeer : (tree.ri p).selfNodeInfo.isValidPeer = true := by
    rw [hself]
    rfl
  obtain ⟨n, hn, hpos⟩ := getNodeInfoByPosition_pos hpeer
    ((isPositionValid_iff hm).mpr hvalid)
  have hlevel : p.level ≠ (coveringPos m p).level := by
    rw [coveringPos, if_neg hodd]
    show p.level ≠ p.level - 1
    omega
  have hassumed : assumedDsn m N p i =
      ⟨(coveringPos m p).level, dsnNumber m (coveringPos m p).level i⟩ :=
    if_neg fun h => hodd h.1
  rw [hassumed]
  simp only [getCoveringDSNOrTempDSN, hself, NodeInfo.pos_mk,
    NodeInfo.level_mk, hcov, bind, Except.bind, hn, pure, Except.pure]
  by_cases hinit : n.isInitialized = true
  · rw [if_pos hinit]
    exact ⟨n, rfl, hpos hinit⟩
  · rw [if_neg hinit, if_pos hlevel]
    exact ⟨_, rfl, rfl⟩

theorem RoutedTree.getCoveringDSNOrTempDSN_even (heven : p.level % 2 = 0)
    (hdsn : ¬ IsDsn m p) :
    ∃ n, (tree.ri p).getCoveringDSNOrTempDSN m = .ok n ∧
      n.logical = some (assumedDsn m N p i) := by
  have hm2 := isFanoutValid_iff.mp hm
  have hself := tree.selfNodeInfo hm hp hfits
  have hcov := getCoveringDSN_eq hm hp.1 hfits hle hi hin
  have hassumed : assumedDsn m N p i = if p.level % 2 = 0 ∧ i = 0 ∧
      ¬ Complete m N ⟨(coveringPos m p).level, dsnNumber m (coveringPos m p).level i⟩ then
        (⟨(coveringPos m p).level, dsnNumber m (coveringPos m p).level i⟩ : Pos).parent m
      else ⟨(coveringPos m p).level, dsnNumber m (coveringPos m p).level i⟩ := rfl
  rw [show coveringPos m p = p from if_pos heven] at hle hi hin hcov hassumed
  have hvalid : (⟨p.level, dsnNumber m p.level i⟩ : Pos).Valid m := dsnNumber_lt_pow hm i
  have hlt : dsnNumber m p.level i < m ^ p.level := hvalid
  have h0 : p.level ≠ 0 := by
    intro h0
    have hnumber : p.number < m ^ p.level := hp.1
    rw [h0, pow_zero] at hnumber
    refine hdsn (mem_dsnNumbers.mpr ⟨0, by simp [dsnCount, h0], ?_⟩)
    simp [dsnNumber, h0]
    omega
  have hcount : 0 < dsnCount m p.level := by omega
  have hset := getDSNSet_eq hm hfits
  obtain ⟨rest, hcons⟩ := exists_dsnNumbers_cons hcount
  obtain ⟨n, hn, hfound, hnear⟩ := tree.getNodeInfoByPosition_cases hm hp hfits hvalid le_rfl
  rw [hassumed]
  simp only [getCoveringDSNOrTempDSN, hself, NodeInfo.pos_mk,
    NodeInfo.level_mk, hcov, bind, Except.bind, hn, pure, Except.pure]
  by_cases hinit : n.isInitialized = true
  · obtain ⟨hlog, hcomplete⟩ := hfound hinit
    rw [if_pos hinit, if_neg fun h => h.2.2 hcomplete]
    exact ⟨n, rfl, hlog⟩
  rw [if_neg hinit, if_neg (by simp), hset]
  by_cases hfirst : i = 0
  · -- a missing first DSN: the node above it
    subst hfirst
    have hzero := dsnNumber_zero hm h0 hcount
    have hne : dsnNumber m p.level 0 ≠ p.number := fun h =>
      hdsn (mem_dsnNumbers.mpr ⟨0, hcount, h⟩)
    have hxm := first_dsn_near hm hle hin.2 h0 hcount
    have hmissing : ¬ Complete m N ⟨p.level, dsnNumber m p.level 0⟩ := fun h =>
      hinit <| hnear h <|
        mem_tablePositions_of_near hm hfits hp.1 hlt hne (by omega) (by omega)
    rw [if_pos ⟨heven, rfl, hmissing⟩]
    simp only [hcons, if_true, calcParent_eq hm hvalid h0]
    exact ⟨_, rfl, rfl⟩
  · -- the search for the DSN before
    have hne : dsnNumber m p.level 0 ≠ dsnNumber m p.level i := fun h =>
      hfirst (dsnNumber_injective hm hcount hi h).symm
    have hpos := dsnNumber_lt hm (Nat.pos_of_ne_zero hfirst) hi
    have hbound := Fits.two_mul_pow_le hm hfits
    have hwrap : u32 (dsnNumber m p.level i + 2 ^ 32 - 1) = dsnNumber m p.level i - 1 := by
      rw [u32, show dsnNumber m p.level i + 2 ^ 32 - 1 = dsnNumber m p.level i - 1 + 2 ^ 32
        by omega, Nat.add_mod_right, Nat.mod_eq_of_lt (by omega)]
    obtain ⟨more, hdrop⟩ := dropWhile_before_dsn hm hi hfirst
    rw [hcons] at hdrop
    rw [if_neg fun h => hfirst h.2.1]
    simp only [hcons, if_neg hne, hwrap, hdrop]
    exact ⟨_, rfl, rfl⟩

end Found

/-- The children of the neighbors are all on the level below. -/
theorem RoutedTree.lowestNode_level (hq : Complete m N q) (hslot : q ∈ tableChildLayout m p) :
    p.level < ((tree.ri p).getLowestNode m).level := by
  obtain ⟨pred, succ, -, -, hri⟩ := (tree.correct p hp).eq_ofView hm hp.1 hfits
  rw [hri, getLowestNode]
  split_ifs with hadjacent
  · simp only [Bool.and_eq_true, decide_eq_true_eq] at hadjacent
    exact hadjacent.2
  -- an initialized child of a neighbor comes before all others
  rw [leftNeighborChildren_eq_map,
    rightNeighborChildren_eq_map]
  set l := (leftDistances m p).length * m
  set v := treeView m N tree.address
  set below := (((tableChildLayout m p).take l).map (slot v)).reverse ++
    ((tableChildLayout m p).drop l).map (slot v) with hbelow
  have hmem : ∀ n, n ∈ below ↔ ∃ r ∈ tableChildLayout m p, slot v r = n := by
    intro n
    rw [hbelow, mem_append, mem_reverse, ← mem_append, ← map_append,
      take_append_drop, mem_map]
  obtain ⟨n, hn⟩ : ∃ n, below.find? (·.isInitialized) = some n := by
    rw [← Option.isSome_iff_exists, find?_isSome]
    exact ⟨slot v q, (hmem _).mpr ⟨q, hslot, rfl⟩, treeView_isSome.mpr hq⟩
  obtain ⟨r, hr, rfl⟩ := (hmem n).mp (mem_of_find?_eq_some hn)
  rw [append_assoc, append_assoc, find?_append, hn]
  show p.level < r.level
  rw [level_of_mem_tableChildLayout hr]
  omega

end Tree

section TemporaryDsn

variable {m N : ℕ} (tree : RoutedTree m N) (hm : isFanoutValid m = true) {p : Pos}
  (hp : Complete m N p) (hfits : Fits m p.level) (hodd : p.level % 2 = 1)
include hm hp hfits hodd

omit hm hp hfits in
theorem not_isDsn_of_odd : ¬ IsDsn m p := by
  intro h
  have := level_even_of_mem_dsnNumbers h
  omega

/-- A node above a missing DSN whose level is in use stands in for it. -/
theorem RoutedTree.areWeTempDSN_eq (hbelow : Fits m (p.level + 1)) {c : ℕ} (hc : c < m)
    (hdsn : IsDsn m (p.child m c)) (hmissing : ¬ Complete m N (p.child m c)) (hq : Complete m N q)
    (hslot : q ∈ tableChildLayout m p) : (tree.ri p).areWeTempDSN m = .ok true := by
  have hlowest := tree.lowestNode_level hm hp hfits hq hslot
  obtain ⟨pred, succ, -, -, hri⟩ := (tree.correct p hp).eq_ofView hm hp.1 hfits
  rw [hri] at hlowest ⊢
  rw [areWeTempDSN, areWeDSN_of_fits hm hfits,
    decide_eq_false (not_isDsn_of_odd hodd)]
  have hself : (ofView m p (tree.address p) (treeView m N tree.address)
    (adjacentSlot tree.address pred) (adjacentSlot tree.address succ)).selfNodeInfo.level =
      p.level := rfl
  simp only [hself, getDSNSet_eq hm hbelow, bind, Except.bind, pure, Except.pure,
    Bool.false_eq_true, if_false]
  refine congrArg ok (any_eq_true.mpr
    ⟨slot (treeView m N tree.address) (p.child m c), ?_, ?_⟩)
  · exact mem_map_of_mem (mem_map_of_mem (mem_range.mpr hc))
  · have hmem : p.number * m + c ∈ dsnNumbers m (p.level + 1) := hdsn
    simp [hmem, treeView_of_not_complete hmissing, hlowest]

omit hodd in
/-- The area of a node above a DSN has what the DSN covers on its level. -/
theorem RoutedTree.exists_tempCoverArea (hbelow : Fits m (p.level + 1)) {i : ℕ}
    (hi : i < dsnCount m (p.level + 1))
    (hfirst : p.child m 0 = ⟨p.level + 1, dsnNumber m (p.level + 1) i⟩) :
    ∃ below, DsnNode.tempCoverArea m (tree.ri p) =
        .ok ((coveredNumbers m (p.level + 1) i).map (Pos.mk (p.level + 1)) ++ below) ∧
      ∀ q ∈ below, q ∈ coverArea m (p.level + 1) i := by
  have hm2 := isFanoutValid_iff.mp hm
  obtain ⟨pred, succ, -, -, hri⟩ := (tree.correct p hp).eq_ofView hm hp.1 hfits
  have hchild : (tree.ri p).getChild m 0 =
      .ok (slot (treeView m N tree.address) (p.child m 0)) := by
    rw [hri, getChild, if_neg (by simp [ofView]), if_neg (by omega)]
    simp [ofView, childPositions, show 0 < m by omega]
  have heven : (p.level + 1) % 2 = 0 :=
    level_even_of_mem_dsnNumbers (mem_dsnNumbers.mpr ⟨i, hi, rfl⟩)
  refine ⟨drop 1 ((coveredNumbers m (p.level + 1) i ++
    [dsnNumber m (p.level + 1) i]).flatMap fun n => childPositions m ⟨p.level + 1, n⟩), ?_,
    fun q hq => mem_append_right _ (mem_of_mem_drop hq)⟩
  simp only [DsnNode.tempCoverArea, hchild, hfirst, slot_pos, slot_level,
    getCoveringDSN_dsn hm hbelow hi, getCoverArea_eq hm heven hbelow hi, bind, Except.bind,
    pure, Except.pure]
  refine congrArg ok (DsnNode.eraseRemoveIf_append (fun q hq => ?_) fun q hq => ?_)
  · obtain ⟨n, -, rfl⟩ := mem_map.mp hq
    simp
  · obtain ⟨n, -, hq⟩ := mem_flatMap.mp hq
    have hlevel := (mem_childPositions.mp hq).1
    simp [hlevel]

end TemporaryDsn

section MissingFirst

variable {m N : ℕ} (tree : RoutedTree m N) (hm : isFanoutValid m = true) {p : Pos}
  (hp : Complete m N p) (hfits : Fits m p.level) (heven : p.level % 2 = 0) (h0 : p.level ≠ 0)
include hm hp h0 heven

/-- The position above the first DSN of a level is the second one of its level,
and it has a node. -/
theorem exists_above_first : ∃ K, p.level = K + 1 ∧ Complete m N ⟨K, 1⟩ ∧
    (⟨p.level, dsnNumber m p.level 0⟩ : Pos).parent m = ⟨K, 1⟩ ∧
    (⟨K, 1⟩ : Pos).child m 0 = ⟨p.level, dsnNumber m p.level 0⟩ := by
  have hm2 := isFanoutValid_iff.mp hm
  have hm0 : 0 < m := by omega
  have hzero := dsnNumber_zero hm h0 (dsnCount_pos hm2.1 heven)
  have hvalid : (⟨p.level, dsnNumber m p.level 0⟩ : Pos).Valid m := dsnNumber_lt_pow hm 0
  obtain ⟨K, hK⟩ : ∃ K, p.level = K + 1 := ⟨p.level - 1, by omega⟩
  have hparent : (⟨p.level, dsnNumber m p.level 0⟩ : Pos).parent m = ⟨K, 1⟩ := by
    rw [hzero, Pos.ext_iff']
    exact ⟨by show p.level - 1 = K; omega, Nat.div_self hm0⟩
  refine ⟨K, hK, hp.of_level_lt (hparent ▸ hvalid.parent h0) (by show K < p.level; omega),
    hparent, ?_⟩
  rw [hzero, Pos.ext_iff']
  exact ⟨hK.symm, by simp⟩

include hfits

omit hp heven h0 in
/-- The first positions of a level are in the table of children of the position
above the first DSN. -/
theorem mem_tableChildLayout_first {K n : ℕ} (hK : p.level = K + 1)
    (habove : Complete m N ⟨K, 1⟩) (hn : n < m) :
    (⟨p.level, n⟩ : Pos) ∈ tableChildLayout m ⟨K, 1⟩ := by
  have hm2 := isFanoutValid_iff.mp hm
  refine mem_tableChildLayout.mpr ⟨⟨K, 0⟩, ?_, mem_childPositions.mpr ⟨hK, ?_⟩⟩
  · exact mem_tablePositions_of_near hm (Fits.mono hm hfits (by simp [hK])) habove.1
      (Nat.pow_pos (by omega)) (by simp) (by show 1 ≤ 0 + m; omega) (by simp)
  · show 0 * m ≤ n ∧ n < 0 * m + m
    omega

/-- Above a missing first DSN is a temporary one. -/
theorem RoutedTree.areWeTempDSN_above_first
    (hmissing : ¬ Complete m N ⟨p.level, dsnNumber m p.level 0⟩) :
    (tree.ri ((⟨p.level, dsnNumber m p.level 0⟩ : Pos).parent m)).areWeTempDSN m = .ok true := by
  have hm2 := isFanoutValid_iff.mp hm
  obtain ⟨K, hK, hcomplete, hparent, hchild⟩ := exists_above_first hm hp heven h0
  rw [hparent]
  have hlevel : (⟨K, 1⟩ : Pos).level + 1 = p.level := hK.symm
  have hfirst : Complete m N ⟨p.level, 0⟩ := hp.of_number_le (Nat.zero_le _)
  refine tree.areWeTempDSN_eq hm hcomplete (Fits.mono hm hfits (by show K ≤ p.level; omega))
    (by show K % 2 = 1; omega) (by rw [hlevel]; exact hfits) (c := 0) (by omega) ?_
    (by rw [hchild]; exact hmissing) hfirst
    (mem_tableChildLayout_first hm hfits hK hcomplete (by omega))
  rw [hchild]
  exact mem_dsnNumbers.mpr ⟨0, dsnCount_pos hm2.1 heven, rfl⟩

/-- The position above the first DSN has its positions of the level in its area,
and no others than it. -/
theorem RoutedTree.exists_tempCoverArea_above_first :
    ∃ below, DsnNode.tempCoverArea m
        (tree.ri ((⟨p.level, dsnNumber m p.level 0⟩ : Pos).parent m)) =
        .ok ((coveredNumbers m p.level 0).map (Pos.mk p.level) ++ below) ∧
      ∀ q ∈ below, q ∈ coverArea m p.level 0 := by
  have hm2 := isFanoutValid_iff.mp hm
  obtain ⟨K, hK, hcomplete, hparent, hchild⟩ := exists_above_first hm hp heven h0
  rw [hparent]
  have hlevel : (⟨K, 1⟩ : Pos).level + 1 = p.level := hK.symm
  have harea := tree.exists_tempCoverArea hm hcomplete
    (Fits.mono hm hfits (by show K ≤ p.level; omega)) (by rw [hlevel]; exact hfits) (i := 0)
    (by rw [hlevel]; exact dsnCount_pos hm2.1 heven) (by rw [hlevel]; exact hchild)
  rw [hlevel] at harea
  exact harea

/-- Above a missing first DSN is a temporary one, and it has the positions of
the level in its area. -/
theorem RoutedTree.responsible_parent
    (hmissing : ¬ Complete m N ⟨p.level, dsnNumber m p.level 0⟩)
    (hmem : p.number ∈ coveredNumbers m p.level 0) :
    Complete m N ((⟨p.level, dsnNumber m p.level 0⟩ : Pos).parent m) ∧
      (tree.ri ((⟨p.level, dsnNumber m p.level 0⟩ : Pos).parent m)).Responsible m p := by
  obtain ⟨K, -, hcomplete, hparent, -⟩ := exists_above_first hm hp heven h0
  obtain ⟨below, harea, -⟩ := tree.exists_tempCoverArea_above_first hm hp hfits heven h0
  refine ⟨hparent ▸ hcomplete, Or.inr
    ⟨tree.areWeTempDSN_above_first hm hp hfits heven h0 hmissing, _, harea, ?_⟩⟩
  exact mem_append_left _ (mem_map.mpr ⟨p.number, hmem, rfl⟩)

end MissingFirst

/-- A DSN that exists is responsible for what its interval has. -/
theorem RoutedTree.responsible_dsn {m N : ℕ} (tree : RoutedTree m N) (hm : isFanoutValid m = true)
    {i : ℕ} (hi : i < dsnCount m (coveringPos m p).level)
    (hin : coverLow m (coveringPos m p).level i ≤ (coveringPos m p).number ∧
      (coveringPos m p).number ≤ coverHigh m (coveringPos m p).level i) (hdsn : ¬ IsDsn m p)
    (hfits : Fits m (coveringPos m p).level) (hcomplete :
      Complete m N ⟨(coveringPos m p).level, dsnNumber m (coveringPos m p).level i⟩) :
    (tree.ri ⟨(coveringPos m p).level, dsnNumber m (coveringPos m p).level i⟩).Responsible
      m p := by
  have hself := tree.selfNodeInfo hm hcomplete hfits
  have hmem : IsDsn m ⟨(coveringPos m p).level, dsnNumber m (coveringPos m p).level i⟩ :=
    mem_dsnNumbers.mpr ⟨i, hi, rfl⟩
  have hcovers := (covers_iff_of_fits hm coveringPos_level_even hfits hi
    level_eq_coveringPos).mpr hin
  refine Or.inl ⟨?_, ?_⟩
  · rw [tree.areWeDSN_eq hm hcomplete hfits, decide_eq_true hmem]
  · rw [hself]
    refine hcovers.resolve_left fun heq => hdsn ?_
    rw [heq]
    exact hmem

/-- A node finds out who is responsible for it, unless it is behind the last
DSN of a level, or on an even level whose covering DSN is missing and not the
first one. -/
theorem RoutedTree.getCoveringDSNOrTempDSN_responsible_iff {m N : ℕ} (tree : RoutedTree m N)
    (hm : isFanoutValid m = true) (hfits : ∀ p, Complete m N p → Fits m p.level) {p : Pos}
    (hp : Complete m N p) (hnot : (tree.ri p).areWeDSN m = .ok false) :
    (∃ n r, (tree.ri p).getCoveringDSNOrTempDSN m = .ok n ∧ n.logical = some r ∧
        Complete m N r ∧ (tree.ri r).Responsible m p) ↔
      (coveringPos m p).number ≤ lastDsn m (coveringPos m p).level ∧
        ∃ i < dsnCount m (coveringPos m p).level,
          (coverLow m (coveringPos m p).level i ≤ (coveringPos m p).number ∧
            (coveringPos m p).number ≤ coverHigh m (coveringPos m p).level i) ∧
          (i = 0 ∨
            Complete m N ⟨(coveringPos m p).level, dsnNumber m (coveringPos m p).level i⟩) := by
  have hpfits := hfits p hp
  have hdsn : ¬ IsDsn m p := by
    rw [tree.areWeDSN_eq hm hp hpfits] at hnot
    exact of_decide_eq_false (ok.inj hnot)
  have hbound := Fits.two_mul_pow_le hm hpfits
  rcases Nat.lt_or_ge (lastDsn m (coveringPos m p).level) (coveringPos m p).number with
    hlt | hle
  · have herror := getCoveringDSN_of_lt hm hp.1 (by omega) hlt
    have hself := tree.selfNodeInfo hm hp hpfits
    constructor
    · rintro ⟨n, r, hrun, -⟩
      simp [getCoveringDSNOrTempDSN, hself, herror, bind, Except.bind] at hrun
    · rintro ⟨hle, -⟩
      omega
  obtain ⟨i, hi, hin, -⟩ := getCoveringDSN_of_le hm hp.1 (by omega) hle
  have hqfits : Fits m (coveringPos m p).level := Fits.mono hm hpfits coveringPos_level_le
  have hvalid : (⟨(coveringPos m p).level, dsnNumber m (coveringPos m p).level i⟩ : Pos).Valid
      m := dsnNumber_lt_pow hm i
  obtain ⟨n, hrun, hlog⟩ : ∃ n, (tree.ri p).getCoveringDSNOrTempDSN m = .ok n ∧
      n.logical = some (assumedDsn m N p i) := by
    by_cases heven : p.level % 2 = 0
    · exact tree.getCoveringDSNOrTempDSN_even hm hp hpfits hle hi hin heven hdsn
    · exact tree.getCoveringDSNOrTempDSN_odd hm hp hpfits hle hi hin heven
  constructor
  · rintro ⟨n', r, hrun', hlog', hcomplete, -⟩
    obtain rfl := ok.inj (hrun.symm.trans hrun')
    obtain rfl := Option.some.inj (hlog.symm.trans hlog')
    refine ⟨hle, i, hi, hin, or_iff_not_imp_left.mpr fun h0 => ?_⟩
    rwa [assumedDsn, if_neg fun h => h0 h.2.1] at hcomplete
  · rintro ⟨-, j, hj, hjn, hexists⟩
    obtain rfl := (consecutive_cover hm).index_unique hj hjn hi hin
    refine ⟨n, _, hrun, hlog, ?_⟩
    by_cases hcomplete :
        Complete m N ⟨(coveringPos m p).level, dsnNumber m (coveringPos m p).level j⟩
    · rw [assumedDsn, if_neg fun h => h.2.2 hcomplete]
      exact ⟨hcomplete, tree.responsible_dsn hm hi hin hdsn hqfits hcomplete⟩
    -- a DSN above a node is never missing
    have heven : p.level % 2 = 0 := by
      by_contra hodd
      refine hcomplete (hp.of_level_lt hvalid ?_)
      rw [coveringPos, if_neg hodd]
      show p.level - 1 < p.level
      omega
    obtain rfl := hexists.resolve_right hcomplete
    rw [assumedDsn, if_pos ⟨heven, rfl, hcomplete⟩]
    rw [show coveringPos m p = p from if_pos heven] at hcomplete hj hin ⊢
    have h0 : p.level ≠ 0 := by
      intro h0
      have hnumber : p.number < m ^ p.level := hp.1
      refine hcomplete ?_
      rw [dsnNumber, if_pos h0]
      exact hp.of_number_le (Nat.zero_le _)
    refine tree.responsible_parent hm hp hpfits heven h0 hcomplete ?_
    refine ((mem_coveredNumbers hm hj).mpr hin).resolve_right fun h => hdsn ?_
    exact mem_dsnNumbers.mpr ⟨0, hj, h.symm⟩

theorem fits_of_complete_twentyOne (hp : Complete 2 21 p) : Fits 2 p.level :=
  Fits.mono (by decide) (by decide : Fits 2 4) (hp.level_le (by decide))

theorem getCoveringDSNOrTempDSN_responsible_iff_levelFour :
    ∃ tree : RoutedTree 2 21, ∃ n r,
      (tree.ri ⟨4, 4⟩).getCoveringDSNOrTempDSN 2 = .ok n ∧ n.logical = some r ∧
        Complete 2 21 r ∧ (tree.ri r).Responsible 2 ⟨4, 4⟩ := by
  have hm : isFanoutValid 2 = true := by decide
  obtain ⟨tree⟩ : Nonempty (RoutedTree 2 21) := nonempty_routedTree (L := 4) hm (by decide)
    (by decide)
  have hnot : (tree.ri ⟨4, 4⟩).areWeDSN 2 = .ok false := by
    rw [tree.areWeDSN_eq hm (by decide) (by decide)]
    rfl
  exact ⟨tree, (tree.getCoveringDSNOrTempDSN_responsible_iff hm
    (fun p hp => fits_of_complete_twentyOne hp) (p := ⟨4, 4⟩) (by decide) hnot).mpr
      ⟨by decide, 0, by decide, by decide, Or.inl rfl⟩⟩

/-- In a binary tree of 21 nodes the last one asks for a DSN at the next
position, where nobody is. -/
theorem getCoveringDSNOrTempDSN_missing :
    ∃ tree : RoutedTree 2 21, Complete 2 21 ⟨4, 5⟩ ∧
      (tree.ri ⟨4, 5⟩).areWeDSN 2 = .ok false ∧
      ∃ n, (tree.ri ⟨4, 5⟩).getCoveringDSNOrTempDSN 2 = .ok n ∧
        n.logical = some ⟨4, 6⟩ ∧ ¬ Complete 2 21 ⟨4, 6⟩ := by
  have hm : isFanoutValid 2 = true := by decide
  obtain ⟨tree⟩ : Nonempty (RoutedTree 2 21) := nonempty_routedTree (L := 4) hm (by decide)
    (by decide)
  have hfits : Fits 2 (⟨4, 5⟩ : Pos).level := by decide
  have hp : Complete 2 21 ⟨4, 5⟩ := by decide
  obtain ⟨n, hrun, hlog⟩ := tree.getCoveringDSNOrTempDSN_even hm hp hfits (i := 1) (by decide)
    (by decide) (by decide) (by decide) (by decide)
  refine ⟨tree, hp, ?_, n, hrun, hlog, by decide⟩
  rw [tree.areWeDSN_eq hm hp hfits]
  rfl

end Sola.Minhton
