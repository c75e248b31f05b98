import Mathlib.Order.Lattice.Nat
import Sola.Lib.Consecutive
import Sola.Minhton.RoutingCalculations

/-!
Directory service nodes and their cover areas (the second half of
`minhton/src/core/routing_calculations.cpp`).

Every even level has directory service nodes (DSNs): the odd multiples of
the fanout and, if the fanout is odd, one more node near the right edge.  A
DSN covers the positions of its level up to the middle of the gaps to the DSNs
beside it, and the children of all of these.
-/

namespace Sola.Minhton

open Sola.Lib Sola.Lib.MaryTree Sola.Lib.Distances List

/-! ### The source -/

/-- The loop of `getDSNSet`.  The counter is 32 bits wide, so a run of more
than `2 ^ 32` rounds would never end. -/
def dsnLoop (m maxNumber : ℕ) : ℕ → ℕ → Except String (List ℕ)
  | 0, _ => .error "endless loop"
  | rounds + 1, i =>
    if i ≤ maxNumber then do
      let rest ← dsnLoop m maxNumber rounds (u32 (i + 2 * m))
      return i :: rest
    else .ok []

def getDSNSet (m level : ℕ) : Except String (List ℕ) :=
  if level % 2 = 1 then .ok []
  else if level = 0 then .ok [0]
  else do
    let maxNumber := u32 (m ^ level - 1)
    let dsnSet ← dsnLoop m maxNumber (2 ^ 32) m
    let candidate := u32 (maxNumber + 2 ^ 32 - m)
    match dsnSet.getLast? with
    | none => .error "read before the first element"
    | some last => return if last < candidate then dsnSet ++ [candidate] else dsnSet

/-- The first loop of `getCoverArea`: numbers to the left of the DSN.  The
rounding with `ceil` comes after an integer division. -/
def coveredLeft (dsnSet : List ℕ) (index number : ℕ) : List ℕ :=
  let start :=
    if index = 0 then 0
    else number - (number - dsnSet.getD (index - 1) 0) / 2 + 1
  List.range' start (number - start)

/-- The second loop of `getCoverArea`: numbers to the right of the DSN. -/
def coveredRight (dsnSet : List ℕ) (maxNumber index number : ℕ) : List ℕ :=
  let stop :=
    if index = dsnSet.length - 1 then maxNumber
    else number + (dsnSet.getD (index + 1) 0 - number) / 2
  List.range' (number + 1) (stop - number)

def getCoverArea (m : ℕ) (p : Pos) : Except String (List Pos) :=
  if p.level = 0 ∧ p.number = 0 then .ok ((List.range m).map fun i => ⟨1, i⟩)
  else do
    let dsnSet ← getDSNSet m p.level
    match dsnSet.idxOf? p.number with
    | none => return []
    | some index => do
        let maxNumber := u32 (m ^ p.level - 1)
        let area := (coveredLeft dsnSet index p.number ++
          coveredRight dsnSet maxNumber index p.number).map fun i => (⟨p.level, i⟩ : Pos)
        let coveredChildren ← area.mapM (calcChildren m)
        let dsnChildren ← calcChildren m p
        return area ++ coveredChildren.flatten ++ dsnChildren

/-- The DSNs of the level that covers position `p`, and the position on that
level to look for. -/
def coveringLevel (m : ℕ) (p : Pos) : Except String (List ℕ × Pos) :=
  if p.level % 2 = 0 then do
    let dsnSet ← getDSNSet m p.level
    return (dsnSet, p)
  else do
    let dsnSet ← getDSNSet m (p.level - 1)
    let parent ← calcParent m p
    return (dsnSet, parent)

/-- The iterator of `std::lower_bound` is read before it is compared with
the end, so the model stops when there is no DSN at or behind the position. -/
def getCoveringDSN (m : ℕ) (p : Pos) : Except String Pos := do
  let (dsnSet, q) ← coveringLevel m p
  match dsnSet.takeWhile (· < q.number), dsnSet.dropWhile (· < q.number) with
  | _, [] => .error "read behind the last element"
  | [], lower :: _ => return ⟨q.level, lower⟩
  | before :: more, lower :: _ =>
    let prior := (before :: more).getLastD 0
    if lower = q.number then return ⟨q.level, lower⟩
    else if lower - q.number < q.number - prior then return ⟨q.level, lower⟩
    else return ⟨q.level, prior⟩

/-! ### The DSNs of a level -/

def dsnCount (m L : ℕ) : ℕ :=
  if L = 0 then 1
  else if L % 2 = 1 then 0
  else m ^ (L - 1) / 2 + m % 2

def dsnNumber (m L i : ℕ) : ℕ :=
  if L = 0 then 0
  else if i < m ^ (L - 1) / 2 then m + 2 * m * i
  else m ^ L - 1 - m

/-- The numbers of the DSNs of level `L` from left to right. -/
def dsnNumbers (m L : ℕ) : List ℕ := (List.range (dsnCount m L)).map (dsnNumber m L)

variable {m L : ℕ} {i : ℕ}

theorem mem_dsnNumbers {d : ℕ} :
    d ∈ dsnNumbers m L ↔ ∃ i, i < dsnCount m L ∧ dsnNumber m L i = d := by
  simp [dsnNumbers]

@[simp] theorem length_dsnNumbers (m L : ℕ) : (dsnNumbers m L).length = dsnCount m L := by
  simp [dsnNumbers]

theorem getD_dsnNumbers (hi : i < dsnCount m L) : (dsnNumbers m L).getD i 0 = dsnNumber m L i := by
  simp [dsnNumbers, hi]

/-- Without a wrap-around the loop lists the odd multiples of the fanout. -/
theorem dsnLoop_eq {B : ℕ} (hm : 0 < m) (hfits : m * B + 2 * m ≤ 2 ^ 32) (rounds : ℕ) :
    ∀ j, B / 2 - j < rounds →
      dsnLoop m (m * B - 1) rounds (m + 2 * m * j) =
        .ok ((range' j (B / 2 - j)).map fun j => m + 2 * m * j) := by
  induction rounds with
  | zero =>
    intro j hj
    omega
  | succ rounds ih =>
    intro j hj
    have hpos : m + 2 * m * j = m * (2 * j + 1) := by ring
    unfold dsnLoop
    by_cases hlt : j < B / 2
    · have hle : m * (2 * j + 1 + 1) ≤ m * B := Nat.mul_le_mul_left m (by omega)
      rw [Nat.mul_succ] at hle
      have hnext : u32 (m + 2 * m * j + 2 * m) = m + 2 * m * (j + 1) := by
        rw [u32, Nat.mod_eq_of_lt (by omega)]
        ring
      have hlen : B / 2 - j = B / 2 - (j + 1) + 1 := by omega
      rw [if_pos (by omega), hnext, ih (j + 1) (by omega), hlen, range'_succ]
      rfl
    · have hle : m * B ≤ m * (2 * j + 1) := Nat.mul_le_mul_left m (by omega)
      have hB : 0 < m * (2 * j + 1) := Nat.mul_pos hm (by omega)
      have hlen : B / 2 - j = 0 := by omega
      rw [if_neg (by omega), hlen]
      rfl

theorem pow_mod_two (m : ℕ) (hL : L ≠ 0) : m ^ L % 2 = m % 2 := by
  rw [Nat.pow_mod]
  rcases Nat.mod_two_eq_zero_or_one m with h | h
  · rw [h, Nat.zero_pow (by omega)]
  · rw [h, Nat.one_pow]

section Level

variable {m L : ℕ} (hm : isFanoutValid m = true)
include hm

/-- The numbers of a level below one that fits are far from wrapping. -/
theorem Fits.pow_add_le (hfits : Fits m L) : m ^ L + 2 * m ≤ 2 ^ 32 := by
  have h2 := Fits.two_mul_pow_le hm hfits
  have hm2 := isFanoutValid_iff.mp hm
  omega

/-- The DSNs of a level whose numbers do not come close to wrapping. -/
theorem getDSNSet_eq_of_le (hbound : m ^ L + 2 * m ≤ 2 ^ 32) :
    getDSNSet m L = .ok (dsnNumbers m L) := by
  have hm2 := isFanoutValid_iff.mp hm
  unfold getDSNSet
  by_cases hodd : L % 2 = 1
  · have h0 : L ≠ 0 := by rintro rfl; simp at hodd
    simp [hodd, h0, dsnNumbers, dsnCount]
  by_cases h0 : L = 0
  · subst h0
    rfl
  rw [if_neg hodd, if_neg h0]
  obtain ⟨k, rfl⟩ : ∃ k, L = k + 1 := ⟨L - 1, by omega⟩
  set B := m ^ k with hB
  have hpow : m ^ (k + 1) = m * B := by rw [pow_succ', hB]
  have hB2 : 2 ≤ B := by
    calc 2 ≤ m := hm2.1
      _ = m ^ 1 := (pow_one m).symm
      _ ≤ m ^ k := Nat.pow_le_pow_right (by omega) (by omega)
  have hmB : 2 * m ≤ m * B := by
    rw [Nat.mul_comm]; exact Nat.mul_le_mul_left m hB2
  have hparity : B % 2 = m % 2 := pow_mod_two m (by omega)
  have hmax : u32 (m * B - 1) = m * B - 1 := Nat.mod_eq_of_lt (by omega)
  have hcand : u32 (m * B - 1 + 2 ^ 32 - m) = m * B - 1 - m := by
    rw [u32, show m * B - 1 + 2 ^ 32 - m = m * B - 1 - m + 2 ^ 32 by omega,
      Nat.add_mod_right, Nat.mod_eq_of_lt (by omega)]
  have hrounds : B / 2 - 0 < 2 ^ 32 := by
    have : B ≤ m * B := Nat.le_mul_of_pos_left B (by omega)
    omega
  have hloop := dsnLoop_eq (by omega : 0 < m) (by omega : m * B + 2 * m ≤ 2 ^ 32) (2 ^ 32) 0
    hrounds
  rw [Nat.mul_zero, Nat.add_zero, Nat.sub_zero] at hloop
  obtain ⟨c, hc⟩ : ∃ c, B / 2 = c + 1 := ⟨B / 2 - 1, by omega⟩
  have hlast : ((range' 0 (B / 2)).map fun j => m + 2 * m * j).getLast? =
      some (m + 2 * m * c) := by
    rw [hc, range'_concat]
    simp
  have hfirst : (range (B / 2)).map (dsnNumber m (k + 1)) =
      (range' 0 (B / 2)).map fun j => m + 2 * m * j := by
    rw [range_eq_range']
    refine map_congr_left fun j hj => ?_
    have hj' := mem_range'_1.mp hj
    simp [dsnNumber, ← hB, show j < B / 2 by omega]
  simp only [hpow, hmax, hloop, hcand, bind, Except.bind, hlast]
  rcases Nat.mod_two_eq_zero_or_one m with heven | hoddm
  · -- an even fanout: the last odd multiple is at the edge
    have hBc : B = 2 * c + 2 := by omega
    have hge : ¬ m + 2 * m * c < m * B - 1 - m := by
      have h1 : m * B = m * (2 * c + 1) + m := by rw [hBc]; ring
      have h2 : m + 2 * m * c = m * (2 * c + 1) := by ring
      omega
    rw [if_neg hge]
    simp only [dsnNumbers, dsnCount, Nat.add_sub_cancel, if_neg h0, if_neg hodd, heven,
      Nat.add_zero, ← hB, hfirst]
    rfl
  · -- an odd fanout: one more DSN
    have hBc : B = 2 * c + 3 := by omega
    have hlt : m + 2 * m * c < m * B - 1 - m := by
      have h1 : m * B = m * (2 * c + 1) + 2 * m := by rw [hBc]; ring
      have h2 : m + 2 * m * c = m * (2 * c + 1) := by ring
      omega
    have hextra : dsnNumber m (k + 1) (B / 2) = m * B - 1 - m := by
      simp [dsnNumber, ← hB, hpow]
    rw [if_pos hlt]
    simp only [dsnNumbers, dsnCount, Nat.add_sub_cancel, if_neg h0, if_neg hodd, hoddm,
      range_succ, map_append, ← hB, hfirst, map_cons, map_nil, hextra]
    rfl

theorem getDSNSet_eq (hfits : Fits m L) : getDSNSet m L = .ok (dsnNumbers m L) :=
  getDSNSet_eq_of_le hm (hfits.pow_add_le hm)

variable {i j : ℕ}

/-- The gap to the next DSN is twice the fanout, except before the additional
DSN of an odd fanout. -/
theorem dsnNumber_succ_cases (hi : i + 1 < dsnCount m L) :
    dsnNumber m L (i + 1) = dsnNumber m L i + 2 * m ∨
      m % 2 = 1 ∧ dsnNumber m L (i + 1) = dsnNumber m L i + (m - 1) := by
  have hm2 := isFanoutValid_iff.mp hm
  unfold dsnCount at hi
  split_ifs at hi with h0 hodd
  · omega
  · omega
  obtain ⟨k, rfl⟩ : ∃ k, L = k + 1 := ⟨L - 1, by omega⟩
  rw [Nat.add_sub_cancel] at hi
  have hparity : m ^ k % 2 = m % 2 := pow_mod_two m (by omega)
  unfold dsnNumber
  rw [if_neg h0, if_neg h0, Nat.add_sub_cancel, if_pos (by omega : i < m ^ k / 2)]
  by_cases hlt : i + 1 < m ^ k / 2
  · rw [if_pos hlt]
    exact Or.inl (by ring)
  · -- the additional DSN of an odd fanout
    have hB : m ^ k = 2 * i + 3 := by omega
    have hpow : m ^ (k + 1) = m * (2 * i) + 3 * m := by rw [pow_succ, hB]; ring
    have hcomm : 2 * m * i = m * (2 * i) := by ring
    rw [if_neg hlt, hpow, hcomm]
    exact Or.inr ⟨by omega, by omega⟩

/-- The gap between two DSNs that follow each other is a distance of the
routing table. -/
theorem isDist_dsnNumber_succ (hi : i + 1 < dsnCount m L) :
    IsDist m (dsnNumber m L (i + 1) - dsnNumber m L i) := by
  have hm2 := isFanoutValid_iff.mp hm
  rcases dsnNumber_succ_cases hm hi with h | ⟨-, h⟩
  · rw [h, Nat.add_sub_cancel_left]
    by_cases htwo : m = 2
    · exact ⟨1, 2, by omega, by omega, by rw [htwo]; norm_num⟩
    · exact ⟨2, 1, by omega, by omega, by rw [pow_one]⟩
  · rw [h, Nat.add_sub_cancel_left]
    exact ⟨m - 1, 0, by omega, by omega, by rw [pow_zero, mul_one]⟩

/-- The DSNs stand in increasing order with even gaps between them. -/
theorem dsnNumber_succ (hi : i + 1 < dsnCount m L) :
    ∃ g, 0 < g ∧ dsnNumber m L (i + 1) = dsnNumber m L i + 2 * g := by
  have hm2 := isFanoutValid_iff.mp hm
  rcases dsnNumber_succ_cases hm hi with h | ⟨hodd, h⟩
  · exact ⟨m, by omega, h⟩
  · exact ⟨(m - 1) / 2, by omega, by omega⟩

theorem dsnNumber_lt (hij : i < j) (hj : j < dsnCount m L) : dsnNumber m L i < dsnNumber m L j := by
  induction j, hij using Nat.le_induction with
  | base =>
    obtain ⟨g, hg, he⟩ := dsnNumber_succ hm hj
    rw [Nat.succ_eq_add_one, he]
    omega
  | succ j hij ih =>
    obtain ⟨g, hg, he⟩ := dsnNumber_succ hm hj
    have := ih (by omega)
    omega

theorem dsnNumber_le (hij : i ≤ j) (hj : j < dsnCount m L) : dsnNumber m L i ≤ dsnNumber m L j := by
  rcases hij.lt_or_eq with hlt | rfl
  · exact (dsnNumber_lt hm hlt hj).le
  · exact le_rfl

theorem dsnNumber_injective (hi : i < dsnCount m L) (hj : j < dsnCount m L)
    (h : dsnNumber m L i = dsnNumber m L j) : i = j := by
  rcases lt_trichotomy i j with hij | hij | hij
  · have := dsnNumber_lt hm hij hj
    omega
  · exact hij
  · have := dsnNumber_lt hm hij hi
    omega

/-- DSNs are positions of their level. -/
theorem dsnNumber_lt_pow (i : ℕ) : dsnNumber m L i < m ^ L := by
  have hm2 := isFanoutValid_iff.mp hm
  unfold dsnNumber
  split_ifs with h0 hlt
  · simp [h0]
  · obtain ⟨k, rfl⟩ : ∃ k, L = k + 1 := ⟨L - 1, by omega⟩
    rw [Nat.add_sub_cancel] at hlt
    have hle : m * (2 * i + 2) ≤ m * m ^ k := Nat.mul_le_mul_left m (by omega)
    have he : m * (2 * i + 2) = m + 2 * m * i + m := by ring
    rw [pow_succ']
    omega
  · have : 0 < m ^ L := Nat.pow_pos (by omega)
    omega

theorem dsnNumbers_nodup : (dsnNumbers m L).Nodup :=
  Nodup.map_on (fun _ hi _ hj => dsnNumber_injective hm (mem_range.mp hi)
    (mem_range.mp hj)) nodup_range

theorem idxOf?_dsnNumbers (hi : i < dsnCount m L) :
    (dsnNumbers m L).idxOf? (dsnNumber m L i) = some i := by
  rw [idxOf?, findIdx?_eq_some_iff_getElem]
  refine ⟨by simpa using hi, by simp [dsnNumbers], fun j hj => ?_⟩
  have hlt := dsnNumber_lt hm hj hi
  simp [dsnNumbers]
  omega

/-! ### The numbers that a DSN covers on its own level -/

omit hm in
/-- The DSNs between which the numbers of the level are divided. -/
theorem dsnCount_pos (hm : 2 ≤ m) (hL : L % 2 = 0) : 0 < dsnCount m L := by
  unfold dsnCount
  split_ifs with h0 hodd
  · exact Nat.one_pos
  · omega
  · have : 2 ≤ m ^ (L - 1) := by
      calc 2 ≤ m := hm
        _ = m ^ 1 := (pow_one m).symm
        _ ≤ m ^ (L - 1) := Nat.pow_le_pow_right (by omega) (by omega)
    omega

end Level

/-- The first number that the `i`-th DSN is responsible for. -/
def coverLow (m L i : ℕ) : ℕ :=
  if i = 0 then 0
  else dsnNumber m L i - (dsnNumber m L i - dsnNumber m L (i - 1)) / 2 + 1

/-- The last number that the `i`-th DSN is responsible for. -/
def coverHigh (m L i : ℕ) : ℕ :=
  if i = dsnCount m L - 1 then m ^ L - 1
  else dsnNumber m L i + (dsnNumber m L (i + 1) - dsnNumber m L i) / 2

section Cover

variable {m L : ℕ} (hm : isFanoutValid m = true)
include hm

theorem coverLow_le (hi : i < dsnCount m L) : coverLow m L i ≤ dsnNumber m L i := by
  unfold coverLow
  cases i with
  | zero => simp
  | succ i =>
    obtain ⟨g, hg, he⟩ := dsnNumber_succ hm hi
    rw [if_neg (by omega), Nat.add_sub_cancel, he]
    omega

theorem le_coverHigh (i : ℕ) : dsnNumber m L i ≤ coverHigh m L i := by
  have := dsnNumber_lt_pow hm (L := L) i
  unfold coverHigh
  split_ifs with hlast <;> omega

/-- The gaps between DSNs are even, so rounding loses no number. -/
theorem consecutive_cover :
    Consecutive (dsnCount m L) (m ^ L - 1) (coverLow m L) (coverHigh m L) where
  first := rfl
  next := fun i hi => by
    obtain ⟨g, hg, he⟩ := dsnNumber_succ hm hi
    unfold coverLow coverHigh
    rw [if_neg (by omega), if_neg (by omega), Nat.add_sub_cancel, he]
    omega
  last := fun i hi => by
    unfold coverHigh
    rw [if_pos (by omega)]
  le := fun i hi => (coverLow_le hm hi).trans (le_coverHigh hm (L := L) i)

end Cover

/-- The other numbers of the level that the `i`-th DSN covers. -/
def coveredNumbers (m L i : ℕ) : List ℕ :=
  List.range' (coverLow m L i) (dsnNumber m L i - coverLow m L i) ++
    List.range' (dsnNumber m L i + 1) (coverHigh m L i - dsnNumber m L i)

/-- The cover area of the `i`-th DSN. -/
def coverArea (m L i : ℕ) : List Pos :=
  (coveredNumbers m L i).map (Pos.mk L) ++
    (coveredNumbers m L i ++ [dsnNumber m L i]).flatMap fun n => childPositions m ⟨L, n⟩

section Cover

variable {m L : ℕ} (hm : isFanoutValid m = true)
include hm

variable {i n : ℕ}

section

variable (hi : i < dsnCount m L)
include hi

theorem mem_coveredNumbers :
    n ∈ coveredNumbers m L i ∨ n = dsnNumber m L i ↔ coverLow m L i ≤ n ∧ n ≤ coverHigh m L i := by
  have h1 := coverLow_le hm hi
  have h2 := le_coverHigh hm (L := L) i
  simp only [coveredNumbers, mem_append, mem_range'_1]
  omega

theorem coveredNumbers_nodup : (coveredNumbers m L i ++ [dsnNumber m L i]).Nodup := by
  have h1 := coverLow_le hm hi
  have h2 := le_coverHigh hm (L := L) i
  unfold coveredNumbers
  simp only [append_assoc, nodup_append, mem_append, mem_range'_1,
    mem_singleton]
  refine ⟨nodup_range', ⟨nodup_range', nodup_singleton _, ?_⟩, ?_⟩
  · intro a ha b hb
    omega
  · intro a ha b hb
    omega

theorem coverHigh_lt_pow : coverHigh m L i < m ^ L := by
  have hpos : 0 < m ^ L := Nat.pow_pos (by have := isFanoutValid_iff.mp hm; omega)
  have hcons := consecutive_cover hm (L := L)
  by_cases hlast : i + 1 = dsnCount m L
  · have := hcons.last i hlast
    omega
  · have hnext := hcons.next i (by omega)
    have hlow := coverLow_le hm (L := L) (i := i + 1) (by omega)
    have hlt := dsnNumber_lt_pow hm (L := L) (i + 1)
    omega

theorem coveredNumbers_lt (hn : n ∈ coveredNumbers m L i) : n < m ^ L :=
  lt_of_le_of_lt ((mem_coveredNumbers hm hi).mp (Or.inl hn)).2 (coverHigh_lt_pow hm hi)

/-- A DSN is responsible for the numbers of its interval and for their
children. -/
theorem mem_coverArea {p : Pos} :
    p = ⟨L, dsnNumber m L i⟩ ∨ p ∈ coverArea m L i ↔
      (p.level = L ∧ coverLow m L i ≤ p.number ∧ p.number ≤ coverHigh m L i) ∨
      (p.level = L + 1 ∧ coverLow m L i ≤ p.number / m ∧ p.number / m ≤ coverHigh m L i) := by
  have hlevel : p ∈ (coveredNumbers m L i).map (Pos.mk L) ↔
      p.level = L ∧ p.number ∈ coveredNumbers m L i := by
    constructor
    · intro h
      obtain ⟨n, hn, rfl⟩ := mem_map.mp h
      exact ⟨rfl, hn⟩
    · rintro ⟨rfl, hn⟩
      exact mem_map.mpr ⟨p.number, hn, rfl⟩
  have hbelow : (p ∈ (coveredNumbers m L i ++ [dsnNumber m L i]).flatMap
      fun n => childPositions m ⟨L, n⟩) ↔
      p.level = L + 1 ∧ (p.number / m ∈ coveredNumbers m L i ∨
        p.number / m = dsnNumber m L i) := by
    simp only [mem_flatMap, mem_childPositions_iff_div hm, mem_append, mem_singleton]
    constructor
    · rintro ⟨n, hn, hl, rfl⟩
      exact ⟨hl, hn⟩
    · rintro ⟨hl, hn⟩
      exact ⟨_, hn, hl, rfl⟩
  have hself : p = ⟨L, dsnNumber m L i⟩ ↔ p.level = L ∧ p.number = dsnNumber m L i :=
    Pos.ext_iff'
  rw [coverArea, mem_append, hlevel, hbelow, hself, mem_coveredNumbers hm hi,
    ← or_assoc, ← and_or_left, or_comm (a := p.number = _), mem_coveredNumbers hm hi]

/-- A cover area consists of positions of the two levels. -/
theorem coverArea_valid {p : Pos} (hp : p ∈ coverArea m L i) : p.Valid m ∧ L ≤ p.level := by
  have hhigh := coverHigh_lt_pow hm hi
  rcases (mem_coverArea hm hi).mp (Or.inr hp) with ⟨rfl, -, hle⟩ | ⟨hl, -, hle⟩
  · exact ⟨lt_of_le_of_lt hle hhigh, le_rfl⟩
  · have hm0 : 0 < m := by have := isFanoutValid_iff.mp hm; omega
    refine ⟨?_, by omega⟩
    show p.number < m ^ p.level
    rw [hl, pow_succ]
    exact (Nat.div_lt_iff_lt_mul hm0).mp (lt_of_le_of_lt hle hhigh)

/-- A DSN is not in its own cover area. -/
theorem dsn_not_mem_coverArea : ⟨L, dsnNumber m L i⟩ ∉ coverArea m L i := by
  intro h
  rcases mem_append.mp h with h | h
  · obtain ⟨n, hn, heq⟩ := mem_map.mp h
    obtain rfl : n = dsnNumber m L i := congrArg Pos.number heq
    have hnodup := coveredNumbers_nodup hm hi
    exact (nodup_append.mp hnodup).2.2 _ hn _ (by simp) rfl
  · obtain ⟨n, -, hn⟩ := mem_flatMap.mp h
    have hlevel : L = L + 1 := (mem_childPositions_iff_div hm).mp hn |>.1
    omega

theorem coverArea_nodup : (coverArea m L i).Nodup := by
  have hnumbers := coveredNumbers_nodup hm hi
  refine nodup_append.mpr ⟨?_, ?_, ?_⟩
  · refine List.Nodup.map (fun a b h => congrArg Pos.number h) ?_
    exact (nodup_append.mp hnumbers).1
  · refine nodup_flatMap.mpr ⟨fun n _ => childPositions_nodup m _, ?_⟩
    refine hnumbers.imp fun {a b} hab p hpa hpb => hab ?_
    exact ((mem_childPositions_iff_div hm).mp hpa).2.symm.trans
      ((mem_childPositions_iff_div hm).mp hpb).2
  · -- the levels differ
    rintro p hp q hq rfl
    obtain ⟨n, -, rfl⟩ := mem_map.mp hp
    obtain ⟨n', -, hq⟩ := mem_flatMap.mp hq
    have := ((mem_childPositions_iff_div hm).mp hq).1
    simp at this

end

omit hm in
/-- Both loops of `getCoverArea` together. -/
theorem covered_eq (hbound : m ^ L + 2 * m ≤ 2 ^ 32) (hi : i < dsnCount m L) :
    coveredLeft (dsnNumbers m L) i (dsnNumber m L i) ++
      coveredRight (dsnNumbers m L) (u32 (m ^ L - 1)) i (dsnNumber m L i) =
    coveredNumbers m L i := by
  have hmax : u32 (m ^ L - 1) = m ^ L - 1 := Nat.mod_eq_of_lt (by omega)
  have hleft : coveredLeft (dsnNumbers m L) i (dsnNumber m L i) =
      range' (coverLow m L i) (dsnNumber m L i - coverLow m L i) := by
    unfold coveredLeft coverLow
    cases i with
    | zero => rfl
    | succ i =>
      rw [if_neg (by omega), if_neg (by omega), Nat.add_sub_cancel,
        getD_dsnNumbers (by omega)]
  have hright : coveredRight (dsnNumbers m L) (u32 (m ^ L - 1)) i (dsnNumber m L i) =
      range' (dsnNumber m L i + 1) (coverHigh m L i - dsnNumber m L i) := by
    unfold coveredRight coverHigh
    rw [hmax, length_dsnNumbers]
    by_cases hlast : i = dsnCount m L - 1
    · rw [if_pos hlast, if_pos hlast]
    · rw [if_neg hlast, if_neg hlast, getD_dsnNumbers (by omega)]
  rw [hleft, hright]
  rfl

theorem getCoverArea_eq (hL : L % 2 = 0) (hfits : Fits m L) (hi : i < dsnCount m L) :
    getCoverArea m ⟨L, dsnNumber m L i⟩ = .ok (coverArea m L i) := by
  unfold getCoverArea
  by_cases h0 : L = 0
  · subst h0
    have hi0 : i = 0 := by simpa [dsnCount] using hi
    subst hi0
    simp [dsnNumber, coverArea, coveredNumbers, coverLow, coverHigh, dsnCount, childPositions,
      Pos.child]
  have hcovered : ((coveredNumbers m L i).map (Pos.mk L)).mapM (calcChildren m) =
      .ok (((coveredNumbers m L i).map (Pos.mk L)).map (childPositions m)) := by
    refine mapM_ok fun p hp => ?_
    obtain ⟨n, hn, rfl⟩ := mem_map.mp hp
    exact Fits.calcChildren_eq hm hfits (coveredNumbers_lt hm hi hn)
  rw [if_neg (by simp [h0])]
  simp only [getDSNSet_eq hm hfits, bind, Except.bind, idxOf?_dsnNumbers hm hi,
    covered_eq (hfits.pow_add_le hm) hi]
  rw [show (fun i => (⟨L, i⟩ : Pos)) = Pos.mk L from rfl, hcovered]
  have hown : (⟨L, dsnNumber m L i⟩ : Pos).Valid m := dsnNumber_lt_pow hm i
  simp only [Fits.calcChildren_eq hm hfits hown]
  simp [coverArea, flatMap, pure, Except.pure, Function.comp_def]

/-- Only DSNs have a cover area. -/
theorem getCoverArea_eq_nil (hL : L % 2 = 0) (hfits : Fits m L) (hn : n ∉ dsnNumbers m L) :
    getCoverArea m ⟨L, n⟩ = .ok [] := by
  have hroot : ¬ (L = 0 ∧ n = 0) := by
    rintro ⟨rfl, rfl⟩
    exact hn (by simp [dsnNumbers, dsnCount, dsnNumber])
  have hidx : (dsnNumbers m L).idxOf? n = none := by
    rw [idxOf?, findIdx?_eq_none_iff]
    intro d hd
    simpa using fun h : d = n => hn (h ▸ hd)
  unfold getCoverArea
  rw [if_neg hroot]
  simp only [getDSNSet_eq hm hfits, bind, Except.bind, hidx]
  rfl

end Cover

/-- On an even level, every position of the level and of the level below
belongs to exactly one DSN, and no cover area lists a position twice. -/
theorem coverAreas_partition {m L : ℕ} (hm : isFanoutValid m = true) (hL : L % 2 = 0)
    (hfits : m ^ (L + 1) ≤ 2 ^ 32) :
    ∃ dsnSet, getDSNSet m L = .ok dsnSet ∧
      (∀ n, ∃ area, getCoverArea m ⟨L, n⟩ = .ok area ∧ area.Nodup) ∧
      ∀ p : Pos, p.Valid m → p.level = L ∨ p.level = L + 1 →
        ∃! d, d ∈ dsnSet ∧
          ∃ area, getCoverArea m ⟨L, d⟩ = .ok area ∧ (p = ⟨L, d⟩ ∨ p ∈ area) := by
  have hm2 := isFanoutValid_iff.mp hm
  have hcons := consecutive_cover hm (L := L)
  have hpos := dsnCount_pos hm2.1 hL
  refine ⟨dsnNumbers m L, getDSNSet_eq hm hfits, fun n => ?_, fun p hp hlevel => ?_⟩
  · by_cases hn : n ∈ dsnNumbers m L
    · obtain ⟨i, hi, rfl⟩ := mem_dsnNumbers.mp hn
      exact ⟨_, getCoverArea_eq hm hL hfits hi, coverArea_nodup hm hi⟩
    · exact ⟨[], getCoverArea_eq_nil hm hL hfits hn, nodup_nil⟩
  -- the number on the DSN level that decides who is responsible
  set x := if p.level = L then p.number else p.number / m with hx
  have hxle : x ≤ m ^ L - 1 := by
    unfold Pos.Valid at hp
    rcases hlevel with hl | hl
    · rw [hx, if_pos hl]
      rw [hl] at hp
      omega
    · have hdiv : p.number / m < m ^ L :=
        Nat.div_lt_of_lt_mul (by rw [← pow_succ', ← hl]; exact hp)
      rw [hx, if_neg (by omega)]
      omega
  have hresp : ∀ i, i < dsnCount m L → (p = ⟨L, dsnNumber m L i⟩ ∨ p ∈ coverArea m L i ↔
      coverLow m L i ≤ x ∧ x ≤ coverHigh m L i) := by
    intro i hi
    rw [mem_coverArea hm hi, hx]
    rcases hlevel with hl | hl
    · simp [hl]
    · simp [hl]
  obtain ⟨i, hi, hin⟩ := hcons.exists_index hpos hxle
  refine ⟨dsnNumber m L i, ⟨mem_dsnNumbers.mpr ⟨i, hi, rfl⟩, _, getCoverArea_eq hm hL hfits hi,
    (hresp i hi).mpr hin⟩, ?_⟩
  rintro d ⟨hd, area, harea, hmem⟩
  obtain ⟨j, hj, rfl⟩ := mem_dsnNumbers.mp hd
  rw [getCoverArea_eq hm hL hfits hj] at harea
  obtain rfl := Except.ok.inj harea
  rw [hcons.index_unique hj ((hresp j hj).mp hmem) hi hin]

theorem coverAreas_partition_levelTwo :
    ∃ dsnSet, getDSNSet 3 2 = .ok dsnSet ∧
      (∀ n, ∃ area, getCoverArea 3 ⟨2, n⟩ = .ok area ∧ area.Nodup) ∧
      ∀ p : Pos, p.Valid 3 → p.level = 2 ∨ p.level = 2 + 1 →
        ∃! d, d ∈ dsnSet ∧
          ∃ area, getCoverArea 3 ⟨2, d⟩ = .ok area ∧ (p = ⟨2, d⟩ ∨ p ∈ area) :=
  coverAreas_partition (by decide) (by decide) (by decide)

/-! ### Levels whose last number is the last one of its type -/

/-- The loop of `calcPrioSet`, which tests the counter before and after adding to it. -/
def prioLoop (m maxNum : ℕ) : ℕ → ℕ → Finset ℕ → Except String (Finset ℕ)
  | 0, _, _ => .error "endless loop"
  | rounds + 1, i, prioSet =>
    if i ≤ maxNum then
      let i := u32 (i + 2 * m)
      prioLoop m maxNum rounds i (if i ≤ maxNum then insert i prioSet else prioSet)
    else .ok prioSet

/-- The nodes of a level that are preferred when a new node is to be accepted. -/
def calcPrioSet (m level : ℕ) : Except String (Finset ℕ) :=
  if level = 0 then .ok {0}
  else if level = 1 then .ok {half m}
  else do
    let maxNum := u32 (m ^ level - 1)
    let prioSet ← prioLoop m maxNum (2 ^ 32) m {m}
    let lastPrio := prioSet.sup id
    let candidate := u32 (maxNum + 2 ^ 32 - m)
    return if lastPrio < candidate then insert candidate prioSet else prioSet

theorem u32_lt (n : ℕ) : u32 n < 2 ^ 32 := Nat.mod_lt _ (by decide)

/-- No counter exceeds the largest number of its type. -/
theorem dsnLoop_endless (rounds : ℕ) (hi : i < 2 ^ 32) :
    dsnLoop m (2 ^ 32 - 1) rounds i = .error "endless loop" := by
  induction rounds generalizing i with
  | zero => rfl
  | succ rounds ih =>
    rw [dsnLoop, if_pos (by omega), ih (u32_lt _)]
    rfl

theorem prioLoop_endless (rounds : ℕ) (hi : i < 2 ^ 32) (prioSet : Finset ℕ) :
    prioLoop m (2 ^ 32 - 1) rounds i prioSet = .error "endless loop" := by
  induction rounds generalizing i prioSet with
  | zero => rfl
  | succ rounds ih =>
    rw [prioLoop, if_pos (by omega)]
    exact ih (u32_lt _) _

/-- The loop ends if the counter does not wrap around, and it only collects numbers of the
level. -/
theorem prioLoop_ok {maxNum : ℕ} (hbound : maxNum + 2 * m < 2 ^ 32) (rounds : ℕ)
    (hi : i ≤ maxNum + 2 * m) (hrounds : maxNum + 2 * m < i + rounds) (hm : 0 < m)
    {prioSet : Finset ℕ} (hset : ∀ n ∈ prioSet, n ≤ maxNum) :
    ∃ found, prioLoop m maxNum rounds i prioSet = .ok found ∧ ∀ n ∈ found, n ≤ maxNum := by
  induction rounds generalizing i prioSet with
  | zero => omega
  | succ rounds ih =>
    unfold prioLoop
    split_ifs with hle
    · have hnext : u32 (i + 2 * m) = i + 2 * m := Nat.mod_eq_of_lt (by omega)
      simp only [hnext]
      refine ih (by omega) (by omega) fun n hn => ?_
      split_ifs at hn with hinsert
      · rcases Finset.mem_insert.mp hn with rfl | hn
        · exact hinsert
        · exact hset n hn
      · exact hset n hn
    · exact ⟨prioSet, rfl, hset⟩

theorem calcPrioSet_ok (hm : isFanoutValid m = true) (hbound : m ^ L + 2 * m ≤ 2 ^ 32) :
    ∃ prioSet, calcPrioSet m L = .ok prioSet ∧ ∀ n ∈ prioSet, n < m ^ L := by
  have hm2 := isFanoutValid_iff.mp hm
  unfold calcPrioSet
  split_ifs with h0 h1
  · exact ⟨{0}, rfl, by simp [h0]⟩
  · exact ⟨{half m}, rfl, by simpa [h1] using half_lt hm2.1⟩
  · have hlt : m < m ^ L := by
      calc m = m ^ 1 := (pow_one m).symm
        _ < m ^ L := Nat.pow_lt_pow_right hm2.1 (by omega)
    have hmax : u32 (m ^ L - 1) = m ^ L - 1 := Nat.mod_eq_of_lt (by omega)
    obtain ⟨found, hfound, hle⟩ := prioLoop_ok (m := m) (i := m)
      (show m ^ L - 1 + 2 * m < 2 ^ 32 by omega) (2 ^ 32) (by omega) (by omega) (by omega)
      (show ∀ n ∈ ({m} : Finset ℕ), n ≤ m ^ L - 1 by simp; omega)
    have hcandidate : u32 (m ^ L - 1 + 2 ^ 32 - m) = m ^ L - 1 - m := by
      rw [u32, show m ^ L - 1 + 2 ^ 32 - m = m ^ L - 1 - m + 2 ^ 32 by omega,
        Nat.add_mod_right, Nat.mod_eq_of_lt (by omega)]
    simp only [hmax, hfound, hcandidate, bind, Except.bind, pure, Except.pure]
    refine ⟨_, rfl, fun n hn => ?_⟩
    split_ifs at hn
    · rcases Finset.mem_insert.mp hn with rfl | hn
      · omega
      · exact Nat.lt_of_le_pred (by omega) (hle n hn)
    · exact Nat.lt_of_le_pred (by omega) (hle n hn)

/-- No power of a fanout is close to `2 ^ 32` from below. -/
theorem pow_add_le_of_lt (hm : isFanoutValid m = true) (hL : m ^ L < 2 ^ 32) :
    m ^ L + 2 * m ≤ 2 ^ 32 := by
  have hm2 := isFanoutValid_iff.mp hm
  have hlevel : L < 32 := (Nat.pow_lt_pow_iff_right (by omega)).mp
    ((Nat.pow_le_pow_left hm2.1 L).trans_lt hL)
  have hall : ∀ m < 256, ∀ L < 32, m ^ L < 2 ^ 32 → m ^ L + 2 * m ≤ 2 ^ 32 := by decide +kernel
  exact hall m (by omega) L hlevel hL

/-- The sets of a level are computed, and hold numbers of the level, unless its last number
is the largest one of its type. -/
theorem sets_computed_iff (hm : isFanoutValid m = true) (hL : m ^ L ≤ 2 ^ 32) :
    ((∃ dsnSet, getDSNSet m L = .ok dsnSet ∧ ∀ n ∈ dsnSet, n < m ^ L) ∧
        ∃ prioSet, calcPrioSet m L = .ok prioSet ∧ ∀ n ∈ prioSet, n < m ^ L) ↔
      m ^ L < 2 ^ 32 := by
  have hm2 := isFanoutValid_iff.mp hm
  constructor
  · rintro ⟨-, prioSet, hprio, -⟩
    by_contra hge
    have heq : m ^ L = 2 ^ 32 := by omega
    have h0 : L ≠ 0 := by
      rintro rfl
      simp at heq
    have h1 : L ≠ 1 := by
      rintro rfl
      rw [pow_one] at heq
      omega
    rw [calcPrioSet, if_neg h0, if_neg h1, heq] at hprio
    have hmax : u32 (2 ^ 32 - 1) = 2 ^ 32 - 1 := by decide
    simp only [hmax, prioLoop_endless _ (show m < 2 ^ 32 by omega)] at hprio
    cases hprio
  · intro hlt
    have hbound := pow_add_le_of_lt hm hlt
    refine ⟨⟨dsnNumbers m L, getDSNSet_eq_of_le hm hbound, fun n hn => ?_⟩,
      calcPrioSet_ok hm hbound⟩
    obtain ⟨i, -, rfl⟩ := mem_dsnNumbers.mp hn
    exact dsnNumber_lt_pow hm i

theorem sets_computed_ternary :
    (∃ dsnSet, getDSNSet 3 20 = .ok dsnSet ∧ ∀ n ∈ dsnSet, n < 3 ^ 20) ∧
      ∃ prioSet, calcPrioSet 3 20 = .ok prioSet ∧ ∀ n ∈ prioSet, n < 3 ^ 20 :=
  (sets_computed_iff (by decide) (by decide)).mpr (by decide)

/-- In a binary tree both loops run for ever on level 32. -/
theorem sets_not_computed :
    isFanoutValid 2 = true ∧ 2 ^ 32 ≤ 2 ^ 32 ∧ getDSNSet 2 32 = .error "endless loop" ∧
      calcPrioSet 2 32 = .error "endless loop" := by
  have hmax : u32 (2 ^ 32 - 1) = 2 ^ 32 - 1 := by decide
  refine ⟨by decide, le_rfl, ?_, ?_⟩
  · rw [getDSNSet, if_neg (by decide), if_neg (by decide)]
    simp only [hmax, dsnLoop_endless _ (show 2 < 2 ^ 32 by decide)]
    rfl
  · rw [calcPrioSet, if_neg (by decide), if_neg (by decide)]
    simp only [hmax, prioLoop_endless _ (show 2 < 2 ^ 32 by decide)]
    rfl

end Sola.Minhton
