import Sola.Lib.Distances
import Sola.Lib.MaryTree
import Sola.Lib.Throwing

/-!
The arithmetic of tree positions (`minhton/src/core/routing_calculations.cpp`).

The fanout of a network is the parameter `m`.  Numbers and levels are
natural numbers; where the source computes in `uint32_t` or `uint16_t` and
the result depends on it, the reduction is written out with `u32` and `u16`.
Horizontal values are exact rationals.
-/

namespace Sola.Minhton

open Sola.Lib Sola.Lib.MaryTree Sola.Lib.Distances List Nat

def kFanoutMinimum : ℕ := 2
def kFanoutMaximum : ℕ := 255
def kTreeMapperRootValue : ℕ := 100

/-- Conversion to `uint32_t`. -/
def u32 (n : ℕ) : ℕ := n % 2 ^ 32

/-- One less than a value of type `uint32_t`. -/
def u32Pred (n : ℕ) : ℕ := if n = 0 then 2 ^ 32 - 1 else n - 1

/-- Conversion to `uint64_t`. -/
def u64 (n : ℕ) : ℕ := n % 2 ^ 64

/-- Conversion to `uint16_t`. -/
def u16 (n : ℕ) : ℕ := n % 2 ^ 16

def isFanoutValid (fanout : ℕ) : Bool :=
  if fanout < kFanoutMinimum then false
  else if fanout > kFanoutMaximum then false
  else true

def isPositionValid (m : ℕ) (p : Pos) : Bool :=
  if !isFanoutValid m then false
  else if p.number > m ^ p.level - 1 then false
  else true

def calcParent (m : ℕ) (p : Pos) : Except String Pos :=
  if !isPositionValid m p then .error "Invalid Position"
  else if p.level = 0 then .error "Cannot get the parent of root"
  else
    let t := p.number - p.number % m
    let offset := if t % m ≠ 0 then 1 else 0
    .ok ⟨p.level - 1, t / m + offset⟩

/-- One pass of the loop of `calcChildren`: the number may have wrapped. -/
def calcChild (m : ℕ) (p : Pos) (i : ℕ) : Except String Pos :=
  let number := u32 (u32 (p.number * m) + i)
  if number < p.number then .error "Overflow in Number"
  else .ok ⟨p.level + 1, number⟩

def calcChildren (m : ℕ) (p : Pos) : Except String (List Pos) :=
  if !isPositionValid m p then .error "Invalid Position"
  else if p.level = 2 ^ 32 - 1 then .error "Overflow in Level"
  else (List.range m).mapM (calcChild m p)

/-- The distances `d * m ^ i` of routing table neighbors.  Powers are exact;
the source stores the distances as `uint32_t`. -/
def routingSequence (m level : ℕ) : List ℕ :=
  (List.range (u32 ((m - 1) * level))).flatMap fun i =>
    (List.range (m - 1)).map fun d => u32 ((d + 1) * m ^ i)

def calcRoutingSequence (m level : ℕ) : Except String (List ℕ) :=
  if !isFanoutValid m then .error "Invalid Fanout"
  else .ok (routingSequence m level)

def calcLeftRT (m : ℕ) (p : Pos) : Except String (List Pos) :=
  if !isPositionValid m p then .error "Invalid Position"
  else do
    let seq ← calcRoutingSequence m p.level
    return (seq.takeWhile (· ≤ p.number)).map fun i => ⟨p.level, p.number - i⟩

/-- The loop of `calcRightRT`, which leaves the level on the right or throws
when a number wraps. -/
def rightRTLoop (p : Pos) (maxNumber : ℕ) : List ℕ → Except String (List Pos)
  | [] => .ok []
  | i :: seq =>
    let k := u32 (p.number + i)
    if k ≥ maxNumber then .ok []
    else if k < p.number then .error "Overflow in Number"
    else do
      let rest ← rightRTLoop p maxNumber seq
      return ⟨p.level, k⟩ :: rest

def calcRightRT (m : ℕ) (p : Pos) : Except String (List Pos) :=
  if !isPositionValid m p then .error "Invalid Position"
  else do
    let seq ← calcRoutingSequence m p.level
    rightRTLoop p (u64 (m ^ p.level)) seq

/-- The interval of a subtree and the point of its root inside it. -/
structure Bounds where
  lower : ℚ
  upper : ℚ
  center : ℚ

/-- The point between the first `⌈m/2⌉` and the remaining parts of an
interval. -/
def boundsOf (m : ℕ) (lower upper : ℚ) : Bounds :=
  ⟨lower, upper, lower + (upper - lower) / m * half m⟩

/-- The recursion of `treeMapperInternal`.  The parent's level and number are
kept in variables of type `uint16_t`.  The level decreases in every call, so
`level` rounds are enough. -/
def treeMapperRec (m K : ℕ) : ℕ → ℕ → ℕ → Bounds
  | 0, _, _ => boundsOf m 0 (K / half m * m)
  | fuel + 1, level, number =>
    if level = 0 then boundsOf m 0 (K / half m * m)
    else
      let parent := treeMapperRec m K fuel (u16 (level - 1))
        (u16 ((number - number % m) / m))
      let width := (parent.upper - parent.lower) / m
      let lower := parent.lower + width * (number % m : ℕ)
      boundsOf m lower (lower + width)

def treeMapperInternal (m K level number : ℕ) : Bounds :=
  treeMapperRec m K level level number

def treeMapper (m level number K : ℕ) : ℚ :=
  (treeMapperInternal m K level number).center

/-- `LogicalNodeInfo::getHorizontalValue`. -/
def horizontalValue (m : ℕ) (p : Pos) : ℚ :=
  treeMapper m p.level p.number kTreeMapperRootValue

/-! ### Parents and children -/

variable {m : ℕ} {p q : Pos}

theorem isFanoutValid_iff : isFanoutValid m = true ↔ 2 ≤ m ∧ m ≤ 255 := by
  unfold isFanoutValid kFanoutMinimum kFanoutMaximum
  split_ifs <;> simp <;> omega

theorem isFanoutValid_of_isPositionValid (h : isPositionValid m p = true) :
    isFanoutValid m = true := by
  unfold isPositionValid at h
  split_ifs at h with hm
  simpa using hm

theorem isPositionValid_iff (hm : isFanoutValid m = true) :
    isPositionValid m p = true ↔ p.Valid m := by
  have hpow : 0 < m ^ p.level := Nat.pow_pos (by
    have := isFanoutValid_iff.mp hm
    omega)
  unfold isPositionValid Pos.Valid
  simp only [hm, Bool.not_true, Bool.false_eq_true, if_false]
  split_ifs <;> simp <;> omega

theorem calcParent_eq (hm : isFanoutValid m = true) (hp : p.Valid m) (hl : p.level ≠ 0) :
    calcParent m p = .ok (p.parent m) := by
  have hm0 : 0 < m := by
    have := isFanoutValid_iff.mp hm
    omega
  have hdiv : m ∣ p.number - p.number % m := dvd_sub_mod _
  have hmod : (p.number - p.number % m) % m = 0 := mod_eq_zero_of_dvd hdiv
  have hquot : (p.number - p.number % m) / m = p.number / m := by
    have h := div_add_mod p.number m
    rw [Nat.sub_eq_of_eq_add h.symm, Nat.mul_div_cancel_left _ hm0]
  unfold calcParent
  simp [(isPositionValid_iff hm).mpr hp, hl, hmod, hquot, Pos.parent]

/-- The children of a position, without the wrap-around of the source. -/
def childPositions (m : ℕ) (p : Pos) : List Pos :=
  (List.range m).map (p.child m)

theorem mem_childPositions :
    q ∈ childPositions m p ↔ q.level = p.level + 1 ∧ p.number * m ≤ q.number ∧
      q.number < p.number * m + m := by
  obtain ⟨l, n⟩ := q
  simp only [childPositions, mem_map, mem_range]
  constructor
  · rintro ⟨c, hc, h⟩
    obtain ⟨rfl, rfl⟩ := Pos.mk.inj h
    exact ⟨rfl, by omega, by omega⟩
  · rintro ⟨rfl, h1, h2⟩
    exact ⟨n - p.number * m, by omega, by simp only [Pos.child]; congr; omega⟩

theorem childPositions_valid (hp : p.Valid m) (hq : q ∈ childPositions m p) :
    q.level = p.level + 1 ∧ q.Valid m := by
  obtain ⟨c, hc, rfl⟩ := mem_map.mp hq
  exact ⟨rfl, hp.child (mem_range.mp hc)⟩

/-- A position of the next level is a child of its parent. -/
theorem mem_childPositions_iff_div (hm : isFanoutValid m = true) :
    q ∈ childPositions m p ↔ q.level = p.level + 1 ∧ q.number / m = p.number := by
  have hm0 : 0 < m := by have := isFanoutValid_iff.mp hm; omega
  rw [mem_childPositions]
  refine and_congr_right fun _ => ⟨fun h => ?_, fun h => ?_⟩
  · exact Nat.div_eq_of_lt_le h.1 (by rw [succ_mul]; omega)
  · rw [← h, Nat.mul_comm]
    exact ⟨mul_div_le _ _, lt_mul_div_succ _ hm0⟩

/-- The children of two different positions of a level are different. -/
theorem eq_of_mem_childPositions {p' : Pos} (hl : p.level = p'.level) (h : q ∈ childPositions m p)
    (h' : q ∈ childPositions m p') : p = p' := by
  obtain ⟨-, h1, h2⟩ := mem_childPositions.mp h
  obtain ⟨-, h1', h2'⟩ := mem_childPositions.mp h'
  have hm : 0 < m := by omega
  have hn : p.number = q.number / m := by
    refine (Nat.div_eq_of_lt_le ?_ ?_).symm
    · omega
    · rw [succ_mul]; omega
  have hn' : p'.number = q.number / m := by
    refine (Nat.div_eq_of_lt_le ?_ ?_).symm
    · omega
    · rw [succ_mul]; omega
  exact Pos.ext_iff'.mpr ⟨hl, hn.trans hn'.symm⟩

theorem childPositions_nodup (m : ℕ) (p : Pos) : (childPositions m p).Nodup := by
  refine Nodup.map_on (fun c _ c' _ h => ?_) nodup_range
  have := congrArg Pos.number h
  simp only [Pos.child] at this
  omega

/-- Children numbers that fit into 32 bits are computed without throwing. -/
theorem calcChildren_eq (hm : isFanoutValid m = true) (hp : p.Valid m) (hl : p.level < 2 ^ 32 - 1)
    (hn : (p.number + 1) * m ≤ 2 ^ 32) : calcChildren m p = .ok (childPositions m p) := by
  have hm2 := isFanoutValid_iff.mp hm
  have hne : p.level ≠ 2 ^ 32 - 1 := by omega
  unfold calcChildren
  simp only [(isPositionValid_iff hm).mpr hp, Bool.not_true, Bool.false_eq_true,
    if_false, hne]
  refine mapM_ok fun i hi => ?_
  have hi' : i < m := mem_range.mp hi
  have hlt : p.number * m + i < 2 ^ 32 := by
    rw [Nat.add_mul, Nat.one_mul] at hn
    omega
  have hge : p.number ≤ p.number * m := Nat.le_mul_of_pos_right _ (by omega)
  have h1 : u32 (p.number * m) = p.number * m := mod_eq_of_lt (by omega)
  have h2 : u32 (p.number * m + i) = p.number * m + i := mod_eq_of_lt hlt
  unfold calcChild
  simp only [h1, h2]
  rw [if_neg (by omega)]
  rfl

/-! ### The horizontal value -/

theorem u16_of_lt {n : ℕ} (h : n < 65536) : u16 n = n := mod_eq_of_lt h

/-- Without truncation the bounds of a position are its share of the root
interval. -/
theorem treeMapperRec_eq (hm : 2 ≤ m) (K : ℕ) :
    ∀ level number : ℕ, number < m ^ level → level ≤ 65536 →
      number / m < 65536 →
      treeMapperRec m K level level number =
        boundsOf m (K / half m * m * (number / (m : ℚ) ^ level))
          (K / half m * m * ((number + 1) / (m : ℚ) ^ level)) := by
  have hm0 : (m : ℚ) ≠ 0 := by exact_mod_cast (by omega : m ≠ 0)
  intro level
  induction level with
  | zero =>
    intro number hvalid _ _
    have h0 : number = 0 := by simpa using hvalid
    subst h0
    simp [treeMapperRec]
  | succ level ih =>
    intro number hvalid hlevel hparent
    -- the parent's number, and the number recovered from it
    have hquot : (number - number % m) / m = number / m := by
      have h := div_add_mod number m
      rw [Nat.sub_eq_of_eq_add h.symm, Nat.mul_div_cancel_left _ (by omega)]
    have hsplit : (number : ℚ) = (number / m : ℕ) * m + (number % m : ℕ) := by
      have h := div_add_mod number m
      rw [Nat.mul_comm] at h
      exact_mod_cast h.symm
    have hvalid' : number / m < m ^ level :=
      Nat.div_lt_of_lt_mul (by rw [pow_succ'] at hvalid; exact hvalid)
    have hgrand : number / m / m < 65536 :=
      lt_of_le_of_lt (Nat.div_le_self _ _) hparent
    have hrec := ih (number / m) hvalid' (by omega) hgrand
    unfold treeMapperRec
    rw [if_neg (by omega), hquot, u16_of_lt hparent,
      u16_of_lt (by omega : level + 1 - 1 < 65536), Nat.add_sub_cancel, hrec]
    simp only [boundsOf]
    congr 1
    · rw [pow_succ, hsplit]; field_simp; ring
    · rw [pow_succ, hsplit]; field_simp; ring
    · rw [pow_succ, hsplit]; field_simp; ring

/-- The positions whose horizontal value is not reached by the 16 bit
variables of `treeMapperInternal`. -/
def Exact (m : ℕ) (p : Pos) : Prop := p.level ≤ 65536 ∧ p.number / m < 65536

instance (m : ℕ) (p : Pos) : Decidable (Exact m p) :=
  inferInstanceAs (Decidable (_ ∧ _))

theorem horizontalValue_eq (hm : 2 ≤ m) (hp : p.Valid m) (he : Exact m p) :
    horizontalValue m p = kTreeMapperRootValue / half m * m * key m p := by
  have hm0 : (m : ℚ) ≠ 0 := by exact_mod_cast (by omega : m ≠ 0)
  unfold horizontalValue treeMapper treeMapperInternal
  rw [treeMapperRec_eq hm _ _ _ hp he.1 he.2]
  simp only [boundsOf, key]
  rw [pow_succ]
  field_simp
  ring

/-- The order of the horizontal values is the in-order. -/
theorem horizontalValue_lt_iff (hm : 2 ≤ m) (hp : p.Valid m) (hpe : Exact m p) (hq : q.Valid m)
    (hqe : Exact m q) : horizontalValue m p < horizontalValue m q ↔ Before m p q := by
  have hhalf : (0 : ℚ) < half m := by exact_mod_cast half_pos hm
  have hm0 : (0 : ℚ) < m := by exact_mod_cast (by omega : 0 < m)
  have hU : (0 : ℚ) < (kTreeMapperRootValue : ℕ) / half m * m := by
    have : (0 : ℚ) < (kTreeMapperRootValue : ℕ) := by norm_num [kTreeMapperRootValue]
    positivity
  rw [horizontalValue_eq hm hp hpe, horizontalValue_eq hm hq hqe,
    mul_lt_mul_iff_right₀ hU]
  exact Iff.rfl

theorem horizontalValue_injective (hm : 2 ≤ m) (hp : p.Valid m) (hpe : Exact m p) (hq : q.Valid m)
    (hqe : Exact m q) (h : horizontalValue m p = horizontalValue m q) : p = q := by
  by_contra hne
  rcases before_or_before hm hne with hb | hb
  · exact absurd h (ne_of_lt ((horizontalValue_lt_iff hm hp hpe hq hqe).mpr hb))
  · exact absurd h.symm (ne_of_lt ((horizontalValue_lt_iff hm hq hqe hp hpe).mpr hb))

/-! ### Levels small enough for the fixed-width arithmetic

On a level whose children have 32 bit numbers nothing overflows.  On a level
whose parents have numbers below 65536 nothing is truncated either.
-/

/-- The numbers of the children of level `L` fit into 32 bits. -/
def Fits (m L : ℕ) : Prop := m ^ (L + 1) ≤ 2 ^ 32

/-- All positions of level `L` have parent numbers below 65536. -/
def Small (m L : ℕ) : Prop := m ^ L ≤ 65536 * m

instance (m L : ℕ) : Decidable (Fits m L) := inferInstanceAs (Decidable (_ ≤ _))

instance (m L : ℕ) : Decidable (Small m L) := inferInstanceAs (Decidable (_ ≤ _))

section Small

variable {m L : ℕ} (hm : isFanoutValid m = true)
include hm

theorem Fits.mono (hL : Fits m L) {l : ℕ} (h : l ≤ L) : Fits m l :=
  le_trans (Nat.pow_le_pow_right (by have := isFanoutValid_iff.mp hm; omega)
    (Nat.add_le_add_right h 1)) hL

theorem Fits.level_lt (hL : Fits m L) : L < 32 := by
  have hm2 := isFanoutValid_iff.mp hm
  have h1 : 2 ^ (L + 1) ≤ m ^ (L + 1) := Nat.pow_le_pow_left hm2.1 _
  have h2 : 2 ^ (L + 1) ≤ 2 ^ 32 := le_trans h1 hL
  have := (Nat.pow_le_pow_iff_right (by omega)).mp h2
  omega

theorem Fits.two_mul_pow_le (hL : Fits m L) : 2 * m ^ L ≤ 2 ^ 32 := by
  have hm2 := isFanoutValid_iff.mp hm
  have h := Nat.mul_le_mul_right (m ^ L) hm2.1
  unfold Fits at hL
  rw [pow_succ'] at hL
  omega

theorem Small.fits (hL : Small m L) : Fits m L := by
  have hm2 := isFanoutValid_iff.mp hm
  unfold Fits
  calc m ^ (L + 1) = m ^ L * m := pow_succ m L
    _ ≤ 65536 * m * m := Nat.mul_le_mul_right m hL
    _ ≤ 65536 * 255 * 255 := Nat.mul_le_mul (Nat.mul_le_mul_left _ hm2.2) hm2.2
    _ ≤ 2 ^ 32 := by norm_num

theorem Small.mono (hL : Small m L) {l : ℕ} (h : l ≤ L) : Small m l :=
  le_trans (Nat.pow_le_pow_right (by have := isFanoutValid_iff.mp hm; omega) h) hL

theorem Small.exact {p : Pos} (hL : Small m p.level) (hp : p.Valid m) : Exact m p := by
  have hlevel := Fits.level_lt hm (Small.fits hm hL)
  refine ⟨by omega, ?_⟩
  have h : p.number < 65536 * m := lt_of_lt_of_le hp hL
  exact Nat.div_lt_of_lt_mul (by rw [Nat.mul_comm]; exact h)

theorem Fits.calcChildren_eq {p : Pos} (hL : Fits m p.level) (hp : p.Valid m) :
    calcChildren m p = .ok (childPositions m p) := by
  have hlevel := Fits.level_lt hm hL
  refine Minhton.calcChildren_eq hm hp (by omega) ?_
  calc (p.number + 1) * m ≤ m ^ p.level * m := Nat.mul_le_mul_right m hp
    _ = m ^ (p.level + 1) := (pow_succ m _).symm
    _ ≤ 2 ^ 32 := hL

end Small

/-! ### Routing table neighbors -/

/-- The distances to the left routing table neighbors, nearest first. -/
def leftDistances (m : ℕ) (p : Pos) : List ℕ :=
  (routingSequence m p.level).takeWhile (· ≤ p.number)

/-- The distances to the right routing table neighbors, nearest first. -/
def rightDistances (m : ℕ) (p : Pos) : List ℕ :=
  (routingSequence m p.level).takeWhile (p.number + · < m ^ p.level)

theorem calcLeftRT_eq (hm : isFanoutValid m = true) (hp : p.Valid m) :
    calcLeftRT m p =
      .ok ((leftDistances m p).map fun i => ⟨p.level, p.number - i⟩) := by
  unfold calcLeftRT calcRoutingSequence leftDistances
  simp [(isPositionValid_iff hm).mpr hp, hm, bind, Except.bind, pure, Except.pure]

/-- The loop of `calcRightRT` does not wrap if the first number it rejects
still fits into 32 bits. -/
theorem rightRTLoop_eq {maxNumber : ℕ} (hmax : maxNumber ≤ 2 ^ 32) (seq : List ℕ)
    (hseq : seq.Pairwise (· < ·)) (hstop : ∀ i ∈ seq, p.number + i < maxNumber ∨
      ∃ j ∈ seq, j ≤ i ∧ maxNumber ≤ p.number + j ∧ p.number + j < 2 ^ 32) :
    rightRTLoop p maxNumber seq =
      .ok ((seq.takeWhile (p.number + · < maxNumber)).map fun i =>
        ⟨p.level, p.number + i⟩) := by
  induction seq with
  | nil => rfl
  | cons i seq ih =>
    rw [pairwise_cons] at hseq
    unfold rightRTLoop
    by_cases hi : p.number + i < maxNumber
    · have hk : u32 (p.number + i) = p.number + i := mod_eq_of_lt (by omega)
      have hrest := ih hseq.2 fun i' hi' => by
        rcases hstop i' (by simp [hi']) with h | ⟨j, hj, hji, hmaxj, hj32⟩
        · exact Or.inl h
        · rcases mem_cons.mp hj with rfl | hj
          · omega
          · exact Or.inr ⟨j, hj, hji, hmaxj, hj32⟩
      simp only [hk]
      rw [if_neg (by omega), if_neg (by omega), hrest,
        takeWhile_cons_of_pos (by simpa using hi)]
      rfl
    · -- the first rejected distance: by sortedness it is its own witness
      obtain ⟨j, hj, hji, -, hj32⟩ := (hstop i (by simp)).resolve_left hi
      have hji' : j = i := by
        rcases mem_cons.mp hj with rfl | hj
        · rfl
        · have := hseq.1 j hj; omega
      subst hji'
      have hk : u32 (p.number + j) = p.number + j := mod_eq_of_lt hj32
      simp only [hk]
      rw [if_pos (by omega), takeWhile_cons_of_neg (by simpa using hi)]
      rfl

theorem routingSequence_eq (m level : ℕ) :
    routingSequence m level = (distances m (u32 ((m - 1) * level))).map u32 := by
  unfold routingSequence distances
  rw [map_flatMap]
  simp only [map_map]
  rfl

/-- A loop over ascending distances that breaks before they get too large does
not see the reduction. -/
theorem takeWhile_map_u32 {P : ℕ → Bool} {l : List ℕ} (hl : l.Pairwise (· < ·))
    (hstop : ∀ x ∈ l, x < 2 ^ 32 ∨ ∃ y ∈ l, y < x ∧ P y = false) :
    (l.map u32).takeWhile P = l.takeWhile P := by
  induction l with
  | nil => rfl
  | cons a l ih =>
    rw [pairwise_cons] at hl
    have ha : u32 a = a := by
      apply mod_eq_of_lt
      rcases hstop a (by simp) with h | ⟨y, hy, hya, -⟩
      · exact h
      · rcases mem_cons.mp hy with rfl | hy
        · omega
        · have := hl.1 y hy
          omega
    rw [map_cons, ha]
    cases hP : P a with
    | false =>
      have hne : ¬ P a = true := by simp [hP]
      rw [takeWhile_cons_of_neg hne, takeWhile_cons_of_neg hne]
    | true =>
      rw [takeWhile_cons_of_pos hP, takeWhile_cons_of_pos hP, ih hl.2]
      intro x hx
      rcases hstop x (by simp [hx]) with h | ⟨y, hy, hyx, hPy⟩
      · exact Or.inl h
      · rcases mem_cons.mp hy with rfl | hy
        · rw [hP] at hPy
          cases hPy
        · exact Or.inr ⟨y, hy, hyx, hPy⟩

/-- The loop of `calcRightRT` adds modulo `2 ^ 32` anyway. -/
theorem rightRTLoop_map_u32 (p : Pos) (maxNumber : ℕ) (seq : List ℕ) :
    rightRTLoop p maxNumber (seq.map u32) = rightRTLoop p maxNumber seq := by
  induction seq with
  | nil => rfl
  | cons i seq ih =>
    have hk : u32 (p.number + u32 i) = u32 (p.number + i) := add_mod_mod _ _ _
    rw [map_cons, rightRTLoop, rightRTLoop, hk, ih]

/-! On a level with at most `2 ^ 31` positions the loops leave the level before
anything is reduced. -/

section RoutingTable

variable {m : ℕ} (hm : isFanoutValid m = true) {p : Pos} (hsize : m ^ p.level ≤ 2 ^ 31)
include hm hsize

theorem level_le_of_size : p.level ≤ 31 := by
  have hm2 := isFanoutValid_iff.mp hm
  have h : 2 ^ p.level ≤ 2 ^ 31 := le_trans (Nat.pow_le_pow_left hm2.1 _) hsize
  exact (Nat.pow_le_pow_iff_right (by omega)).mp h

theorem u32_rounds : u32 ((m - 1) * p.level) = (m - 1) * p.level := by
  have hm2 := isFanoutValid_iff.mp hm
  have hlevel := level_le_of_size hm hsize
  have h : (m - 1) * p.level ≤ 254 * 31 := Nat.mul_le_mul (by omega) hlevel
  exact mod_eq_of_lt (by omega)

variable {δ : ℕ}

omit hsize in
/-- Every distance stays on the level, or there is the one that leaves it first. -/
theorem lt_or_pow_mem (hδ : δ ∈ distances m ((m - 1) * p.level)) :
    δ < m ^ p.level ∨
      m ^ p.level ≤ δ ∧ m ^ p.level ∈ distances m ((m - 1) * p.level) := by
  have hm2 := isFanoutValid_iff.mp hm
  obtain ⟨d, e, he, hd, hdm, rfl⟩ := mem_distances.mp hδ
  rcases Nat.lt_or_ge e p.level with hlt | hge
  · -- a distance with a small exponent is below `m ^ level`
    left
    calc d * m ^ e < m * m ^ e := Nat.mul_lt_mul_of_pos_right hdm (Nat.pow_pos (by omega))
      _ = m ^ (e + 1) := (pow_succ' m e).symm
      _ ≤ m ^ p.level := Nat.pow_le_pow_right (by omega) hlt
  · right
    refine ⟨?_, mem_distances.mpr ⟨1, p.level, by omega, by omega, by omega, by simp⟩⟩
    calc m ^ p.level ≤ m ^ e := Nat.pow_le_pow_right (by omega) hge
      _ ≤ d * m ^ e := Nat.le_mul_of_pos_left _ hd

theorem takeWhile_routingSequence {P : ℕ → Bool} (hP : P (m ^ p.level) = false) :
    (routingSequence m p.level).takeWhile P =
      (distances m ((m - 1) * p.level)).takeWhile P := by
  have hm2 := isFanoutValid_iff.mp hm
  rw [routingSequence_eq, u32_rounds hm hsize]
  refine takeWhile_map_u32 (distances_pairwise hm2.1 _) fun δ hδ => ?_
  rcases lt_or_pow_mem hm hδ with h | ⟨h, hmem⟩
  · left
    omega
  · rcases h.eq_or_lt with h | h
    · left
      omega
    · exact Or.inr ⟨_, hmem, h, hP⟩

theorem calcRightRT_eq_of_size (hp : p.Valid m) :
    calcRightRT m p =
      .ok ((rightDistances m p).map fun i => ⟨p.level, p.number + i⟩) := by
  have hm2 := isFanoutValid_iff.mp hm
  have hp' : p.number < m ^ p.level := hp
  have hmax : u64 (m ^ p.level) = m ^ p.level := mod_eq_of_lt (by omega)
  unfold calcRightRT calcRoutingSequence
  simp only [(isPositionValid_iff hm).mpr hp, hm, Bool.not_true, Bool.false_eq_true,
    if_false, bind, Except.bind]
  unfold rightDistances
  rw [takeWhile_routingSequence hm hsize (by simp), routingSequence_eq, u32_rounds hm hsize,
    rightRTLoop_map_u32, hmax]
  refine rightRTLoop_eq (by omega) _ (distances_pairwise hm2.1 _) fun δ hδ => ?_
  rcases Nat.lt_or_ge (p.number + δ) (m ^ p.level) with h | h
  · exact Or.inl h
  · right
    rcases lt_or_pow_mem hm hδ with hlt | ⟨hle, hmem⟩
    · exact ⟨δ, hδ, le_rfl, h, by omega⟩
    · exact ⟨_, hmem, hle, by omega, by omega⟩

omit hsize in
/-- The distances that stay on the level are those of the sequence. -/
theorem mem_distances_of_lt (hlt : δ < m ^ p.level) :
    δ ∈ distances m ((m - 1) * p.level) ↔ IsDist m δ := by
  have hm2 := isFanoutValid_iff.mp hm
  constructor
  · intro hδ
    obtain ⟨d, i, -, hd, hdm, rfl⟩ := mem_distances.mp hδ
    exact ⟨d, i, hd, hdm, rfl⟩
  · rintro ⟨d, i, hd, hdm, rfl⟩
    have hi : i < p.level := exponent_lt hm2.1 hd hlt
    have hle : 1 * p.level ≤ (m - 1) * p.level := Nat.mul_le_mul_right _ (by omega)
    exact mem_distances.mpr ⟨d, i, by omega, hd, hdm, rfl⟩

theorem leftDistances_eq (hp : p.Valid m) :
    leftDistances m p = (distances m ((m - 1) * p.level)).takeWhile (· ≤ p.number) := by
  have hp' : p.number < m ^ p.level := hp
  exact takeWhile_routingSequence hm hsize (by simpa using hp')

theorem rightDistances_eq : rightDistances m p =
    (distances m ((m - 1) * p.level)).takeWhile (p.number + · < m ^ p.level) :=
  takeWhile_routingSequence hm hsize (by simp)

theorem leftDistances_pairwise (hp : p.Valid m) : (leftDistances m p).Pairwise (· < ·) := by
  have hm2 := isFanoutValid_iff.mp hm
  rw [leftDistances_eq hm hsize hp]
  exact pairwise_takeWhile (distances_pairwise hm2.1 _)

theorem rightDistances_pairwise : (rightDistances m p).Pairwise (· < ·) := by
  have hm2 := isFanoutValid_iff.mp hm
  rw [rightDistances_eq hm hsize]
  exact pairwise_takeWhile (distances_pairwise hm2.1 _)

theorem mem_leftDistances_of_size (hp : p.Valid m) :
    δ ∈ leftDistances m p ↔ IsDist m δ ∧ δ ≤ p.number := by
  have hm2 := isFanoutValid_iff.mp hm
  have hp' : p.number < m ^ p.level := hp
  rw [leftDistances_eq hm hsize hp,
    mem_takeWhile_of_pairwise (distances_pairwise hm2.1 _) (by simp; omega), decide_eq_true_eq]
  exact and_congr_left fun hle => mem_distances_of_lt hm (by omega)

theorem mem_rightDistances_of_size :
    δ ∈ rightDistances m p ↔ IsDist m δ ∧ p.number + δ < m ^ p.level := by
  have hm2 := isFanoutValid_iff.mp hm
  rw [rightDistances_eq hm hsize,
    mem_takeWhile_of_pairwise (distances_pairwise hm2.1 _) (by simp; omega), decide_eq_true_eq]
  exact and_congr_left fun hlt => mem_distances_of_lt hm (by omega)

end RoutingTable

section Fits

variable {m : ℕ} (hm : isFanoutValid m = true) {p : Pos} (hL : Fits m p.level)
  (hp : p.Valid m)
include hm hL

omit hp in
theorem Fits.size_le : m ^ p.level ≤ 2 ^ 31 := by
  have h := Fits.two_mul_pow_le hm hL
  omega

include hp in
theorem calcRightRT_eq :
    calcRightRT m p =
      .ok ((rightDistances m p).map fun i => ⟨p.level, p.number + i⟩) :=
  calcRightRT_eq_of_size hm (Fits.size_le hm hL) hp

include hp in
theorem mem_leftDistances {δ : ℕ} :
    δ ∈ leftDistances m p ↔ IsDist m δ ∧ δ ≤ p.number :=
  mem_leftDistances_of_size hm (Fits.size_le hm hL) hp

omit hp in
theorem mem_rightDistances {δ : ℕ} :
    δ ∈ rightDistances m p ↔ IsDist m δ ∧ p.number + δ < m ^ p.level :=
  mem_rightDistances_of_size hm (Fits.size_le hm hL)

end Fits

end Sola.Minhton
