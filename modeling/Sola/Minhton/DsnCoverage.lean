import Mathlib.Data.List.TakeWhile
import Sola.Lib.Transitions
import Sola.Minhton.DsnHandler

/-!
Cover areas over runs of a node.

While a node is an active DSN, its handler should hold the cover area of its
position, with data for exactly those positions that the routing information
knows to be occupied.  The area is built when the handler becomes active and
follows the reported changes of slots from then on.
-/

namespace Sola.Minhton

open Sola.Lib Action Sola.Lib.MaryTree List Function RoutingInformation Except
open RoutingInformation (ofView)

/-! ### What the routing information knows -/

/-- Some slot of the routing information holds a node at `q`. -/
def Occupied (m : ℕ) (p : Pos) (v : Pos → Option Address) (left right : NodeInfo) (q : Pos) :
    Prop :=
  (IsSlot m p q ∧ (v q).isSome = true) ∨
    (left.logical = some q ∧ left.physical.isSome = true) ∨
    (right.logical = some q ∧ right.physical.isSome = true)

namespace RoutingInformation

section Known

variable {m : ℕ} {p q : Pos} {address : Address} {v : Pos → Option Address}
  {left right : NodeInfo}

/-- The known nodes at a position that is not above the own level. -/
theorem occupied_of_mem_known (hlevel : p.level ≤ q.level) {n : NodeInfo}
    (hn : n ∈ (ofView m p address v left right).getAllUniqueKnownExistingNeighbors)
    (hpos : n.pos = q) : n.isInitialized = true ∧ Occupied m p v left right q := by
  have hslots : ∀ positions : List Pos, (∀ r ∈ positions, IsSlot m p r) →
      n ∈ positions.map (slot v) → n.isInitialized = true → Occupied m p v left right q := by
    intro positions hslot hmem hinit
    obtain ⟨r, hr, rfl⟩ := mem_map.mp hmem
    have hrq : r = q := hpos
    subst hrq
    exact Or.inl ⟨hslot r hr, by simpa [slot] using hinit⟩
  rcases known_cases hn with ⟨h0, hn⟩ | ⟨hinit, hn⟩
  · -- the parent is above
    exfalso
    have h0' : p.level ≠ 0 := h0
    have hparent : (ofView m p address v left right).parent = slot v (p.parent m) := if_neg h0'
    rw [hn, hparent] at hpos
    have hl := congrArg Pos.level hpos
    have hup : (slot v (p.parent m)).pos.level = p.level - 1 := rfl
    omega
  · have hphysical := (NodeInfo.isInitialized_iff.mp hinit).2
    refine ⟨hinit, ?_⟩
    rcases hn with rfl | rfl | hn | hn | hn
    · exact Or.inr (Or.inl ⟨NodeInfo.logical_eq_of_pos hinit hpos, hphysical⟩)
    · exact Or.inr (Or.inr ⟨NodeInfo.logical_eq_of_pos hinit hpos, hphysical⟩)
    · exact hslots (childPositions m p) (fun r hr => .child hr) hn hinit
    · exact hslots (tableLayout m p) (fun r hr => .neighbor (mem_tableLayout.mp hr)) hn hinit
    · refine hslots (tableChildLayout m p) (fun r hr => ?_) hn hinit
      obtain ⟨s, hs, hr⟩ := mem_tableChildLayout.mp hr
      exact .neighborChild hs hr

theorem exists_known_of_occupied (hlevel : p.level ≤ q.level)
    (hocc : Occupied m p v left right q) :
    ∃ n ∈ (ofView m p address v left right).getAllUniqueKnownExistingNeighbors,
      n.pos = q := by
  rcases hocc with ⟨hslot, hsome⟩ | ⟨hlog, hphys⟩ | ⟨hlog, hphys⟩
  · have hinit : (slot v q).isInitialized = true := by simpa [slot] using hsome
    refine ⟨slot v q, ?_, rfl⟩
    cases hslot with
    | parent h0 =>
      have : (p.parent m).level = p.level - 1 := rfl
      omega
    | child h => exact child_known (mem_map_of_mem h) hinit
    | neighbor h => exact neighbor_known (mem_map_of_mem (mem_tableLayout.mpr h)) hinit
    | neighborChild hr h =>
      exact neighborChild_known
        (mem_map_of_mem (mem_tableChildLayout.mpr ⟨_, hr, h⟩)) hinit
  · obtain ⟨n, hn, heq⟩ : ∃ n ∈ (ofView m p address v left right)
        |>.getAllUniqueKnownExistingNeighbors, n.logical = left.logical :=
      adjacentLeft_known (NodeInfo.isInitialized_iff.mpr ⟨by simp [ofView, hlog], hphys⟩)
    exact ⟨n, hn, NodeInfo.pos_of_logical (heq.trans hlog)⟩
  · obtain ⟨n, hn, heq⟩ : ∃ n ∈ (ofView m p address v left right)
        |>.getAllUniqueKnownExistingNeighbors, n.logical = right.logical :=
      adjacentRight_known (NodeInfo.isInitialized_iff.mpr ⟨by simp [ofView, hlog], hphys⟩)
    exact ⟨n, hn, NodeInfo.pos_of_logical (heq.trans hlog)⟩

theorem getNodeInfoByPosition_ofView (hq : isPositionValid m q = true)
    (hlevel : p.level ≤ q.level) :
    ∃ n, (ofView m p address v left right).getNodeInfoByPosition m q = .ok n ∧
      (n.isInitialized = true ↔ Occupied m p v left right q) ∧
      (n.isInitialized = true → n.pos = q) := by
  have hself : (ofView m p address v left right).selfNodeInfo.isValidPeer = true := rfl
  rcases getNodeInfoByPosition_cases hself hq with ⟨n, hn, hpos, hlookup⟩ | ⟨hnone, hlookup⟩
  · obtain ⟨hinit, hocc⟩ := occupied_of_mem_known hlevel hn hpos
    exact ⟨n, hlookup, iff_of_true hinit hocc, fun _ => hpos⟩
  · refine ⟨.none, hlookup, iff_of_false (by simp) fun hocc => ?_, fun h => by simp at h⟩
    obtain ⟨n, hn, hpos⟩ : ∃ n ∈ (ofView m p address v left right)
        |>.getAllUniqueKnownExistingNeighbors, n.pos = q := exists_known_of_occupied hlevel hocc
    exact hnone n hn hpos

end Known

end RoutingInformation

/-! ### A node at a position -/

/-- The numbers of the level below do not come close to wrapping. -/
def Roomy (m L : ℕ) : Prop := m ^ (L + 1) + 2 * m ≤ 2 ^ 32

instance (m L : ℕ) : Decidable (Roomy m L) := inferInstanceAs (Decidable (_ ≤ _))

variable {m L : ℕ}

theorem Roomy.fits (h : Roomy m L) : Fits m L := by
  unfold Roomy at h
  unfold Fits
  omega

theorem Roomy.pred (h : Roomy m (L + 1)) (hm : isFanoutValid m = true) : Roomy m L := by
  have hm0 : 0 < m := by
    have := isFanoutValid_iff.mp hm
    omega
  have hpow : m ^ (L + 1) ≤ m ^ (L + 1 + 1) := Nat.pow_le_pow_right hm0 (Nat.le_succ _)
  unfold Roomy at h ⊢
  omega

def IsDsn (m : ℕ) (p : Pos) : Prop := p.number ∈ dsnNumbers m p.level

instance (m : ℕ) (p : Pos) : Decidable (IsDsn m p) := inferInstanceAs (Decidable (_ ∈ _))

theorem level_even_of_mem_dsnNumbers {n : ℕ} (h : n ∈ dsnNumbers m L) : L % 2 = 0 := by
  obtain ⟨i, hi, -⟩ := mem_dsnNumbers.mp h
  by_contra hodd
  have hodd' : L % 2 = 1 := by omega
  have h0 : L ≠ 0 := by omega
  simp [dsnCount, hodd', h0] at hi

theorem areWeDSN_of_fits (hm : isFanoutValid m = true) {p : Pos} (hfits : Fits m p.level)
    {address : Address} {v : Pos → Option Address} {left right : NodeInfo} :
    (ofView m p address v left right).areWeDSN m = .ok (decide (IsDsn m p)) := by
  have hdsn : getDSNSet m p.level = .ok (dsnNumbers m p.level) := getDSNSet_eq hm hfits
  have hself : (ofView m p address v left right).selfNodeInfo.level = p.level := rfl
  unfold areWeDSN
  rw [hself, hdsn]
  refine congrArg ok (Bool.eq_iff_iff.mpr ?_)
  rw [decide_eq_true_iff]
  show (dsnNumbers m p.level).contains p.number = true ↔ p.number ∈ dsnNumbers m p.level
  simp

section Dsn

variable {m : ℕ} (hm : isFanoutValid m = true) {p : Pos} (hp : p.Valid m)
  (hroom : Roomy m p.level) {address : Address} {v : Pos → Option Address}
  {left right : NodeInfo}
include hm hroom

theorem areWeDSN_ofView :
    (ofView m p address v left right).areWeDSN m = .ok (decide (IsDsn m p)) :=
  areWeDSN_of_fits hm hroom.fits

/-- Whether we are a temporary DSN can be told, and a DSN is none. -/
theorem areWeTempDSN_ofView : ∃ b, (ofView m p address v left right).areWeTempDSN m = .ok b ∧
    (IsDsn m p → b = false) := by
  have hbelow : getDSNSet m (p.level + 1) = .ok (dsnNumbers m (p.level + 1)) :=
    getDSNSet_eq_of_le hm hroom
  unfold areWeTempDSN
  rw [areWeDSN_ofView hm hroom]
  by_cases h : IsDsn m p
  · exact ⟨false, by simp [h, bind, Except.bind, pure, Except.pure], fun _ => rfl⟩
  · have hself : (ofView m p address v left right).selfNodeInfo.level = p.level := rfl
    rw [hself, hbelow]
    simp only [h, decide_false, bind, Except.bind, Bool.false_eq_true, if_false]
    exact ⟨_, rfl, fun h' => h'.elim⟩

/-- The cover area of a DSN. -/
theorem exists_coverArea (hdsn : IsDsn m p) : ∃ area, getCoverArea m p = .ok area ∧
    ∀ q ∈ area, isPositionValid m q = true ∧ p.level ≤ q.level := by
  obtain ⟨i, hi, hnumber⟩ := mem_dsnNumbers.mp hdsn
  have hp : p = ⟨p.level, dsnNumber m p.level i⟩ := Pos.ext_iff'.mpr ⟨rfl, hnumber.symm⟩
  refine ⟨coverArea m p.level i, ?_, fun q hq => ?_⟩
  · rw [hp]
    exact getCoverArea_eq hm (level_even_of_mem_dsnNumbers hdsn) hroom.fits hi
  · obtain ⟨hvalid, hlevel⟩ := coverArea_valid hm hi hq
    exact ⟨(isPositionValid_iff hm).mpr hvalid, hlevel⟩

/-- The position of the default `LogicalNodeInfo` is in no cover area. -/
theorem root_not_mem_area (hdsn : IsDsn m p) {area : List Pos}
    (harea : getCoverArea m p = .ok area) : ⟨0, 0⟩ ∉ area := by
  obtain ⟨i, hi, hnumber⟩ := mem_dsnNumbers.mp hdsn
  have hp : p = ⟨p.level, dsnNumber m p.level i⟩ := Pos.ext_iff'.mpr ⟨rfl, hnumber.symm⟩
  rw [hp, getCoverArea_eq hm (level_even_of_mem_dsnNumbers hdsn) hroom.fits hi] at harea
  obtain rfl := ok.inj harea
  intro hmem
  have hlevel : p.level = 0 := Nat.le_zero.mp (coverArea_valid hm hi hmem).2
  have hlt := dsnNumber_lt_pow hm (L := p.level) i
  rw [hlevel] at hlt hmem hi
  have hzero : dsnNumber m 0 i = 0 := by simpa using hlt
  have hnot := dsn_not_mem_coverArea hm hi
  rw [hzero] at hnot
  exact hnot hmem

theorem getNextDSN_ofView (hdsn : IsDsn m p) :
    ∃ n, (ofView m p address v left right).getNextDSN m = .ok n := by
  have hset : getDSNSet m p.level = .ok (dsnNumbers m p.level) := getDSNSet_eq hm hroom.fits
  have hself : (ofView m p address v left right).selfNodeInfo = ⟨some p, some address⟩ := rfl
  unfold getNextDSN
  rw [hself, NodeInfo.level_mk, NodeInfo.number_mk, hset]
  simp only [bind, Except.bind]
  have hmem : ∀ x ∈ (dsnNumbers m p.level).dropWhile (· < p.number), x < m ^ p.level := by
    intro x hx
    obtain ⟨i, -, rfl⟩ := mem_dsnNumbers.mp ((dropWhile_sublist _).subset hx)
    exact dsnNumber_lt_pow hm i
  cases hdrop : (dsnNumbers m p.level).dropWhile (· < p.number) with
  | nil =>
    have := dropWhile_eq_nil_iff.mp hdrop p.number hdsn
    simp at this
  | cons x xs =>
    cases xs with
    | nil => exact ⟨_, rfl⟩
    | cons next xs =>
      have hvalid : (⟨p.level, next⟩ : Pos).Valid m := hmem next (by rw [hdrop]; simp)
      obtain ⟨n, hn, -⟩ := getNodeInfoByPosition_ofView
        (p := p) (v := v) (q := ⟨p.level, next⟩)
        ((isPositionValid_iff hm).mpr hvalid) le_rfl
      exact ⟨n, hn⟩

end Dsn

namespace DsnNode

/-! ### Building the area -/

variable {isKey : Pos → Bool} {ps : List Pos} {q p : Pos} {m : ℕ} {v : Pos → Option Address}
  {left right : NodeInfo} {h : DsnHandler} {s s' : DsnNode}

theorem withoutKeys_subset : withoutKeys isKey ps ⊆ ps := by
  induction ps generalizing isKey with
  | nil => exact Subset.refl _
  | cons p ps ih =>
    rw [withoutKeys]
    split_ifs
    · exact subset_cons_of_subset p ih
    · exact cons_subset_cons p ih

theorem mem_withoutKeys (hq : q ∈ ps) (hkey : isKey q = false) : q ∈ withoutKeys isKey ps := by
  induction ps generalizing isKey with
  | nil => exact hq
  | cons p ps ih =>
    rw [withoutKeys]
    split_ifs with hp
    · -- the key `p` is another position
      have hne : q ≠ p := by
        rintro rfl
        rw [hkey] at hp
        cases hp
      exact ih ((mem_cons.mp hq).resolve_left hne)
        (by rw [update_of_ne hne]; exact hkey)
    · rcases mem_cons.mp hq with rfl | hq
      · exact mem_cons_self
      · exact mem_cons_of_mem p (ih hq hkey)

/-- The loop enters exactly the positions that are occupied. -/
theorem enterKnown_spec (address : Address) (v : Pos → Option Address) (left right : NodeInfo)
    (hps : ∀ q ∈ ps, isPositionValid m q = true ∧ p.level ≤ q.level) :
    ∀ data : Pos → Option DistributedData,
    ∃ data', enterKnown m (ofView m p address v left right) data ps = .ok data' ∧
      ∀ q, (data' q).isSome = true ↔ (data q).isSome = true ∨
        q ∈ ps ∧ Occupied m p v left right q := by
  induction ps with
  | nil => exact fun data => ⟨data, rfl, fun q => by simp⟩
  | cons r ps ih =>
    intro data
    obtain ⟨hvalid, hlevel⟩ := hps r (by simp)
    obtain ⟨n, hn, hocc, hpos⟩ := getNodeInfoByPosition_ofView
      (p := p) (v := v) hvalid hlevel
    obtain ⟨data', hrun, hdata⟩ := ih (fun q hq => hps q (by simp [hq]))
      (if n.isInitialized then
        update data n.pos (some (.ofPhysical n.physical)) else data)
    refine ⟨data', ?_, fun q => ?_⟩
    · rw [enterKnown, hn]
      exact hrun
    · rw [hdata q]
      by_cases hinit : n.isInitialized = true
      · have hoccr := hocc.mp hinit
        rw [if_pos hinit, hpos hinit]
        by_cases hqr : q = r
        · subst hqr
          simp [hoccr]
        · simp [hqr]
      · have hnot : ¬ Occupied m p v left right r := fun h => hinit (hocc.mpr h)
        rw [if_neg hinit]
        constructor
        · rintro (h | ⟨h, ho⟩)
          · exact Or.inl h
          · exact Or.inr ⟨by simp [h], ho⟩
        · rintro (h | ⟨h, ho⟩)
          · exact Or.inl h
          · rcases mem_cons.mp h with rfl | h
            · exact absurd ho hnot
            · exact Or.inr ⟨h, ho⟩

/-- The handler holds the cover area of `p`, with data for the occupied
positions. -/
def Covered (m : ℕ) (p : Pos) (v : Pos → Option Address) (left right : NodeInfo)
    (h : DsnHandler) : Prop :=
  getCoverArea m p = .ok h.coverAreaPositions ∧
    ∀ q, (h.coverData q).isSome = true ↔
      q ∈ h.coverAreaPositions ∧ Occupied m p v left right q

/-- The handler knows nothing. -/
def NoData (h : DsnHandler) : Prop := ∀ q, h.coverData q = none

/-- The handler has data for occupied positions only. -/
def OnlyOccupied (m : ℕ) (p : Pos) (v : Pos → Option Address) (left right : NodeInfo)
    (h : DsnHandler) : Prop :=
  ∀ q, (h.coverData q).isSome = true → Occupied m p v left right q

theorem NoData.onlyOccupied (hdata : NoData h) : OnlyOccupied m p v left right h := by
  intro q hq
  rw [hdata q] at hq
  cases hq

theorem Covered.onlyOccupied (hcovered : Covered m p v left right h) :
    OnlyOccupied m p v left right h :=
  fun q hq => ((hcovered.2 q).mp hq).2

section Active

variable {m : ℕ} (hm : isFanoutValid m = true) {p : Pos} (hroom : Roomy m p.level)
  {address : Address} {v : Pos → Option Address} {left right : NodeInfo} {s : DsnNode}
  (hri : s.routingInfo = ofView m p address v left right)
include hm hroom hri

theorem buildCoverArea_run (hdsn : IsDsn m p)
    (hdata : OnlyOccupied m p v left right s.handler) :
    ∃ h, buildCoverArea m s = ({ s with handler := h }, .ok ()) ∧
      h.isActive = s.handler.isActive ∧ Covered m p v left right h := by
  obtain ⟨area, harea, hvalid⟩ := exists_coverArea hm hroom hdsn
  -- what the old data has in the area is kept, the rest of the area is entered
  set kept : Pos → Option DistributedData :=
    fun q => if q ∈ area then s.handler.coverData q else none with hkept
  have hmissing : ∀ q ∈ withoutKeys (fun q => (kept q).isSome) area,
      isPositionValid m q = true ∧ p.level ≤ q.level :=
    fun q hq => hvalid q (withoutKeys_subset hq)
  obtain ⟨data, hrun, hspec⟩ := enterKnown_spec address v left right hmissing kept
  rw [← hri, hkept] at hrun
  have hpos : s.routingInfo.selfNodeInfo.pos = p := by rw [hri]; rfl
  refine ⟨{ s.handler with coverAreaPositions := area, coverData := data }, ?_, rfl, harea,
    fun q => ?_⟩
  · unfold buildCoverArea onHandler
    simp only [get_bind_run, hpos, harea, lift_ok_bind_run, modify_bind_run,
      hrun, modify_run]
  · rw [hspec q]
    constructor
    · rintro (hold | ⟨hmissing, hocc⟩)
      · have hq : q ∈ area := by
          by_contra hnot
          rw [hkept] at hold
          simp [hnot] at hold
        rw [hkept] at hold
        simp only [hq, if_true] at hold
        exact ⟨hq, hdata q hold⟩
      · exact ⟨withoutKeys_subset hmissing, hocc⟩
    · rintro ⟨hq, hocc⟩
      cases hold : (kept q).isSome with
      | true => exact Or.inl rfl
      | false => exact Or.inr ⟨mem_withoutKeys hq hold, hocc⟩

theorem updateDsn_run (hdsn : IsDsn m p) (hdata : OnlyOccupied m p v left right s.handler) :
    ∃ h, updateDsn m s = ({ s with handler := h }, .ok ()) ∧
      h.isActive = s.handler.isActive ∧ Covered m p v left right h := by
  obtain ⟨h, hbuild, hactive, hcovered⟩ := buildCoverArea_run hm hroom hri hdsn hdata
  obtain ⟨next, hnext⟩ : ∃ n, s.routingInfo.getNextDSN m = .ok n := by
    rw [hri]
    exact getNextDSN_ofView hm hroom hdsn
  unfold updateDsn
  rw [bind_run_ok hbuild]
  simp only [get_bind_run, hnext, lift_ok_bind_run]
  cases hinit : next.isInitialized with
  | true => exact ⟨{ h with extendedCoverData := fun _ => none }, rfl, hactive, hcovered⟩
  | false =>
    refine ⟨h, ?_, hactive, hcovered⟩
    simp [buildExtendedCoverArea, hnext, hinit]

/-- A check of the position of a DSN.  The area is built only if the handler
was not active before. -/
theorem checkPosition_of_isDsn (hdsn : IsDsn m p)
    (hdata : s.handler.wasPreviouslyActive = false →
      OnlyOccupied m p v left right s.handler) :
    ∃ h, checkPosition m s = ({ s with handler := h }, .ok ()) ∧ h.isActive = true ∧
      (s.handler.wasPreviouslyActive = true → h = { s.handler with isActive := true }) ∧
      (s.handler.wasPreviouslyActive = false → Covered m p v left right h) := by
  have hinit : s.routingInfo.selfNodeInfo.isInitialized = true := by rw [hri]; rfl
  have hweAre : s.routingInfo.areWeDSN m = .ok true := by
    rw [hri, areWeDSN_ofView hm hroom, decide_eq_true hdsn]
  obtain ⟨temp, htemp, hfalse⟩ : ∃ b, s.routingInfo.areWeTempDSN m = .ok b ∧
      (IsDsn m p → b = false) := by
    rw [hri]
    exact areWeTempDSN_ofView hm hroom
  obtain rfl := hfalse hdsn
  unfold checkPosition onHandler
  cases hprev : s.handler.wasPreviouslyActive with
  | true =>
    refine ⟨{ s.handler with isActive := true }, ?_, rfl, fun _ => rfl, fun h => by simp at h⟩
    simp [hinit, hweAre, htemp, hprev]
  | false =>
    obtain ⟨h, hrun, hactive, hcovered⟩ := updateDsn_run
      (s := { s with
        handler := { s.handler with isActive := true, wasPreviouslyActive := false } })
      hm hroom hri hdsn (hdata hprev)
    refine ⟨h, ?_, hactive, fun h => by simp at h, fun _ => hcovered⟩
    simp only [modify_bind_run, get_bind_run, hinit, hweAre, htemp, hprev,
      Bool.not_true, Bool.false_eq_true, if_false, lift_ok_bind_run, Bool.false_and,
      Bool.and_false, if_true]
    exact hrun

theorem isActive_of_isDsn (hdsn : IsDsn m p)
    (hdata : s.handler.isActive = false → OnlyOccupied m p v left right s.handler) :
    ∃ h, isActive m s = ({ s with handler := h }, .ok true) ∧ h.isActive = true ∧
      (s.handler.isActive = true → h = { s.handler with wasPreviouslyActive := true }) ∧
      (s.handler.isActive = false → Covered m p v left right h) := by
  set s₁ : DsnNode :=
    { s with handler := { s.handler with wasPreviouslyActive := s.handler.isActive } }
  obtain ⟨h, hrun, hactive, hsame, hcovered⟩ :=
    checkPosition_of_isDsn (s := s₁) hm hroom hri hdsn hdata
  refine ⟨h, ?_, hactive, fun hbefore => ?_, hcovered⟩
  · unfold isActive onHandler
    rw [modify_bind_run, bind_run_ok hrun, get_bind_run]
    simp only [hactive]
    rfl
  · rw [hsame hbefore, ← hbefore]

/-- A node that is not at the position of a DSN is active as a temporary DSN
or knows nothing. -/
theorem isActive_of_not_isDsn (hdsn : ¬ IsDsn m p) :
    (isActive m).wp (fun b s' => s'.routingInfo = s.routingInfo ∧ s'.handler.isActive = b ∧
        (b = false → NoData s'.handler))
      (fun s' => s'.routingInfo = s.routingInfo ∧
        (s'.handler.isActive = false → NoData s'.handler)) s := by
  have hinit : s.routingInfo.selfNodeInfo.isInitialized = true := by rw [hri]; rfl
  have hweAre : s.routingInfo.areWeDSN m = .ok false := by
    rw [hri, areWeDSN_ofView hm hroom, decide_eq_false hdsn]
  obtain ⟨temp, htemp, -⟩ : ∃ b, s.routingInfo.areWeTempDSN m = .ok b ∧
      (IsDsn m p → b = false) := by
    rw [hri]
    exact areWeTempDSN_ofView hm hroom
  have hkeeps : ∀ s' : DsnNode, s'.routingInfo = s.routingInfo → s'.handler.isActive = true →
      (buildTempCoverArea m).wp
        (fun _ s' => s'.routingInfo = s.routingInfo ∧ s'.handler.isActive = true)
        (fun s' => s'.routingInfo = s.routingInfo ∧ s'.handler.isActive = true) s' := by
    intro s' hs' hactive
    simp only [buildTempCoverArea, onHandler, wp_bind, wp_get, wp_lift,
      wp_modify]
    simp [hs', hactive]
  unfold isActive checkPosition clearData onHandler
  simp only [wp_bind, wp_modify, wp_get, hinit, Bool.not_true,
    Bool.false_eq_true, if_false, hweAre, htemp, wp_lift_ok, Bool.not_false,
    Bool.true_and, Bool.false_and, wp_ite, wp_pure]
  refine ⟨fun _ => ⟨trivial, trivial, fun _ _ => rfl⟩,
    fun _ => ⟨fun _ => ⟨trivial, trivial, by simp⟩, fun _ => ?_⟩⟩
  have hbuilt := hkeeps { s with
    handler := { s.handler with isActive := true, wasPreviouslyActive := s.handler.isActive } }
    rfl rfl
  refine hbuilt.imp (fun _ s' hs' => ?_) fun s' hs' => ⟨hs'.1, by simp [hs'.2]⟩
  rw [wp_bind]
  exact ⟨hs'.1, rfl, by simp [hs'.2]⟩

end Active

/-- Without a position the handler forgets everything. -/
theorem isActive_of_unplaced (hself : s.routingInfo.selfNodeInfo.isInitialized = false) :
    ∃ h, isActive m s = ({ s with handler := h }, .ok false) ∧ h.isActive = false ∧
      NoData h := by
  refine ⟨{ s.handler with
    isActive := false, wasPreviouslyActive := s.handler.isActive,
    coverData := fun _ => none, extendedCoverData := fun _ => none }, ?_, rfl, fun _ => rfl⟩
  have hcheck : checkPosition m
      { s with handler := { s.handler with wasPreviouslyActive := s.handler.isActive } } =
      ({ s with handler := { s.handler with
          isActive := false, wasPreviouslyActive := s.handler.isActive,
          coverData := fun _ => none, extendedCoverData := fun _ => none } }, .ok ()) := by
    simp [checkPosition, clearData, onHandler, hself]
  unfold isActive onHandler
  rw [modify_bind_run, bind_run_ok hcheck]
  rfl

/-! ### The invariant of runs -/

/-- A node with a position on a roomy level has an active handler with the
right area, if it is a DSN; a handler that is not active knows nothing. -/
inductive Coherent (m : ℕ) (s : DsnNode) : Prop
  | unplaced {address : Address} (self : s.routingInfo.selfNodeInfo = ⟨none, some address⟩)
      (inactive : s.handler.isActive = false) (noData : NoData s.handler) : Coherent m s
  | placed {p : Pos} {address : Address} {v : Pos → Option Address} {left right : NodeInfo}
      (valid : p.Valid m) (roomy : Roomy m p.level)
      (shows : s.routingInfo = ofView m p address v left right)
      (noData : s.handler.isActive = false → NoData s.handler)
      (covered : IsDsn m p → s.handler.isActive = true →
        Covered m p v left right s.handler) : Coherent m s

/-- The routing information, the area and the positions with data are the same. -/
structure SameCover (s s' : DsnNode) : Prop where
  routingInfo : s'.routingInfo = s.routingInfo
  isActive : s'.handler.isActive = s.handler.isActive
  area : s'.handler.coverAreaPositions = s.handler.coverAreaPositions
  keys : ∀ q, (s'.handler.coverData q).isSome = (s.handler.coverData q).isSome

theorem SameCover.noData (h : SameCover s s') (hd : NoData s.handler) :
    NoData s'.handler := fun q => by
  have := h.keys q
  rw [hd q] at this
  exact Option.not_isSome_iff_eq_none.mp (by simp [this])

theorem Coherent.of_sameCover (h : Coherent m s) (hsame : SameCover s s') : Coherent m s' := by
  cases h with
  | unplaced self inactive noData =>
    exact .unplaced (hsame.routingInfo ▸ self) (hsame.isActive.trans inactive)
      (hsame.noData noData)
  | placed valid roomy shows noData covered =>
    refine .placed valid roomy (hsame.routingInfo.trans shows)
      (fun h => hsame.noData (noData (hsame.isActive ▸ h))) fun hdsn hactive => ?_
    obtain ⟨harea, hkeys⟩ := covered hdsn (hsame.isActive ▸ hactive)
    refine ⟨by rw [hsame.area]; exact harea, fun q => ?_⟩
    rw [hsame.keys q, hsame.area, hkeys q]

/-- A call changes nothing but the flag. -/
theorem call_sameCover (x : Action DsnNode Unit) (s : DsnNode) :
    SameCover (x s).1 (call x s).1 := by
  cases hx : x s with
  | mk s' r => cases r <;> simp only [call, hx] <;> exact ⟨rfl, rfl, rfl, fun _ => rfl⟩

/-- A call of `isActive` keeps the invariant. -/
theorem isActive_coherent (hm : isFanoutValid m = true) (h : Coherent m s) :
    (isActive m).wp (fun _ s' => Coherent m s' ∧ s'.routingInfo = s.routingInfo)
      (fun s' => Coherent m s' ∧ s'.routingInfo = s.routingInfo) s := by
  cases h with
  | @unplaced address self inactive noData =>
    obtain ⟨h, hrun, hinactive, hdata⟩ := isActive_of_unplaced (m := m) (s := s)
      (by rw [self]; rfl)
    exact (wp_of_run_ok hrun).mpr ⟨.unplaced self hinactive hdata, rfl⟩
  | @placed p _ _ _ _ valid roomy shows noData covered =>
    by_cases hdsn : IsDsn m p
    · obtain ⟨h, hrun, hactive, hsame, hbuilt⟩ :=
        isActive_of_isDsn hm roomy shows hdsn fun hoff => (noData hoff).onlyOccupied
      refine (wp_of_run_ok hrun).mpr ⟨.placed valid roomy shows
        (fun h' => by simp [hactive] at h') fun _ _ => ?_, rfl⟩
      cases hbefore : s.handler.isActive with
      | true =>
        have hcovered := covered hdsn hbefore
        rw [hsame hbefore]
        exact hcovered
      | false => exact hbuilt hbefore
    · refine (isActive_of_not_isDsn hm roomy shows hdsn).imp (fun _ s' hs' => ?_)
        fun s' hs' => ?_
      · obtain ⟨hsame, rfl, hdata⟩ := hs'
        exact ⟨.placed valid roomy (hsame.trans shows) hdata fun h => absurd h hdsn, hsame⟩
      · exact ⟨.placed valid roomy (hs'.1.trans shows) hs'.2 fun h => absurd h hdsn, hs'.1⟩

/-! ### A change of a slot -/

/-- `Covered` for a view that has changed at `q` since. -/
structure CoveredExcept (m : ℕ) (p : Pos) (v : Pos → Option Address) (left right : NodeInfo)
    (q : Pos) (h : DsnHandler) : Prop where
  area : getCoverArea m p = .ok h.coverAreaPositions
  inArea : ∀ r, (h.coverData r).isSome = true → r ∈ h.coverAreaPositions
  keys : ∀ r ∈ h.coverAreaPositions, r ≠ q →
    ((h.coverData r).isSome = true ↔ Occupied m p v left right r)

theorem Covered.coveredExcept {v' : Pos → Option Address} {left' right' : NodeInfo}
    (hcovered : Covered m p v left right h) (hsame : ∀ r ∈ h.coverAreaPositions, r ≠ q →
      (Occupied m p v left right r ↔ Occupied m p v' left' right' r)) :
    CoveredExcept m p v' left' right' q h where
  area := hcovered.1
  inArea r hr := ((hcovered.2 r).mp hr).1
  keys r hr hrq := by rw [hcovered.2 r, ← hsame r hr hrq, and_iff_right hr]

theorem CoveredExcept.covered (hexcept : CoveredExcept m p v left right q h)
    (hq : q ∈ h.coverAreaPositions →
      ((h.coverData q).isSome = true ↔ Occupied m p v left right q)) :
    Covered m p v left right h := by
  refine ⟨hexcept.area, fun r => ⟨fun hr => ?_, fun ⟨hmem, hocc⟩ => ?_⟩⟩
  · have hmem := hexcept.inArea r hr
    by_cases hrq : r = q
    · subst hrq
      exact ⟨hmem, (hq hmem).mp hr⟩
    · exact ⟨hmem, (hexcept.keys r hmem hrq).mp hr⟩
  · by_cases hrq : r = q
    · subst hrq
      exact (hq hmem).mpr hocc
    · exact (hexcept.keys r hmem hrq).mpr hocc

/-- After the update there is data at the reported position if the report names
an address, and the other positions keep theirs. -/
theorem updateCoverData_run (n : NodeInfo) (s : DsnNode) :
    ∃ s', updateCoverData n s = (s', .ok ()) ∧ s'.routingInfo = s.routingInfo ∧
      s'.handler.isActive = s.handler.isActive ∧
      s'.handler.coverAreaPositions = s.handler.coverAreaPositions ∧
      (s'.handler.coverData n.pos).isSome = n.physical.isSome ∧
      ∀ q, q ≠ n.pos → s'.handler.coverData q = s.handler.coverData q := by
  unfold updateCoverData onHandler requestAttributeInformation
  rw [get_bind_run]
  cases hdata : s.handler.coverData n.pos with
  | none =>
    cases hphys : n.physical with
    | none => exact ⟨s, rfl, rfl, rfl, rfl, by simp [hdata], fun _ _ => rfl⟩
    | some address =>
      exact ⟨_, rfl, rfl, rfl, rfl, by simp, fun q hq => update_of_ne hq _ _⟩
  | some data =>
    cases hphys : n.physical with
    | none =>
      exact ⟨_, rfl, rfl, rfl, rfl, by simp, fun q hq => update_of_ne hq _ _⟩
    | some address =>
      by_cases hsame : data.physical = some address
      · exact ⟨s, by simp [hsame], rfl, rfl, rfl, by simp [hdata], fun _ _ => rfl⟩
      · exact ⟨_, congrFun (if_pos hsame) s, rfl, rfl, rfl, by simp,
          fun q hq => update_of_ne hq _ _⟩

/-- A notification about `n` makes up for a change at its position. -/
theorem onNeighborChangeNotification_coherent (hm : isFanoutValid m = true) (hp : p.Valid m)
    (hroom : Roomy m p.level) {address : Address}
    (hri : s.routingInfo = ofView m p address v left right)
    (hdata : s.handler.isActive = false → NoData s.handler) {n : NodeInfo}
    (hexcept : IsDsn m p → s.handler.isActive = true →
      CoveredExcept m p v left right n.pos s.handler)
    (hn : IsDsn m p → ∀ area, getCoverArea m p = .ok area → n.pos ∈ area →
      (n.physical.isSome = true ↔ Occupied m p v left right n.pos)) :
    Coherent m (onNeighborChangeNotification m n s).1 := by
  by_cases hdsn : IsDsn m p
  · obtain ⟨h, hrun, hactive, hsame, hbuilt⟩ :=
      isActive_of_isDsn hm hroom hri hdsn fun hoff => (hdata hoff).onlyOccupied
    have hexcept' : CoveredExcept m p v left right n.pos h := by
      cases hbefore : s.handler.isActive with
      | true =>
        rw [hsame hbefore]
        have hbefore := hexcept hdsn hbefore
        exact ⟨hbefore.area, hbefore.inArea, hbefore.keys⟩
      | false => exact (hbuilt hbefore).coveredExcept fun _ _ _ => Iff.rfl
    unfold onNeighborChangeNotification
    rw [bind_run_ok hrun]
    simp only [Bool.not_true, Bool.false_eq_true, if_false, get_bind_run]
    by_cases hmem : n.pos ∈ h.coverAreaPositions
    · obtain ⟨s', hupdate, hri', hactive', harea, hkey, hother⟩ :=
        updateCoverData_run n { s with handler := h }
      rw [if_pos (contains_iff_mem.mpr hmem), hupdate]
      refine .placed hp hroom (hri'.trans hri) (fun h' => ?_) fun _ _ => ?_
      · rw [hactive', hactive] at h'
        cases h'
      · have hexcept'' : CoveredExcept m p v left right n.pos s'.handler := by
          refine ⟨by rw [harea]; exact hexcept'.area, fun r hr => ?_, fun r hr hrn => ?_⟩
          · rw [harea]
            by_cases hrn : r = n.pos
            · rw [hrn]
              exact hmem
            · rw [hother r hrn] at hr
              exact hexcept'.inArea r hr
          · rw [hother r hrn]
            rw [harea] at hr
            exact hexcept'.keys r hr hrn
        refine hexcept''.covered fun _ => ?_
        rw [hkey]
        exact hn hdsn _ hexcept'.area hmem
    · rw [if_neg (by simpa using hmem)]
      exact .placed hp hroom hri (fun h' => by simp [hactive] at h')
        fun _ _ => hexcept'.covered fun h' => absurd h' hmem
  · have hwp : (onNeighborChangeNotification m n).wp (fun _ s' => Coherent m s')
        (fun s' => Coherent m s') s := by
      unfold onNeighborChangeNotification
      rw [wp_bind]
      refine (isActive_of_not_isDsn hm hroom hri hdsn).imp (fun b s₁ hs₁ => ?_) fun s₁ hs₁ =>
        .placed hp hroom (hs₁.1.trans hri) hs₁.2 fun h => absurd h hdsn
      obtain ⟨hri₁, hactive₁, hdata₁⟩ := hs₁
      have hcoherent : Coherent m s₁ := .placed hp hroom (hri₁.trans hri)
        (fun h => hdata₁ (hactive₁ ▸ h)) fun h => absurd h hdsn
      cases b with
      | false => exact hcoherent
      | true =>
        simp only [Bool.not_true, Bool.false_eq_true, if_false, wp_bind, wp_get,
          wp_ite, wp_pure]
        refine ⟨fun _ => ?_, fun _ => hcoherent⟩
        obtain ⟨s', hupdate, hri', hactive', -⟩ := updateCoverData_run n s₁
        refine (wp_of_run_ok hupdate).mpr (.placed hp hroom (hri'.trans (hri₁.trans hri))
          (fun h => ?_) fun h => absurd h hdsn)
        rw [hactive', hactive₁] at h
        cases h
    exact wp_state_iff.mp hwp

/-! ### What may happen -/

/-- The node at the position of an adjacent that is given up is in another
slot as well, if the position is in the cover area. -/
def KeptElsewhere (m : ℕ) (ri : RoutingInformation) (old : NodeInfo) (others : List NodeInfo) :
    Prop :=
  old.isInitialized = true →
    ∀ area, getCoverArea m ri.selfNodeInfo.pos = .ok area → old.pos ∈ area →
      ∃ n ∈ ri.children ++ ri.routingTableNeighbors ++ ri.routingTableNeighborChildren ++ others,
        n.isInitialized = true ∧ n.pos = old.pos

/-- A slot is emptied after the adjacents have given up its node, and an
adjacent of the cover area is given up before its other slot is emptied, as
in `removeNeighbor`. -/
structure Harmless (m : ℕ) (ri : RoutingInformation) (op : SlotOperation) : Prop where
  cleared : ∀ q, op.cleared ri = some q →
    ri.adjacentLeft.logical ≠ some q ∧ ri.adjacentRight.logical ≠ some q
  left : ∀ n, op.newLeft = some n → KeptElsewhere m ri ri.adjacentLeft [n, ri.adjacentRight]
  right : ∀ n, op.newRight = some n → KeptElsewhere m ri ri.adjacentRight [n, ri.adjacentLeft]

/-- An active node does not move to the position of a DSN, and changes of
slots are harmless. -/
def Allowed (m : ℕ) (s : DsnNode) : Event → Prop
  | .setPosition q => Roomy m q.level ∧ (s.handler.isActive = true → ¬ IsDsn m q)
  | .change op => Harmless m s.routingInfo op
  | _ => True

section Occupied

variable {m : ℕ} {p : Pos} {address : Address} {v : Pos → Option Address}
  {left right : NodeInfo} {r : Pos} {n : NodeInfo} {area : List Pos}

theorem occupied_update_of_ne {q : Pos} (hrq : r ≠ q) (b : Option Address) :
    Occupied m p v left right r ↔ Occupied m p (update v q b) left right r := by
  unfold Occupied
  rw [update_of_ne hrq]

theorem occupied_update_self {q : Pos} (hq : IsSlot m p q) {b : Option Address}
    (hclear : b = none → left.logical ≠ some q ∧ right.logical ≠ some q) :
    b.isSome = true ↔ Occupied m p (update v q b) left right q := by
  unfold Occupied
  rw [update_self]
  cases b with
  | none => simp [hclear rfl]
  | some b => simp [hq]

/-- Where a kept adjacent is found. -/
theorem occupied_of_keptElsewhere {old other : NodeInfo}
    (hkept : KeptElsewhere m (ofView m p address v left right) old [n, other])
    (harea : getCoverArea m p = .ok area) (hr : r ∈ area) (hrn : r ≠ n.pos)
    (hold : old.logical = some r ∧ old.physical.isSome = true) :
    (IsSlot m p r ∧ (v r).isSome = true) ∨
      (other.logical = some r ∧ other.physical.isSome = true) := by
  have hpos : old.pos = r := by rw [NodeInfo.pos, hold.1]; rfl
  obtain ⟨x, hx, hinit, hxr⟩ := hkept
    (NodeInfo.isInitialized_iff.mpr ⟨by simp [hold.1], hold.2⟩) area harea (by rwa [hpos])
  rw [hpos] at hxr
  have hslots : ∀ positions : List Pos, (∀ q ∈ positions, IsSlot m p q) →
      x ∈ positions.map (slot v) → IsSlot m p r ∧ (v r).isSome = true := by
    intro positions hslot hmem
    obtain ⟨q, hq, rfl⟩ := mem_map.mp hmem
    obtain rfl : q = r := hxr
    exact ⟨hslot q hq, (NodeInfo.isInitialized_iff.mp hinit).2⟩
  rcases mem_append.mp hx with hx | hx
  · rcases mem_append.mp hx with hx | hx
    · rcases mem_append.mp hx with hx | hx
      · exact Or.inl (hslots (childPositions m p) (fun q hq => .child hq) hx)
      · exact Or.inl (hslots (tableLayout m p)
          (fun q hq => .neighbor (mem_tableLayout.mp hq)) hx)
    · refine Or.inl (hslots (tableChildLayout m p) (fun q hq => ?_) hx)
      obtain ⟨t, ht, hq⟩ := mem_tableChildLayout.mp hq
      exact .neighborChild ht hq
  · rcases mem_pair.mp hx with rfl | rfl
    · exact absurd hxr.symm hrn
    · exact Or.inr ⟨NodeInfo.logical_eq_of_pos hinit hxr, (NodeInfo.isInitialized_iff.mp hinit).2⟩

theorem logical_ne_of_ne_pos (hrn : r ≠ n.pos) : n.logical ≠ some r := by
  intro h
  exact hrn (by rw [NodeInfo.pos, h]; rfl)

theorem occupied_newLeft
    (hkept : KeptElsewhere m (ofView m p address v left right) left [n, right])
    (harea : getCoverArea m p = .ok area) (hr : r ∈ area) (hrn : r ≠ n.pos) :
    Occupied m p v left right r ↔ Occupied m p v n right r := by
  constructor
  · rintro (hslot | hold | hright)
    · exact Or.inl hslot
    · rcases occupied_of_keptElsewhere hkept harea hr hrn hold with h | h
      · exact Or.inl h
      · exact Or.inr (Or.inr h)
    · exact Or.inr (Or.inr hright)
  · rintro (hslot | hnew | hright)
    · exact Or.inl hslot
    · exact absurd hnew.1 (logical_ne_of_ne_pos hrn)
    · exact Or.inr (Or.inr hright)

theorem occupied_newRight
    (hkept : KeptElsewhere m (ofView m p address v left right) right [n, left])
    (harea : getCoverArea m p = .ok area) (hr : r ∈ area) (hrn : r ≠ n.pos) :
    Occupied m p v left right r ↔ Occupied m p v left n r := by
  constructor
  · rintro (hslot | hleft | hold)
    · exact Or.inl hslot
    · exact Or.inr (Or.inl hleft)
    · rcases occupied_of_keptElsewhere hkept harea hr hrn hold with h | h
      · exact Or.inl h
      · exact Or.inr (Or.inl h)
  · rintro (hslot | hleft | hnew)
    · exact Or.inl hslot
    · exact Or.inr (Or.inl hleft)
    · exact absurd hnew.1 (logical_ne_of_ne_pos hrn)

end Occupied

/-! ### Every step keeps the invariant -/

theorem call_coherent {x : Action DsnNode Unit} (h : Coherent m (x s).1) :
    Coherent m (call x s).1 :=
  h.of_sameCover (call_sameCover x s)

theorem Coherent.noData_of_inactive (h : Coherent m s) (hinactive : s.handler.isActive = false) :
    NoData s.handler := by
  cases h with
  | unplaced _ _ noData => exact noData
  | placed _ _ _ noData _ => exact noData hinactive

theorem Coherent.physical (h : Coherent m s) :
    ∃ address, s.routingInfo.selfNodeInfo.physical = some address := by
  cases h with
  | unplaced self _ _ => exact ⟨_, by rw [self]⟩
  | placed _ _ shows _ _ => exact ⟨_, by rw [shows]; rfl⟩

section Step

variable {m : ℕ} (hm : isFanoutValid m = true)
include hm

variable {s : DsnNode}

theorem onNodeInfoChangeNotification_coherent (h : Coherent m s) :
    Coherent m (onNodeInfoChangeNotification m s).1 := by
  refine wp_state_iff.mp ?_
  unfold onNodeInfoChangeNotification
  rw [wp_bind]
  refine (isActive_coherent hm h).imp (fun b s' hs' => ?_) fun s' hs' => hs'.1
  simp only [wp_bind, wp_get, wp_ite, wp_pure]
  refine ⟨fun _ => wp_forEach (fun peer _ s hs => ?_) hs'.1, fun _ => hs'.1⟩
  unfold requestAttributeInformation
  rw [wp_ite]
  exact ⟨fun _ => hs.of_sameCover ⟨rfl, rfl, rfl, fun _ => rfl⟩, fun _ => hs⟩

theorem notifyNodeInfoChange_coherent (h : Coherent m s) (previous : NodeInfo) :
    Coherent m (notifyNodeInfoChange m previous s).1 := by
  unfold notifyNodeInfoChange
  rw [get_bind_run]
  split_ifs
  · exact h
  · exact call_coherent (onNodeInfoChangeNotification_coherent hm h)

/-- A node that gets a position. -/
theorem setPosition_coherent (h : Coherent m s) {q : Pos} (hroom : Roomy m q.level)
    (hmove : s.handler.isActive = true → ¬ IsDsn m q) {ri : RoutingInformation}
    (hri : s.routingInfo.setPosition m q = .ok ri) : Coherent m { s with routingInfo := ri } := by
  obtain ⟨address, haddress⟩ := h.physical
  unfold setPosition at hri
  rw [haddress] at hri
  split_ifs at hri with hvalid hsome
  · have hq : q.Valid m := (isPositionValid_iff hm).mp (by simpa using hvalid)
    rw [init_eq_ofView hm hroom.fits hq] at hri
    obtain rfl := ok.inj hri
    exact .placed hq hroom rfl h.noData_of_inactive fun hdsn hactive =>
      absurd hdsn (hmove hactive)
  · simp at hsome

omit hm in
/-- A node that loses its position. -/
theorem resetPosition_coherent (h : Coherent m s) :
    Coherent m (notifyNodeInfoChange m s.routingInfo.selfNodeInfo
      { s with routingInfo := s.routingInfo.resetPosition }).1 := by
  obtain ⟨address, haddress⟩ := h.physical
  have hself : s.routingInfo.resetPosition.selfNodeInfo = ⟨none, some address⟩ := by
    show (⟨none, s.routingInfo.selfNodeInfo.physical⟩ : NodeInfo) = _
    rw [haddress]
  unfold notifyNodeInfoChange
  rw [get_bind_run]
  split_ifs with hsame
  · cases h with
    | unplaced _ inactive noData => exact .unplaced hself inactive noData
    | placed _ _ shows _ _ =>
      rw [hself, shows] at hsame
      cases hsame
  · refine call_coherent ?_
    obtain ⟨h', hrun, hinactive, hdata⟩ := isActive_of_unplaced (m := m)
      (s := { s with routingInfo := s.routingInfo.resetPosition }) (by rw [hself]; rfl)
    unfold onNodeInfoChangeNotification
    rw [bind_run_ok hrun]
    exact .unplaced hself hinactive hdata

/-- A change of a slot together with the notification. -/
theorem performOperation_coherent (h : Coherent m s) {op : SlotOperation}
    (hop : Harmless m s.routingInfo op) : Coherent m (performOperation m op s).1 := by
  unfold performOperation setRoutingInfo
  rw [get_bind_run]
  cases hperform : op.perform m s.routingInfo with
  | error e => exact h
  | ok ri =>
    rw [lift_ok_bind_run, modify_bind_run]
    cases h with
    | unplaced self _ _ =>
      obtain ⟨e, he⟩ : ∃ e, op.perform m s.routingInfo = .error e :=
        SlotOperation.perform_of_not_isValidPeer (by rw [self]; rfl) op
      rw [he] at hperform
      cases hperform
    | @placed p address v left right valid roomy shows noData covered =>
      rw [shows] at hperform hop ⊢
      have heffect := SlotOperation.effect hm roomy.fits valid hperform
      generalize op.report m (ofView m p address v left right) = reported at heffect ⊢
      cases heffect with
      | nothing => exact .placed valid roomy rfl noData covered
      | @slot q b hq hchanged hclear =>
        refine call_coherent (onNeighborChangeNotification_coherent hm valid roomy
          (s := { s with
            routingInfo := ofView m p address (update v q b) left right }) rfl
          noData (fun hdsn hactive => (covered hdsn hactive).coveredExcept
            fun r _ hr => occupied_update_of_ne hr b) fun _ _ _ _ => ?_)
        exact occupied_update_self hq fun hb => hop.cleared q (hclear hb)
      | @left n hnew hn =>
        refine call_coherent (onNeighborChangeNotification_coherent hm valid roomy
          (s := { s with routingInfo := ofView m p address v n right }) rfl
          noData (fun hdsn hactive => (covered hdsn hactive).coveredExcept fun r hr hrn =>
            occupied_newLeft (hop.left n hnew) (covered hdsn hactive).1 hr hrn)
          fun hdsn area harea hmem => ?_)
        rcases hn with rfl | hinit
        · exact absurd hmem (root_not_mem_area hm roomy hdsn harea)
        · have hphys := (NodeInfo.isInitialized_iff.mp hinit).2
          exact iff_of_true hphys
            (Or.inr (Or.inl ⟨NodeInfo.logical_eq_of_pos hinit rfl, hphys⟩))
      | @right n hnew hn =>
        refine call_coherent (onNeighborChangeNotification_coherent hm valid roomy
          (s := { s with routingInfo := ofView m p address v left n }) rfl
          noData (fun hdsn hactive => (covered hdsn hactive).coveredExcept fun r hr hrn =>
            occupied_newRight (hop.right n hnew) (covered hdsn hactive).1 hr hrn)
          fun hdsn area harea hmem => ?_)
        rcases hn with rfl | hinit
        · exact absurd hmem (root_not_mem_area hm roomy hdsn harea)
        · have hphys := (NodeInfo.isInitialized_iff.mp hinit).2
          exact iff_of_true hphys
            (Or.inr (Or.inr ⟨NodeInfo.logical_eq_of_pos hinit rfl, hphys⟩))

end Step

/-! ### Messages change what is known, not of whom -/

theorem SameCover.refl (s : DsnNode) : SameCover s s := ⟨rfl, rfl, rfl, fun _ => rfl⟩

theorem SameCover.trans {s'' : DsnNode} (h : SameCover s s') (h' : SameCover s' s'') :
    SameCover s s'' :=
  ⟨h'.routingInfo.trans h.routingInfo, h'.isActive.trans h.isActive, h'.area.trans h.area,
    fun q => (h'.keys q).trans (h.keys q)⟩

/-- New data at a position that has some. -/
theorem sameCover_update {old : DistributedData} (hq : s.handler.coverData q = some old)
    (data : DistributedData) :
    SameCover s { s with handler :=
      { s.handler with coverData := update s.handler.coverData q (some data) } } := by
  refine ⟨rfl, rfl, rfl, fun r => ?_⟩
  by_cases hr : r = q
  · subst hr
    simp [hq]
  · simp [update_of_ne hr]

theorem lookup_cover {node : NodeInfo} {data : DistributedData}
    (h : lookup s node = some (.cover, q, data)) :
    node.logical = some q ∧ s.handler.coverData q = some data := by
  unfold lookup at h
  obtain ⟨p, hp, h⟩ := Option.bind_eq_some_iff.mp h
  cases hcover : s.handler.coverData p with
  | none => cases hext : s.handler.extendedCoverData p <;> simp [hcover, hext] at h
  | some d =>
    simp only [hcover, Option.some.injEq, Prod.mk.injEq, true_and] at h
    obtain ⟨rfl, rfl⟩ := h
    exact ⟨hp, hcover⟩

theorem updateInquired_sameCover (node : NodeInfo)
    (attributes : List (Text × NodeData.Value × NodeData.ValueType)) (s : DsnNode) :
    SameCover s (updateInquiredOrSubscribedAttributeValues node attributes s).1 := by
  unfold updateInquiredOrSubscribedAttributeValues
  rw [get_bind_run]
  cases hlookup : lookup s node with
  | none => exact .refl s
  | some found =>
    obtain ⟨map, q, data⟩ := found
    simp only
    split_ifs
    · exact .refl s
    · cases map with
      | cover => exact sameCover_update (lookup_cover hlookup).2 _
      | extended => exact ⟨rfl, rfl, rfl, fun _ => rfl⟩

theorem updateRemovedAttributes_sameCover (node : NodeInfo) (removedKeys : List Text)
    (s : DsnNode) : SameCover s (updateRemovedAttributes node removedKeys s).1 := by
  unfold updateRemovedAttributes
  rw [get_bind_run]
  cases hdata : node.logical.bind s.handler.coverData with
  | none => exact .refl s
  | some data =>
    obtain ⟨q, hq, hcover⟩ := Option.bind_eq_some_iff.mp hdata
    have hpos : node.pos = q := by rw [NodeInfo.pos, hq]; rfl
    simp only
    split_ifs
    · exact .refl s
    · rw [hpos]
      exact sameCover_update hcover _

theorem processAttributeInquiryAnswer_sameCover (inquired : NodeInfo)
    (attributes : List (Text × NodeData.Value × NodeData.ValueType)) (removedKeys : List Text)
    (s : DsnNode) :
    SameCover s (processAttributeInquiryAnswer inquired attributes removedKeys s).1 := by
  unfold processAttributeInquiryAnswer
  have hfirst := updateInquired_sameCover inquired attributes s
  cases hrun : updateInquiredOrSubscribedAttributeValues inquired attributes s with
  | mk s' r =>
    rw [hrun] at hfirst
    cases r with
    | error e =>
      rw [bind_run_error hrun]
      exact hfirst
    | ok _ =>
      rw [bind_run_ok hrun]
      split_ifs
      · exact hfirst.trans (updateRemovedAttributes_sameCover inquired removedKeys s')
      · exact hfirst

/-! ### Whole runs -/

theorem step_coherent (hm : isFanoutValid m = true) {e : Event} (h : Coherent m s)
    (hallowed : Allowed m s e) (hstep : step m s e = some s') : Coherent m s' := by
  cases e with
  | setPosition q =>
    unfold step at hstep
    cases hri : s.routingInfo.setPosition m q with
    | error e => simp [hri] at hstep
    | ok ri =>
      simp only [hri, Option.some.injEq] at hstep
      subst hstep
      exact notifyNodeInfoChange_coherent hm
        (setPosition_coherent hm h hallowed.1 hallowed.2 hri) _
  | resetPosition =>
    obtain rfl := Option.some.inj hstep
    exact resetPosition_coherent h
  | change op =>
    obtain rfl := Option.some.inj hstep
    exact performOperation_coherent hm h hallowed
  | queryActive =>
    obtain rfl := Option.some.inj hstep
    refine call_coherent (wp_state_iff.mp ?_)
    rw [wp_bind]
    exact (isActive_coherent hm h).imp (fun _ _ hs' => hs'.1) fun _ hs' => hs'.1
  | tick time =>
    obtain rfl := Option.some.inj hstep
    exact h.of_sameCover ⟨rfl, rfl, rfl, fun _ => rfl⟩
  | attributeInquiryAnswer inquired attributes removedKeys =>
    obtain rfl := Option.some.inj hstep
    refine call_coherent (Coherent.of_sameCover ?_
      (processAttributeInquiryAnswer_sameCover inquired attributes removedKeys _))
    exact h.of_sameCover ⟨rfl, rfl, rfl, fun _ => rfl⟩
  | subscriptionUpdate sender key value =>
    obtain rfl := Option.some.inj hstep
    refine call_coherent (Coherent.of_sameCover ?_ (updateInquired_sameCover sender _ _))
    exact h.of_sameCover ⟨rfl, rfl, rfl, fun _ => rfl⟩

theorem isDsn_root (m : ℕ) : IsDsn m ⟨0, 0⟩ := by
  simp [IsDsn, dsnNumbers, dsnCount, dsnNumber]

theorem start_coherent (hm : isFanoutValid m = true) (h : IsStart m s) : Coherent m s := by
  obtain ⟨address, rfl | ⟨ri, hri, rfl⟩⟩ := h
  · have hself : (start m (.unconnected address)).routingInfo.selfNodeInfo =
        ⟨none, some address⟩ := rfl
    exact .unplaced hself rfl fun _ => rfl
  · have hroom : Roomy m 0 := by
      have := isFanoutValid_iff.mp hm
      unfold Roomy
      rw [Nat.zero_add, pow_one]
      omega
    have hvalid : (⟨0, 0⟩ : Pos).Valid m := Nat.pow_pos (by
      have := isFanoutValid_iff.mp hm
      omega)
    rw [init_eq_ofView hm hroom.fits hvalid] at hri
    obtain rfl := ok.inj hri
    -- the root is built before anybody is known
    obtain ⟨h, hrun, -, -, hcovered⟩ := checkPosition_of_isDsn hm hroom
      (s := {
        routingInfo := ofView m ⟨0, 0⟩ address (fun _ => none) .none .none
        handler := ⟨false, false, [], fun _ => none, [], fun _ => none⟩
        inquiries := []
        clock := 0
        reports := []
        handlerFailed := false }) rfl (isDsn_root m) fun _ => NoData.onlyOccupied fun _ => rfl
    unfold start construct
    rw [bind_run_ok hrun]
    refine .placed hvalid hroom rfl (fun _ q => ?_) fun _ hactive => ?_
    · have hkey : (h.coverData q).isSome = true ↔ _ := (hcovered rfl).2 q
      simp only [Occupied, Option.isSome_none, Bool.false_eq_true, and_false, NodeInfo.none,
        reduceCtorEq, or_self, iff_false, Option.not_isSome_iff_eq_none] at hkey
      exact hkey
    · simp [onHandler] at hactive

/-- The answer is the flag. -/
theorem isActive_answer {b : Bool} (h : isActive m s = (s', .ok b)) : s'.handler.isActive = b := by
  have hwp : (isActive m).wp (fun b s' => s'.handler.isActive = b) (fun _ => True) s := by
    unfold isActive onHandler
    simp only [wp_bind, wp_modify]
    exact wp_of_forall _ (fun _ _ => rfl) fun _ => trivial
  exact (wp_of_run_ok h).mp hwp

/-- Whenever an active DSN is asked, the handler holds the cover area of the
current position and data for exactly the positions that are known to be
occupied, on every run on which an active node does not move to the position
of a DSN and changes of slots are harmless. -/
theorem coverArea_follows_position {m : ℕ} (hm : isFanoutValid m = true) {s₀ s s' : DsnNode}
    (hstart : IsStart m s₀) (hrun : Transitions.Reachable (step m) (Allowed m) s₀ s)
    (hactive : isActive m s = (s', .ok true))
    (hdsn : s'.routingInfo.areWeDSN m = .ok true) :
    getCoverArea m s'.routingInfo.selfNodeInfo.pos = .ok s'.handler.coverAreaPositions ∧
      ∀ q, (s'.handler.coverData q).isSome = true ↔
        q ∈ s'.handler.coverAreaPositions ∧
          ∃ n, s'.routingInfo.getNodeInfoByPosition m q = .ok n ∧ n.isInitialized = true := by
  have hinv : Coherent m s := hrun.invariant (start_coherent hm hstart)
    fun _ _ _ h hallowed hstep => step_coherent hm h hallowed hstep
  have hafter : Coherent m s' :=
    ((wp_of_run_ok hactive).mp (isActive_coherent hm hinv)).1
  have hflag := isActive_answer hactive
  cases hafter with
  | unplaced _ inactive _ =>
    rw [inactive] at hflag
    cases hflag
  | @placed p address v left right _ roomy shows _ covered =>
    rw [shows, areWeDSN_ofView hm roomy] at hdsn
    have hdsn' : IsDsn m p := of_decide_eq_true (ok.inj hdsn)
    obtain ⟨harea, hkeys⟩ := covered hdsn' hflag
    obtain ⟨area, harea', hvalid⟩ := exists_coverArea hm roomy hdsn'
    have hsame : s'.handler.coverAreaPositions = area :=
      ok.inj (harea.symm.trans harea')
    rw [shows]
    refine ⟨harea, fun q => ?_⟩
    rw [hkeys q]
    refine and_congr_right fun hq => ?_
    obtain ⟨hq', hlevel⟩ := hvalid q (hsame ▸ hq)
    obtain ⟨n, hn, hocc, -⟩ : ∃ n,
        (ofView m p address v left right).getNodeInfoByPosition m q = .ok n ∧
          (n.isInitialized = true ↔ Occupied m p v left right q) ∧ _ :=
      getNodeInfoByPosition_ofView hq' hlevel
    constructor
    · exact fun h => ⟨n, hn, hocc.mpr h⟩
    · rintro ⟨n', hn', hinit⟩
      obtain rfl := ok.inj (hn.symm.trans hn')
      exact hocc.mp hinit

/-- A DSN that replaces the root moves directly, and keeps the cover area of
its old position. -/
theorem coverArea_of_previous_position :
    ∃ s₀ s s', IsStart 2 s₀ ∧
      Transitions.Reachable (step 2) (fun _ _ => True) s₀ s ∧
      isActive 2 s = (s', .ok true) ∧ s'.routingInfo.areWeDSN 2 = .ok true ∧
      getCoverArea 2 s'.routingInfo.selfNodeInfo.pos ≠ .ok s'.handler.coverAreaPositions := by
  have hrun : ∃ s, Transitions.Reachable (step 2) (fun _ _ => True)
      (start 2 (.unconnected 1)) s ∧
      ((isActive 2 s).2 = .ok true ∧
        (isActive 2 s).1.routingInfo.areWeDSN 2 = .ok true ∧
        getCoverArea 2 (isActive 2 s).1.routingInfo.selfNodeInfo.pos ≠
          .ok (isActive 2 s).1.handler.coverAreaPositions) :=
    Transitions.exists_reachable_of_run [.setPosition ⟨2, 2⟩, .setPosition ⟨0, 0⟩]
      (by decide +kernel)
  obtain ⟨s, hreach, hactive, hdsn, harea⟩ := hrun
  exact ⟨_, s, (isActive 2 s).1, ⟨1, Or.inl rfl⟩, hreach, Prod.ext rfl hactive, hdsn, harea⟩

/-- The DSN `2:2` learns of `2:3`. -/
theorem coverArea_follows_position_newNeighbor :
    ∃ s₀ s s', IsStart 2 s₀ ∧ Transitions.Reachable (step 2) (Allowed 2) s₀ s ∧
      isActive 2 s = (s', .ok true) ∧ s'.routingInfo.areWeDSN 2 = .ok true ∧
      (s'.handler.coverData ⟨2, 3⟩).isSome = true ∧
      getCoverArea 2 s'.routingInfo.selfNodeInfo.pos = .ok s'.handler.coverAreaPositions ∧
      ∀ q, (s'.handler.coverData q).isSome = true ↔
        q ∈ s'.handler.coverAreaPositions ∧
          ∃ n, s'.routingInfo.getNodeInfoByPosition 2 q = .ok n ∧ n.isInitialized = true := by
  have hstart : IsStart 2 (start 2 (.unconnected 1)) := ⟨1, Or.inl rfl⟩
  have hfirst : Allowed 2 (start 2 (.unconnected 1)) (.setPosition ⟨2, 2⟩) :=
    ⟨by decide, fun h => by cases h⟩
  have hplaced : step 2 (start 2 (.unconnected 1)) (.setPosition ⟨2, 2⟩) =
      some ((step 2 (start 2 (.unconnected 1)) (.setPosition ⟨2, 2⟩)).getD
        (start 2 (.unconnected 1))) := by
    obtain ⟨s, hs⟩ := Option.isSome_iff_exists.mp (by decide +kernel :
      (step 2 (start 2 (.unconnected 1)) (.setPosition ⟨2, 2⟩)).isSome = true)
    rw [hs, Option.getD_some]
  have hreach := (Transitions.Reachable.next .refl _ hfirst hplaced).next
    (.change (.updateRoutingTableNeighbor ⟨some ⟨2, 3⟩, some 7⟩))
    ⟨fun _ h => (nomatch h), fun _ h => (nomatch h), fun _ h => (nomatch h)⟩ rfl
  exact ⟨_, _, _, hstart, hreach, Prod.ext rfl (by decide +kernel), by decide +kernel,
    by decide +kernel, coverArea_follows_position (by decide) hstart hreach
      (Prod.ext rfl (by decide +kernel)) (by decide +kernel)⟩
end DsnNode

end Sola.Minhton
