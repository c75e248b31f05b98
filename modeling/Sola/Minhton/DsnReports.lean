import Sola.Minhton.DsnCoverage
import Sola.Minhton.TemporaryDsn

/-!
What a DSN stores was reported by the node it is stored for.

The values of a position stay when the node there is replaced, and late
messages of the old node are answered with an exception.  As long as neither
happens, every value is one that the stored address has sent, and no call of
the handler throws.
-/

namespace Sola.Minhton

open Sola.Lib Action Sola.Lib.MaryTree List DistributedData RoutingInformation Function Option
open RoutingInformation (ofView)

/-! ### Data about one node -/

abbrev Reports := List (Option Address × Text × NodeData.Value)

namespace DistributedData

/-- Every value was sent by the node, and the timestamps belong to the values
and are not from later than `clock`. -/
structure Sound (reports : Reports) (clock : ℕ) (d : DistributedData) : Prop where
  physical : d.physical.isSome = true
  reported : ∀ key value time type, d.data key = some (value, time, type) →
    (d.physical, key, value) ∈ reports
  timestamps : ∀ key, (d.updateTimestamps key).isSome = (d.data key).isSome
  last : ∀ key times, d.updateTimestamps key = some times → times.getLastD 0 ≤ clock

variable {reports : Reports} {clock : ℕ} {d : DistributedData}

theorem Sound.mono {reports' : Reports} {clock' : ℕ} (h : d.Sound reports clock)
    (hreports : reports ⊆ reports') (hclock : clock ≤ clock') :
    d.Sound reports' clock' where
  physical := h.physical
  reported key value time type hdata := hreports (h.reported key value time type hdata)
  timestamps := h.timestamps
  last key times htimes := (h.last key times htimes).trans hclock

theorem sound_ofPhysical (reports : Reports) (clock : ℕ) (address : Address) :
    (ofPhysical (some address)).Sound reports clock where
  physical := rfl
  reported _ _ _ _ h := nomatch h
  timestamps _ := rfl
  last _ _ h := nomatch h

/-- Data without values can be handed over to another address. -/
theorem Sound.readdress (h : d.Sound reports clock) (hnone : ∀ key, d.data key = none)
    (address : Address) :
    Sound reports clock { d with physical := some address } where
  physical := rfl
  reported key value time type hdata := by
    have hdata' : d.data key = some (value, time, type) := hdata
    rw [hnone key] at hdata'
    cases hdata'
  timestamps := h.timestamps
  last := h.last

theorem Sound.remove (h : d.Sound reports clock) (key : Text) :
    (d.remove key).Sound reports clock where
  physical := h.physical
  reported k value time type hdata := by
    simp only [DistributedData.remove, update_apply] at hdata
    split_ifs at hdata
    exact h.reported k value time type hdata
  timestamps k := by
    simp only [DistributedData.remove, update_apply]
    split_ifs
    · rfl
    · exact h.timestamps k
  last k times htimes := by
    simp only [DistributedData.remove, update_apply] at htimes
    split_ifs at htimes
    exact h.last k times htimes

theorem Sound.foldl_remove (h : d.Sound reports clock) (keys : List Text) :
    (keys.foldl DistributedData.remove d).Sound reports clock := by
  induction keys generalizing d with
  | nil => exact h
  | cons key keys ih => exact ih (h.remove key)

/-- The limit on stored timestamps drops an old one. -/
theorem getLastD_kept (times : List ℕ) (time : ℕ) :
    (if (times ++ [time]).length > timestampStorageLimit then (times ++ [time]).tail
      else times ++ [time]).getLastD 0 = time := by
  split_ifs with h
  · cases times with
    | nil => simp [timestampStorageLimit] at h
    | cons t ts => simp
  · simp

section Store

variable {reports : Reports} {clock : ℕ} {d : DistributedData} {key : Text}
  {value : NodeData.Value}

theorem pushTimestamp_run (h : d.Sound reports clock) (hkey : (d.data key).isSome = true) :
    ∃ times, pushTimestamp key clock d =
      ({ d with updateTimestamps := Function.update d.updateTimestamps key (some times) },
        .ok true) ∧ times.getLastD 0 ≤ clock := by
  obtain ⟨times, htimes⟩ := isSome_iff_exists.mp ((h.timestamps key).trans hkey)
  have hlast : ¬ times.getLastD 0 > clock := not_lt.mpr (h.last key times htimes)
  refine ⟨_, ?_, (getLastD_kept times clock).le⟩
  unfold pushTimestamp
  rw [get_bind_run]
  simp only [htimes, hlast, if_false]
  rfl

/-- The timestamps of a stored key are replaced. -/
theorem Sound.withTimestamps (h : d.Sound reports clock) (hkey : (d.data key).isSome = true)
    {times : List ℕ} (htimes : times.getLastD 0 ≤ clock) :
    Sound reports clock
      { d with updateTimestamps := Function.update d.updateTimestamps key (some times) } where
  physical := h.physical
  reported := h.reported
  timestamps k := by
    by_cases hk : k = key
    · subst hk
      simp [hkey]
    · simpa [update_of_ne hk] using h.timestamps k
  last k ts hts := by
    by_cases hk : k = key
    · subst hk
      simp only [update_self, some.injEq] at hts
      rw [← hts]
      exact htimes
    · exact h.last k ts (by simpa [update_of_ne hk] using hts)

/-- A reported value takes the place of a stored one. -/
theorem Sound.withValue (h : d.Sound reports clock) (hkey : (d.data key).isSome = true)
    (hreport : (d.physical, key, value) ∈ reports) (time : ℕ) (type : NodeData.ValueType) :
    Sound reports clock
      { d with data := Function.update d.data key (some (value, time, type)) } where
  physical := h.physical
  reported k v t ty hdata := by
    by_cases hk : k = key
    · subst hk
      simp only [update_self, some.injEq, Prod.mk.injEq] at hdata
      rw [← hdata.1]
      exact hreport
    · exact h.reported k v t ty (by simpa [update_of_ne hk] using hdata)
  timestamps k := by
    by_cases hk : k = key
    · subst hk
      simp [h.timestamps k, hkey]
    · simpa [update_of_ne hk] using h.timestamps k
  last := h.last

/-- The node sends a value of the type it had, and a static one unchanged. -/
def Consistent (d : DistributedData) (entry : Text × NodeData.Value × NodeData.ValueType) :
    Prop :=
  ∀ value time type, d.data entry.1 = some (value, time, type) →
    type = entry.2.2 ∧ (type = .kValueStatic → value = entry.2.1)

/-- A key that is known is updated. -/
theorem store_of_known {d₁ d₂ : DistributedData} {type : NodeData.ValueType}
    (hupdate : updateData key value clock type d = (d₁, .ok true))
    (hpush : pushTimestamp key clock d₁ = (d₂, .ok true)) :
    store clock (key, value, type) d = (d₂, .ok ()) := by
  have hboth : update key value clock type d = (d₂, .ok true) := by
    unfold update
    rw [bind_run_ok hupdate]
    exact hpush
  unfold store
  simp only [bind_run_ok hboth]
  rfl

theorem store_run (h : d.Sound reports clock)
    {entry : Text × NodeData.Value × NodeData.ValueType}
    (hreport : (d.physical, entry.1, entry.2.1) ∈ reports) (hentry : d.Consistent entry) :
    ∃ d', store clock entry d = (d', .ok ()) ∧ d'.Sound reports clock ∧
      d'.physical = d.physical ∧ ∀ k, k ≠ entry.1 → d'.data k = d.data k := by
  obtain ⟨key, value, type⟩ := entry
  cases hdata : d.data key with
  | none =>
    have htimes : d.updateTimestamps key = none :=
      not_isSome_iff_eq_none.mp (by rw [h.timestamps key, hdata]; simp)
    have hupdateData : updateData key value clock type d = (d, .ok false) := by
      simp [updateData, hdata]
    have hupdate : update key value clock type d = (d, .ok false) := by
      unfold update
      rw [bind_run_ok hupdateData]
      rfl
    have hinsert : insert key value clock type d = ({ d with
        data := Function.update d.data key (some (value, clock, type))
        updateTimestamps := Function.update d.updateTimestamps key (some [clock]) },
        .ok true) := by
      unfold insert
      rw [get_bind_run]
      simp [hdata, htimes]
    refine ⟨{ d with
      data := Function.update d.data key (some (value, clock, type))
      updateTimestamps := Function.update d.updateTimestamps key (some [clock]) }, ?_, ?_, rfl,
      fun k hk => update_of_ne hk _ _⟩
    · unfold store
      simp only [bind_run_ok hupdate, Bool.false_eq_true, if_false,
        bind_run_ok hinsert]
      rfl
    · refine ⟨h.physical, fun k v t ty hk => ?_, fun k => ?_, fun k ts hts => ?_⟩
      · by_cases hkk : k = key
        · subst hkk
          simp only [update_self, some.injEq, Prod.mk.injEq] at hk
          rw [← hk.1]
          exact hreport
        · exact h.reported k v t ty (by simpa [update_of_ne hkk] using hk)
      · by_cases hkk : k = key
        · subst hkk
          simp
        · simpa [update_of_ne hkk] using h.timestamps k
      · by_cases hkk : k = key
        · subst hkk
          simp only [update_self, some.injEq] at hts
          simp [← hts]
        · exact h.last k ts (by simpa [update_of_ne hkk] using hts)
  | some old =>
    obtain ⟨oldValue, oldTime, oldType⟩ := old
    obtain ⟨rfl, hstatic⟩ := hentry oldValue oldTime oldType hdata
    have hkey : (d.data key).isSome = true := by rw [hdata]; rfl
    by_cases htype : oldType = .kValueStatic
    · have hsame := hstatic htype
      obtain ⟨times, hpush, hlast⟩ := pushTimestamp_run h hkey
      refine ⟨_, store_of_known ?_ hpush, h.withTimestamps hkey hlast, rfl, fun _ _ => rfl⟩
      simp [updateData, hdata, htype, hsame]
    · have hsound := h.withValue hkey hreport clock oldType
      have hkey' : (Function.update d.data key (some (value, clock, oldType)) key).isSome =
          true := by
        rw [update_self]
        rfl
      obtain ⟨times, hpush, hlast⟩ := pushTimestamp_run hsound hkey'
      refine ⟨_, store_of_known ?_ hpush, hsound.withTimestamps hkey' hlast, rfl,
        fun k hk => update_of_ne hk _ _⟩
      simp [updateData, hdata, htype]

/-- The entries of a message have different keys, so that what is stored for
the first ones does not matter for the others. -/
theorem forEach_store_run {entries : List (Text × NodeData.Value × NodeData.ValueType)}
    (hkeys : (entries.map Prod.fst).Nodup) (h : d.Sound reports clock)
    (hreports : ∀ entry ∈ entries, (d.physical, entry.1, entry.2.1) ∈ reports)
    (hentries : ∀ entry ∈ entries, d.Consistent entry) :
    ∃ d', forEach entries (store clock) d = (d', .ok ()) ∧ d'.Sound reports clock ∧
      d'.physical = d.physical := by
  induction entries generalizing d with
  | nil => exact ⟨d, rfl, h, rfl⟩
  | cons entry entries ih =>
    obtain ⟨hnot, hkeys⟩ := nodup_cons.mp (map_cons ▸ hkeys)
    obtain ⟨d₁, hrun, hsound, hphysical, hother⟩ :=
      store_run h (hreports entry (by simp)) (hentries entry (by simp))
    rw [forEach_cons, bind_run_ok hrun, ← hphysical]
    refine ih hkeys hsound (fun e he => ?_) fun e he => ?_
    · rw [hphysical]
      exact hreports e (by simp [he])
    · have hne : e.1 ≠ entry.1 := by
        intro heq
        exact hnot (heq ▸ mem_map_of_mem he)
      intro value time type hdata
      rw [hother e.1 hne] at hdata
      exact hentries e (by simp [he]) value time type hdata

end Store

end DistributedData

namespace DsnNode

/-! ### The handler returns -/

/-- A node without a position, or one whose children have room for children. -/
inductive Routed (m : ℕ) (ri : RoutingInformation) : Prop
  | unplaced {address : Address} (self : ri.selfNodeInfo = ⟨none, some address⟩) : Routed m ri
  | placed {p : Pos} {address : Address} {v : Pos → Option Address} {left right : NodeInfo}
      (valid : p.Valid m) (roomy : Roomy m (p.level + 1))
      (shows : ri = ofView m p address v left right) : Routed m ri

/-- What `h'` knows was known before or is an address without values. -/
structure Derived (h h' : DsnHandler) : Prop where
  data : ∀ q d, h'.coverData q = some d →
    h.coverData q = some d ∨ ∃ address, d = .ofPhysical (some address)
  extended : (∀ q, h.extendedCoverData q = none) → ∀ q, h'.extendedCoverData q = none

theorem eraseRemoveIf_subset (pred : Pos → Bool) (ps : List Pos) :
    eraseRemoveIf pred ps ⊆ ps := by
  intro q hq
  rcases mem_append.mp hq with hq | hq
  · exact (mem_filter.mp hq).1
  · exact mem_of_mem_drop hq

variable {m : ℕ} {ri ri' : RoutingInformation} {s : DsnNode}

theorem enterKnown_fresh (hself : ri.selfNodeInfo.isValidPeer = true) {ps : List Pos}
    (hps : ∀ q ∈ ps, isPositionValid m q = true) (data : Pos → Option DistributedData) :
    ∃ data', enterKnown m ri data ps = .ok data' ∧ ∀ q d, data' q = some d →
      data q = some d ∨ ∃ address, d = .ofPhysical (some address) := by
  induction ps generalizing data with
  | nil => exact ⟨data, rfl, fun _ _ => Or.inl⟩
  | cons r ps ih =>
    obtain ⟨n, hn⟩ : ∃ n, ri.getNodeInfoByPosition m r = .ok n := by
      unfold getNodeInfoByPosition
      rw [if_neg (by simp [hself]), if_neg (by simp [hps r (by simp)])]
      exact ⟨_, rfl⟩
    obtain ⟨data', hrun, hdata⟩ := ih (fun q hq => hps q (by simp [hq]))
      (if n.isInitialized then
        Function.update data n.pos (some (.ofPhysical n.physical)) else data)
    refine ⟨data', ?_, fun q d hd => ?_⟩
    · rw [enterKnown, hn]
      exact hrun
    · rcases hdata q d hd with hd | hfresh
      · by_cases hinit : n.isInitialized = true
        · rw [if_pos hinit] at hd
          by_cases hq : q = n.pos
          · subst hq
            obtain ⟨address, haddress⟩ :=
              isSome_iff_exists.mp (NodeInfo.isInitialized_iff.mp hinit).2
            rw [update_self, haddress, some.injEq] at hd
            exact Or.inr ⟨address, hd.symm⟩
          · rw [update_of_ne hq] at hd
            exact Or.inl hd
        · rw [if_neg hinit] at hd
          exact Or.inl hd
      · exact Or.inr hfresh

section Placed

variable {m : ℕ} (hm : isFanoutValid m = true) {p : Pos} (hp : p.Valid m)
  (hroom : Roomy m (p.level + 1))
  {address : Address} {v : Pos → Option Address} {left right : NodeInfo} {s : DsnNode}
  (hri : s.routingInfo = ofView m p address v left right)
include hm hroom hri

theorem buildCoverArea_returns (hdsn : IsDsn m p) :
    ∃ h, buildCoverArea m s = ({ s with handler := h }, .ok ()) ∧ Derived s.handler h := by
  obtain ⟨area, harea, hvalid⟩ := exists_coverArea hm (hroom.pred hm) hdsn
  have hself : s.routingInfo.selfNodeInfo.isValidPeer = true := by rw [hri]; rfl
  have hpos : s.routingInfo.selfNodeInfo.pos = p := by rw [hri]; rfl
  set kept := fun q => if q ∈ area then s.handler.coverData q else none with hkept
  obtain ⟨data, hrun, hdata⟩ := enterKnown_fresh (m := m) hself
    (fun q hq => (hvalid q (withoutKeys_subset hq)).1) kept
  refine ⟨{ s.handler with coverAreaPositions := area, coverData := data }, ?_,
    fun q d hd => ?_, fun h => h⟩
  · unfold buildCoverArea onHandler
    simp only [get_bind_run, hpos, harea, lift_ok_bind_run,
      modify_bind_run]
    rw [hrun]
    rfl
  · rcases hdata q d hd with hd | hfresh
    · simp only [hkept] at hd
      split_ifs at hd
      exact Or.inl hd
    · exact Or.inr hfresh

theorem updateDsn_returns (hdsn : IsDsn m p) :
    ∃ h, updateDsn m s = ({ s with handler := h }, .ok ()) ∧ Derived s.handler h := by
  obtain ⟨h, hbuild, hderived⟩ := buildCoverArea_returns hm hroom hri hdsn
  obtain ⟨next, hnext⟩ : ∃ n, s.routingInfo.getNextDSN m = .ok n := by
    rw [hri]
    exact getNextDSN_ofView hm (hroom.pred hm) hdsn
  unfold updateDsn
  rw [bind_run_ok hbuild]
  simp only [get_bind_run, hnext, lift_ok_bind_run]
  cases hinit : next.isInitialized with
  | true =>
    exact ⟨{ h with extendedCoverData := fun _ => none }, rfl, hderived.data,
      fun _ _ => rfl⟩
  | false =>
    refine ⟨h, ?_, hderived⟩
    simp [buildExtendedCoverArea, hnext, hinit]

/-- The DSN in whose place a temporary DSN acts. -/
theorem exists_coveringDSN (htemp : s.routingInfo.areWeTempDSN m = .ok true) :
    ∃ dsn, getCoveringDSN m (p.child m 0) = .ok dsn ∧ dsn.level = p.level + 1 ∧
      IsDsn m dsn := by
  have hset : getDSNSet m (p.level + 1) = .ok (dsnNumbers m (p.level + 1)) :=
    getDSNSet_eq hm hroom.fits
  obtain ⟨heven, -⟩ := level_of_areWeTempDSN htemp
  have hlevel : s.routingInfo.selfNodeInfo.level = p.level := by rw [hri]; rfl
  have hchildren : s.routingInfo.children = (childPositions m p).map (slot v) := by
    rw [hri]
    rfl
  rw [hlevel] at heven
  -- the missing child is not to the left of the first one
  obtain ⟨i, hi⟩ : ∃ i, p.number * m + i ∈ dsnNumbers m (p.level + 1) := by
    unfold areWeTempDSN at htemp
    obtain ⟨weAre, -, htemp⟩ := bind_eq_ok.mp htemp
    split_ifs at htemp
    · cases htemp
    · rw [hlevel, hset] at htemp
      obtain ⟨child, hchild, hmissing⟩ := any_eq_true.mp (Except.ok.inj htemp)
      rw [hchildren] at hchild
      obtain ⟨q, hq, rfl⟩ := mem_map.mp hchild
      obtain ⟨i, -, rfl⟩ := mem_map.mp hq
      simp only [Bool.and_eq_true, contains_iff_mem] at hmissing
      exact ⟨i, hmissing.1.1⟩
  have hdrop : (dsnNumbers m (p.level + 1)).dropWhile (· < p.number * m) ≠ [] := by
    intro h
    have := dropWhile_eq_nil_iff.mp h _ hi
    simp at this
  have hreturns : ∃ dsn, getCoveringDSN m (p.child m 0) = .ok dsn := by
    have hchild : p.child m 0 = ⟨p.level + 1, p.number * m⟩ := rfl
    unfold getCoveringDSN coveringLevel
    rw [hchild, if_pos heven, hset]
    simp only [bind, Except.bind, pure, Except.pure]
    split
    · rename_i h
      exact absurd h hdrop
    · exact ⟨_, rfl⟩
    · split_ifs <;> exact ⟨_, rfl⟩
  obtain ⟨dsn, hdsn⟩ := hreturns
  obtain ⟨hdsnLevel, dsnSet, hdsnSet, hmem⟩ := getCoveringDSN_mem heven hdsn
  have hsame : dsnSet = dsnNumbers m (p.level + 1) :=
    Except.ok.inj (hdsnSet.symm.trans hset)
  have hlevel' : dsn.level = p.level + 1 := hdsnLevel
  refine ⟨dsn, hdsn, hlevel', ?_⟩
  unfold IsDsn
  rw [hlevel', ← hsame]
  exact hmem

theorem buildTempCoverArea_returns (htemp : s.routingInfo.areWeTempDSN m = .ok true) :
    ∃ h, buildTempCoverArea m s = ({ s with handler := h }, .ok ()) ∧ Derived s.handler h := by
  have hm0 : 0 < m := by
    have := isFanoutValid_iff.mp hm
    omega
  obtain ⟨dsn, hdsn, hlevel, hisDsn⟩ := exists_coveringDSN hm hroom hri htemp
  obtain ⟨area, harea, hvalid⟩ := exists_coverArea hm (hlevel ▸ hroom) hisDsn
  have hself : s.routingInfo.selfNodeInfo.isValidPeer = true := by rw [hri]; rfl
  have hchild : s.routingInfo.getChild m 0 = .ok (slot v (p.child m 0)) := by
    unfold getChild
    rw [if_neg (by simp [hself]), if_neg (by omega), hri,
      children_getD_of_lt _ _ _ _ hm0]
  have hpos : (slot v (p.child m 0)).pos = p.child m 0 := rfl
  set positions := eraseRemoveIf
    (fun q => decide (q.level ≠ (slot v (p.child m 0)).level)) area with hpositions
  have hmem : ∀ q ∈ positions, isPositionValid m q = true := fun q hq =>
    (hvalid q (eraseRemoveIf_subset _ _ hq)).1
  obtain ⟨data, hrun, hdata⟩ := enterKnown_fresh hself hmem s.handler.coverData
  refine ⟨{ s.handler with coverAreaPositions := positions, coverData := data }, ?_,
    hdata, fun h => h⟩
  unfold buildTempCoverArea onHandler
  simp only [get_bind_run, hchild, lift_ok_bind_run, hpos, hdsn, harea,
    modify_bind_run]
  rw [← hpositions, hrun]
  rfl

end Placed

theorem clearData_derived (h : DsnHandler) (b : Bool) :
    Derived h { h with
      isActive := b, coverData := fun _ => none, extendedCoverData := fun _ => none } :=
  ⟨fun _ _ hd => (nomatch hd), fun _ _ => rfl⟩

theorem checkPosition_returns (hm : isFanoutValid m = true) (hrouted : Routed m s.routingInfo) :
    ∃ h, checkPosition m s = ({ s with handler := h }, .ok ()) ∧ Derived s.handler h := by
  cases hrouted with
  | unplaced self =>
    have hself : s.routingInfo.selfNodeInfo.isInitialized = false := by rw [self]; rfl
    refine ⟨_, ?_, clearData_derived s.handler false⟩
    simp [checkPosition, clearData, onHandler, hself]
  | @placed p address v left right valid roomy shows =>
    have hself : s.routingInfo.selfNodeInfo.isInitialized = true := by rw [shows]; rfl
    have hweAre : s.routingInfo.areWeDSN m = .ok (decide (IsDsn m p)) := by
      rw [shows, areWeDSN_ofView hm (roomy.pred hm)]
    obtain ⟨temp, htemp, hfalse⟩ : ∃ b, s.routingInfo.areWeTempDSN m = .ok b ∧
        (IsDsn m p → b = false) := by
      rw [shows]
      exact areWeTempDSN_ofView hm (roomy.pred hm)
    unfold checkPosition onHandler
    simp only [modify_bind_run, get_bind_run, hself, Bool.not_true,
      Bool.false_eq_true, if_false, hweAre, htemp, lift_ok_bind_run]
    by_cases hdsn : IsDsn m p
    · obtain rfl := hfalse hdsn
      simp only [hdsn, decide_true, Bool.not_true, Bool.false_and, Bool.false_eq_true,
        if_false, Bool.and_false, modify_bind_run, if_true]
      cases hprev : s.handler.wasPreviouslyActive with
      | true => exact ⟨_, rfl, fun _ _ => Or.inl, fun h => h⟩
      | false =>
        obtain ⟨h, hrun, hderived⟩ := updateDsn_returns
          (s := { s with handler :=
            { s.handler with isActive := true, wasPreviouslyActive := false } })
          hm roomy shows hdsn
        exact ⟨h, hrun, hderived.data, hderived.extended⟩
    · cases temp with
      | false =>
        refine ⟨_, ?_, clearData_derived s.handler false⟩
        simp [hdsn, clearData, onHandler]
      | true =>
        simp only [hdsn, decide_false, Bool.not_true, Bool.and_false, Bool.false_eq_true,
          if_false, Bool.false_and, modify_bind_run]
        cases hprev : s.handler.wasPreviouslyActive with
        | true => exact ⟨_, rfl, fun _ _ => Or.inl, fun h => h⟩
        | false =>
          obtain ⟨h, hrun, hderived⟩ := buildTempCoverArea_returns
            (s := { s with handler :=
              { s.handler with isActive := true, wasPreviouslyActive := false } })
            hm roomy shows htemp
          exact ⟨h, hrun, hderived.data, hderived.extended⟩

theorem isActive_returns (hm : isFanoutValid m = true) (hrouted : Routed m s.routingInfo) :
    ∃ h b, isActive m s = ({ s with handler := h }, .ok b) ∧ Derived s.handler h := by
  obtain ⟨h, hrun, hderived⟩ := checkPosition_returns hm
    (s := { s with handler := { s.handler with wasPreviouslyActive := s.handler.isActive } })
    hrouted
  refine ⟨h, h.isActive, ?_, hderived.data, hderived.extended⟩
  unfold isActive onHandler
  rw [modify_bind_run, bind_run_ok hrun]
  rfl

/-! ### What may happen -/

/-- The entries have different keys, as in the map of the message.  They come
from the stored address of a covered position, and fit what is stored. -/
def Accepted (s : DsnNode) (node : NodeInfo)
    (attributes : List (Text × NodeData.Value × NodeData.ValueType)) : Prop :=
  (attributes.map Prod.fst).Nodup ∧
    ∀ d, node.logical.bind s.handler.coverData = some d →
      d.physical = node.physical ∧ ∀ entry ∈ attributes, d.Consistent entry

/-- A covered node is replaced only if no value is stored for it, and messages
come from the nodes whose addresses are stored. -/
def Orderly (m : ℕ) (s : DsnNode) : Event → Prop
  | .setPosition q => Roomy m (q.level + 1)
  | .change op => ∀ n address d, op.report m s.routingInfo = some n →
      n.physical = some address → s.handler.coverData n.pos = some d →
      d.physical ≠ some address → ∀ key, d.data key = none
  | .attributeInquiryAnswer inquired attributes removedKeys =>
    Accepted s inquired attributes ∧
      (removedKeys ≠ [] → (inquired.logical.bind s.handler.coverData).isSome = true)
  | .subscriptionUpdate sender key value =>
    Accepted s sender [(key, value, .kValueDynamic)]
  | _ => True

/-! ### The invariant of runs -/

structure Faithful (m : ℕ) (s : DsnNode) : Prop where
  routed : Routed m s.routingInfo
  sound : ∀ q d, s.handler.coverData q = some d → d.Sound s.reports s.clock
  extended : ∀ q, s.handler.extendedCoverData q = none
  notFailed : s.handlerFailed = false

theorem Faithful.of_derived (h : Faithful m s) {h' : DsnHandler} (hderived : Derived s.handler h') :
    Faithful m { s with handler := h' } where
  routed := h.routed
  sound q d hd := by
    rcases hderived.data q d hd with hd | ⟨address, rfl⟩
    · exact h.sound q d hd
    · exact sound_ofPhysical _ _ address
  extended := hderived.extended h.extended
  notFailed := h.notFailed

/-- New sound data at one position. -/
theorem Faithful.update (h : Faithful m s) (q : Pos) {data : Option DistributedData}
    (hdata : ∀ d, data = some d → d.Sound s.reports s.clock) :
    Faithful m { s with handler :=
      { s.handler with coverData := Function.update s.handler.coverData q data } } where
  routed := h.routed
  sound r d hd := by
    by_cases hr : r = q
    · subst hr
      simp only [update_self] at hd
      exact hdata d hd
    · simp only [update_of_ne hr] at hd
      exact h.sound r d hd
  extended := h.extended
  notFailed := h.notFailed

/-- A call that returns does not set the flag. -/
theorem call_faithful {x : Action DsnNode Unit}
    (h : x.wp (fun _ => Faithful m) (fun _ => False) s) : Faithful m (call x s).1 := by
  cases hx : x s with
  | mk s' r =>
    cases r with
    | ok _ =>
      have := (wp_of_run_ok hx).mp h
      simpa only [call, hx] using this
    | error e => exact ((wp_of_run_error hx).mp h).elim

section Step

variable {m : ℕ} (hm : isFanoutValid m = true) {s : DsnNode} (h : Faithful m s)
include h

theorem requestAttributeInformation_faithful (peer : Pos) (data : DistributedData) :
    (requestAttributeInformation peer data).wp (fun _ => Faithful m) (fun _ => False) s := by
  unfold requestAttributeInformation
  rw [wp_ite]
  exact ⟨fun _ => ⟨h.routed, h.sound, h.extended, h.notFailed⟩, fun _ => h⟩

variable {n node : NodeInfo} {attributes : List (Text × NodeData.Value × NodeData.ValueType)}

theorem updateCoverData_faithful
    (hn : ∀ address d, n.physical = some address → s.handler.coverData n.pos = some d →
      d.physical ≠ some address → ∀ key, d.data key = none) :
    (updateCoverData n).wp (fun _ => Faithful m) (fun _ => False) s := by
  unfold updateCoverData onHandler
  rw [wp_bind, wp_get]
  simp only
  cases hdata : s.handler.coverData n.pos with
  | none =>
    cases hphys : n.physical with
    | none => exact h
    | some address =>
      simp only [wp_bind, wp_modify]
      refine requestAttributeInformation_faithful (h.update n.pos fun d hd => ?_) _ _
      rw [← some.inj hd]
      exact sound_ofPhysical _ _ address
  | some d =>
    cases hphys : n.physical with
    | none => exact h.update n.pos fun d hd => by cases hd
    | some address =>
      simp only [wp_ite, wp_modify, wp_pure]
      refine ⟨fun hother => h.update n.pos fun d' hd' => ?_, fun _ => h⟩
      rw [← some.inj hd']
      exact (h.sound _ d hdata).readdress (hn address d hphys hdata hother) address

/-- A message from the stored address of a position, or about a position that
is not covered. -/
theorem updateInquired_faithful (haccepted : Accepted s node attributes)
    (hreports : ∀ entry ∈ attributes, (node.physical, entry.1, entry.2.1) ∈ s.reports) :
    (updateInquiredOrSubscribedAttributeValues node attributes).wp
      (fun _ s' => Faithful m s' ∧
        (∀ d, node.logical.bind s.handler.coverData = some d →
          ∃ d', node.logical.bind s'.handler.coverData = some d' ∧
            d'.physical = node.physical))
      (fun _ => False) s := by
  obtain ⟨logical, physical⟩ := node
  unfold updateInquiredOrSubscribedAttributeValues
  rw [wp_bind, wp_get]
  cases logical with
  | none => exact ⟨h, fun d hd => by cases hd⟩
  | some q =>
    cases hdata : s.handler.coverData q with
    | none =>
      have hlookup : lookup s ⟨some q, physical⟩ = none := by
        simp [lookup, hdata, h.extended q]
      rw [hlookup]
      exact ⟨h, fun d hd => by simp [hdata] at hd⟩
    | some d =>
      have hlookup : lookup s ⟨some q, physical⟩ = some (.cover, q, d) := by
        simp [lookup, hdata]
      obtain ⟨hphysical, hconsistent⟩ := haccepted.2 d hdata
      have hphysical' : d.physical = physical := hphysical
      subst hphysical'
      obtain ⟨d', hrun, hsound, hsame⟩ := forEach_store_run haccepted.1
        (h.sound q d hdata) hreports hconsistent
      rw [hlookup]
      simp only [ne_eq, not_true_eq_false, false_and, if_false, hrun, setData, onHandler,
        wp_bind, wp_modify, wp_lift_ok]
      refine ⟨h.update q fun d'' hd'' => ?_, fun _ _ => ⟨d', by simp, hsame⟩⟩
      rw [← some.inj hd'']
      exact hsound

/-- Attributes are removed from the data of a covered position. -/
theorem updateRemovedAttributes_faithful {d : DistributedData}
    (hcovered : node.logical.bind s.handler.coverData = some d)
    (hphysical : d.physical = node.physical) (removedKeys : List Text) :
    (updateRemovedAttributes node removedKeys).wp (fun _ => Faithful m) (fun _ => False) s := by
  obtain ⟨q, hq, hdata⟩ := bind_eq_some_iff.mp hcovered
  unfold updateRemovedAttributes
  rw [wp_bind, wp_get]
  simp only [hcovered, hphysical, ne_eq, not_true_eq_false, if_false, setData, onHandler,
    wp_modify]
  refine h.update node.pos fun d' hd' => ?_
  rw [← some.inj hd']
  exact (h.sound q d hdata).foldl_remove removedKeys

theorem processAttributeInquiryAnswer_faithful {inquired : NodeInfo} {removedKeys : List Text}
    (haccepted : Accepted s inquired attributes)
    (hreports : ∀ entry ∈ attributes, (inquired.physical, entry.1, entry.2.1) ∈ s.reports)
    (hremoved : removedKeys ≠ [] →
      (inquired.logical.bind s.handler.coverData).isSome = true) :
    (processAttributeInquiryAnswer inquired attributes removedKeys).wp (fun _ => Faithful m)
      (fun _ => False) s := by
  unfold processAttributeInquiryAnswer
  rw [wp_bind]
  refine (updateInquired_faithful h haccepted hreports).imp (fun _ s' hs' => ?_) fun _ => id
  rw [wp_ite]
  refine ⟨fun hkeys => ?_, fun _ => hs'.1⟩
  obtain ⟨d, hd⟩ := isSome_iff_exists.mp (hremoved (by simpa using hkeys))
  obtain ⟨d', hd', hphysical⟩ := hs'.2 d hd
  exact updateRemovedAttributes_faithful hs'.1 hd' hphysical removedKeys

include hm

theorem onNeighborChangeNotification_faithful
    (hn : ∀ address d, n.physical = some address → s.handler.coverData n.pos = some d →
      d.physical ≠ some address → ∀ key, d.data key = none) :
    (onNeighborChangeNotification m n).wp (fun _ => Faithful m) (fun _ => False) s := by
  obtain ⟨h', b, hrun, hderived⟩ := isActive_returns hm h.routed
  have hfaithful := h.of_derived hderived
  unfold onNeighborChangeNotification
  rw [wp_bind, wp_of_run_ok hrun, wp_ite]
  refine ⟨fun _ => hfaithful, fun _ => ?_⟩
  rw [wp_bind, wp_get, wp_ite]
  refine ⟨fun _ => updateCoverData_faithful hfaithful fun address d hphys hd hother => ?_,
    fun _ => hfaithful⟩
  rcases hderived.data _ d hd with hd | ⟨fresh, rfl⟩
  · exact hn address d hphys hd hother
  · exact fun _ => rfl

theorem onNodeInfoChangeNotification_faithful :
    (onNodeInfoChangeNotification m).wp (fun _ => Faithful m) (fun _ => False) s := by
  obtain ⟨h', b, hrun, hderived⟩ := isActive_returns hm h.routed
  have hfaithful := h.of_derived hderived
  unfold onNodeInfoChangeNotification
  rw [wp_bind, wp_of_run_ok hrun, wp_bind, wp_get, wp_ite]
  exact ⟨fun _ => wp_forEach
    (fun peer _ s' hs' => requestAttributeInformation_faithful hs' _ _) hfaithful,
    fun _ => hfaithful⟩

theorem notifyNodeInfoChange_faithful (previous : NodeInfo) :
    Faithful m (notifyNodeInfoChange m previous s).1 := by
  unfold notifyNodeInfoChange
  rw [get_bind_run]
  split_ifs
  · exact h
  · exact call_faithful (onNodeInfoChangeNotification_faithful hm h)

end Step

/-! ### Whole runs -/

theorem Routed.physical (h : Routed m ri) : ∃ address, ri.selfNodeInfo.physical = some address := by
  cases h with
  | unplaced self => exact ⟨_, by rw [self]⟩
  | placed _ _ shows => exact ⟨_, by rw [shows]; rfl⟩

theorem routed_setPosition (hm : isFanoutValid m = true) (h : Routed m ri) {q : Pos}
    (hroom : Roomy m (q.level + 1)) (hset : ri.setPosition m q = .ok ri') : Routed m ri' := by
  obtain ⟨address, haddress⟩ := h.physical
  unfold setPosition at hset
  rw [haddress] at hset
  split_ifs at hset with hvalid hsome
  · have hq : q.Valid m := (isPositionValid_iff hm).mp (by simpa using hvalid)
    rw [init_eq_ofView hm (hroom.pred hm).fits hq] at hset
    exact .placed hq hroom (Except.ok.inj hset).symm
  · simp at hsome

theorem routed_resetPosition (h : Routed m ri) : Routed m ri.resetPosition := by
  obtain ⟨address, haddress⟩ := h.physical
  have hself : ri.resetPosition.selfNodeInfo = ⟨none, some address⟩ := by
    rw [← haddress]
    rfl
  exact .unplaced hself

theorem routed_perform (hm : isFanoutValid m = true) (h : Routed m ri) {op : SlotOperation}
    (hop : op.perform m ri = .ok ri') : Routed m ri' := by
  cases h with
  | unplaced self =>
    obtain ⟨e, he⟩ : ∃ e, op.perform m ri = .error e :=
      SlotOperation.perform_of_not_isValidPeer (by rw [self]; rfl) op
    rw [he] at hop
    cases hop
  | placed valid roomy shows =>
    rw [shows] at hop
    have heffect := SlotOperation.effect hm (roomy.pred hm).fits valid hop
    generalize op.report m _ = reported at heffect
    cases heffect with
    | nothing => exact .placed valid roomy rfl
    | slot _ _ _ => exact .placed valid roomy rfl
    | left _ _ => exact .placed valid roomy rfl
    | right _ _ => exact .placed valid roomy rfl

theorem addReports_run (sender : NodeInfo)
    (attributes : List (Text × NodeData.Value × NodeData.ValueType))
    (x : Action DsnNode Unit) (s : DsnNode) :
    (addReports sender attributes >>= fun _ => x) s = x { s with
      reports := s.reports ++ attributes.map fun a => (sender.physical, a.1, a.2.1) } := rfl

/-- A longer history of reports. -/
theorem Faithful.addReports (h : Faithful m s) (reports : Reports) :
    Faithful m { s with reports := s.reports ++ reports } where
  routed := h.routed
  sound q d hd := (h.sound q d hd).mono (subset_append_left _ _) le_rfl
  extended := h.extended
  notFailed := h.notFailed

theorem step_faithful (hm : isFanoutValid m = true) {s' : DsnNode} {e : Event} (h : Faithful m s)
    (horderly : Orderly m s e) (hstep : step m s e = some s') : Faithful m s' := by
  cases e with
  | setPosition q =>
    unfold step at hstep
    cases hri : s.routingInfo.setPosition m q with
    | error e => simp [hri] at hstep
    | ok ri =>
      simp only [hri, some.injEq] at hstep
      subst hstep
      have hfaithful : Faithful m { s with routingInfo := ri } :=
        ⟨routed_setPosition hm h.routed horderly hri, h.sound, h.extended, h.notFailed⟩
      exact notifyNodeInfoChange_faithful hm hfaithful _
  | resetPosition =>
    obtain rfl := some.inj hstep
    have hfaithful : Faithful m { s with routingInfo := s.routingInfo.resetPosition } :=
      ⟨routed_resetPosition h.routed, h.sound, h.extended, h.notFailed⟩
    exact notifyNodeInfoChange_faithful hm hfaithful _
  | change op =>
    obtain rfl := some.inj hstep
    unfold performOperation setRoutingInfo
    rw [get_bind_run]
    cases hri : op.perform m s.routingInfo with
    | error e => exact h
    | ok ri =>
      rw [lift_ok_bind_run, modify_bind_run]
      have hfaithful : Faithful m { s with routingInfo := ri } :=
        ⟨routed_perform hm h.routed hri, h.sound, h.extended, h.notFailed⟩
      cases hreport : op.report m s.routingInfo with
      | none => exact hfaithful
      | some n =>
        exact call_faithful (onNeighborChangeNotification_faithful hm hfaithful
          fun address d => horderly n address d hreport)
  | queryActive =>
    obtain rfl := some.inj hstep
    obtain ⟨h', b, hrun, hderived⟩ := isActive_returns hm h.routed
    refine call_faithful ?_
    rw [wp_bind, wp_of_run_ok hrun]
    exact h.of_derived hderived
  | tick time =>
    obtain rfl := some.inj hstep
    exact ⟨h.routed, fun q d hd => (h.sound q d hd).mono (Subset.refl _)
      (Nat.le_add_right _ _), h.extended, h.notFailed⟩
  | attributeInquiryAnswer inquired attributes removedKeys =>
    obtain rfl := some.inj hstep
    rw [addReports_run]
    refine call_faithful (processAttributeInquiryAnswer_faithful (h.addReports _)
      horderly.1 (fun entry hentry => ?_) horderly.2)
    exact mem_append_right _ (mem_map.mpr ⟨entry, hentry, rfl⟩)
  | subscriptionUpdate sender key value =>
    obtain rfl := some.inj hstep
    rw [addReports_run]
    refine call_faithful ((updateInquired_faithful (h.addReports _) horderly
      fun entry hentry => ?_).imp (fun _ _ hs' => hs'.1) fun _ => id)
    exact mem_append_right _ (mem_map.mpr ⟨entry, hentry, rfl⟩)

theorem start_faithful (hm : isFanoutValid m = true) (h : IsStart m s) : Faithful m s := by
  have hstart : ∀ ri, Routed m ri → Faithful m (start m ri) := by
    intro ri hrouted
    have hempty : Faithful m {
        routingInfo := ri
        handler := ⟨false, false, [], fun _ => none, [], fun _ => none⟩
        inquiries := []
        clock := 0
        reports := []
        handlerFailed := false } :=
      ⟨hrouted, fun _ _ hd => (nomatch hd), fun _ => rfl, rfl⟩
    obtain ⟨h, hrun, hderived⟩ := checkPosition_returns hm hempty.routed
    have hchecked := hempty.of_derived hderived
    unfold start construct
    rw [bind_run_ok hrun]
    exact ⟨hchecked.routed, hchecked.sound, hchecked.extended, hchecked.notFailed⟩
  obtain ⟨address, rfl | ⟨ri, hri, rfl⟩⟩ := h
  · have hself : (unconnected address).selfNodeInfo =
        ⟨none, some address⟩ := rfl
    exact hstart _ (.unplaced hself)
  · have hm255 := isFanoutValid_iff.mp hm
    have hroom : Roomy m (0 + 1) := by
      have hsquare : m ^ (0 + 1 + 1) ≤ 255 ^ (0 + 1 + 1) := Nat.pow_le_pow_left hm255.2 _
      unfold Roomy
      omega
    have hvalid : (⟨0, 0⟩ : Pos).Valid m := Nat.pow_pos (by omega)
    rw [init_eq_ofView hm (hroom.pred hm).fits hvalid] at hri
    exact hstart ri (.placed hvalid hroom (Except.ok.inj hri).symm)

/-- Every stored value was reported by the node whose address is stored, and
no call of the handler has thrown, on every run on which a covered node is
replaced only while no value is stored for it and messages come from the nodes
whose addresses are stored. -/
theorem coverData_reported {m : ℕ} (hm : isFanoutValid m = true) {s₀ s : DsnNode}
    (hstart : IsStart m s₀) (hrun : Transitions.Reachable (step m) (Orderly m) s₀ s) :
    (∀ q d key value time type, s.handler.coverData q = some d →
      d.data key = some (value, time, type) → (d.physical, key, value) ∈ s.reports) ∧
      s.handlerFailed = false := by
  have hinv : Faithful m s := hrun.invariant (start_faithful hm hstart)
    fun _ _ _ h horderly hstep => step_faithful hm h horderly hstep
  exact ⟨fun q d key value time type hd => (hinv.sound q d hd).reported key value time type,
    hinv.notFailed⟩

/-- The node `2:3` answers with a value and is replaced: the value stays and
is filed under the new address, and a late message of the old node throws. -/
theorem value_of_replaced_node :
    ∃ s₀ s, IsStart 2 s₀ ∧ Transitions.Reachable (step 2) (fun _ _ => True) s₀ s ∧
      (∃ d value time type, s.handler.coverData ⟨2, 3⟩ = some d ∧
        d.data ['a'] = some (value, time, type) ∧ (d.physical, ['a'], value) ∉ s.reports) ∧
      s.handlerFailed = false ∧
      ∃ s', step 2 s (.subscriptionUpdate ⟨some ⟨2, 3⟩, some 7⟩ ['a'] (.bool false)) = some s' ∧
        s'.handlerFailed = true := by
  have hrun : ∃ s, Transitions.Reachable (step 2) (fun _ _ => True)
      (start 2 (.unconnected 1)) s ∧
      (((s.handler.coverData ⟨2, 3⟩).bind fun d => (d.data ['a']).map fun v => (d.physical, v)) =
          some (some 8, .bool true, 0, .kValueDynamic) ∧
        (some 8, ['a'], .bool true) ∉ s.reports ∧ s.handlerFailed = false ∧
        (step 2 s (.subscriptionUpdate ⟨some ⟨2, 3⟩, some 7⟩ ['a'] (.bool false))).map
          DsnNode.handlerFailed = some true) :=
    Transitions.exists_reachable_of_run
      [.setPosition ⟨2, 2⟩, .change (.updateRoutingTableNeighbor ⟨some ⟨2, 3⟩, some 7⟩),
        .attributeInquiryAnswer ⟨some ⟨2, 3⟩, some 7⟩ [(['a'], .bool true, .kValueDynamic)] [],
        .change (.updateRoutingTableNeighbor ⟨some ⟨2, 3⟩, some 8⟩)] (by decide +kernel)
  obtain ⟨s, hreach, hvalue, hnot, hfailed, hlate⟩ := hrun
  obtain ⟨d, hd, hdata⟩ := bind_eq_some_iff.mp hvalue
  obtain ⟨⟨value, time, type⟩, hkey, hsame⟩ := map_eq_some_iff.mp hdata
  simp only [Prod.mk.injEq] at hsame
  obtain ⟨hphysical, rfl, rfl, rfl⟩ := hsame
  exact ⟨_, s, ⟨1, Or.inl rfl⟩, hreach, ⟨d, _, _, _, hd, hkey, hphysical ▸ hnot⟩, hfailed,
    map_eq_some_iff.mp hlate⟩

/-- The DSN `2:2` stores the answer of `2:3`. -/
theorem coverData_reported_answer :
    ∃ s₀ s, IsStart 2 s₀ ∧ Transitions.Reachable (step 2) (Orderly 2) s₀ s ∧
      ((s.handler.coverData ⟨2, 3⟩).bind fun d => d.data ['a']).isSome = true ∧
      (∀ q d key value time type, s.handler.coverData q = some d →
        d.data key = some (value, time, type) → (d.physical, key, value) ∈ s.reports) ∧
      s.handlerFailed = false := by
  have hstart : IsStart 2 (start 2 (.unconnected 1)) := ⟨1, Or.inl rfl⟩
  have hplaced : step 2 (start 2 (.unconnected 1)) (.setPosition ⟨2, 2⟩) =
      some ((step 2 (start 2 (.unconnected 1)) (.setPosition ⟨2, 2⟩)).getD
        (start 2 (.unconnected 1))) := by
    obtain ⟨s, hs⟩ := isSome_iff_exists.mp (by decide +kernel :
      (step 2 (start 2 (.unconnected 1)) (.setPosition ⟨2, 2⟩)).isSome = true)
    rw [hs, getD_some]
  have hroom : Orderly 2 (start 2 (.unconnected 1)) (.setPosition ⟨2, 2⟩) :=
    (by decide : Roomy 2 (2 + 1))
  have hfirst := Transitions.Reachable.next .refl _ hroom hplaced
  have hsecond := hfirst.next (.change (.updateRoutingTableNeighbor ⟨some ⟨2, 3⟩, some 7⟩))
    (fun n address d hn _ hd _ => by
      have hreport : some n = some ⟨some ⟨2, 3⟩, some 7⟩ := hn.symm.trans (by decide +kernel)
      obtain rfl := some.inj hreport
      have hsome := congrArg isSome hd
      rw [isSome_some] at hsome
      exact absurd hsome (by decide +kernel)) rfl
  have hthird := hsecond.next
    (.attributeInquiryAnswer ⟨some ⟨2, 3⟩, some 7⟩ [(['a'], .bool true, .kValueDynamic)] [])
    ⟨⟨by decide, fun d hd => by
      have hphysical := congrArg (Option.map physical) hd
      have hempty := congrArg (Option.map fun d => (d.data ['a']).isSome) hd
      refine ⟨some.inj (hphysical.symm.trans (by decide +kernel)),
        fun entry hentry value time type hvalue => ?_⟩
      obtain rfl := mem_singleton.mp hentry
      have hnone : (d.data ['a']).isSome = false :=
        some.inj (hempty.symm.trans (by decide +kernel))
      simp [hvalue] at hnone⟩, fun h => absurd rfl h⟩ rfl
  exact ⟨_, _, hstart, hthird, by decide +kernel,
    coverData_reported (by decide) hstart hthird⟩

end DsnNode

end Sola.Minhton
