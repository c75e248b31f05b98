import Mathlib.Tactic.Linarith
import Sola.Daisi.StnConstraints
import Sola.Daisi.StnInsertion

/-!
The clock of the task management
(`setCurrentTime` and `updateOriginConstraints` of `stn_task_management.cpp`).

The times in the network are relative to the current time.  When the clock is
set, the bounds relative to the origin have to come closer to it by the time
that has passed.  They are moved away from it instead.
-/

namespace Sola.Daisi

open Sola.Lib Action SimpleTemporalNetwork Option

namespace StnTaskManagement

/-! ### Schedules in absolute times -/

/-- The states that are reached by adding tasks and setting the clock. -/
inductive Reached (amr : AmrMobility) : StnTaskManagement → Prop
  | init : Reached amr init
  | addTask {s} (task : Task) (point : Option StnInsertionPoint) :
      Reached amr s → Reached amr (addTask amr task point s).1
  | setCurrentTime {s} (now : ℚ) : Reached amr s → Reached amr (setCurrentTime now s).1

/-- The times after `now`, with the origin at 0. -/
def relativeTo (now : ℚ) (T : StnTaskManagementVertex → ℚ) (v : StnTaskManagementVertex) : ℚ :=
  if v = .origin then 0 else T v - now

/-- A schedule in absolute times satisfies the constraints. -/
def Meets (s : StnTaskManagement) (T : StnTaskManagementVertex → ℚ) : Prop :=
  s.network.Satisfied (relativeTo s.timeNow T)

/-- The same schedules are possible after the clock has been set to `now`: the bounds are closer
to the origin by the time that has passed, and the others are the same. -/
structure KeepsDeadlines (s s' : StnTaskManagement) (now : ℚ) : Prop where
  schedules : ∀ T, (∀ v, now ≤ T v) → (s'.Meets T ↔ s.Meets T)
  upper : ∀ v e, s.network.edge .origin v = some e → ∃ e', s'.network.edge .origin v = some e' ∧
    e'.getWeight = e.getWeight - (now - s.timeNow)
  lower : ∀ v e, s.network.edge v .origin = some e → ∃ e', s'.network.edge v .origin = some e' ∧
    e'.getWeight = e.getWeight + (now - s.timeNow)
  others : ∀ u v, u ≠ .origin → v ≠ .origin → s'.network.edge u v = s.network.edge u v

/-! ### What happens to an edge -/

/-- What may happen to an edge when time `d` has passed, by whether it leaves or enters the
origin. -/
structure EdgeShift (d : ℚ) (leaves enters : Prop) (e e' : StnTaskManagementEdge) : Prop where
  upper : leaves → ¬ enters → e.getWeight ≤ e'.getWeight
  lower : enters → ¬ leaves → e'.getWeight ≤ e.getWeight
  same : d = 0 → e'.getWeight = e.getWeight
  others : ¬ leaves → ¬ enters → e' = e

theorem EdgeShift.refl (d : ℚ) (leaves enters : Prop) (e : StnTaskManagementEdge) :
    EdgeShift d leaves enters e e :=
  ⟨fun _ _ => le_rfl, fun _ _ => le_rfl, fun _ => rfl, fun _ _ => rfl⟩

theorem EdgeShift.trans {d : ℚ} {leaves enters : Prop} {e e' e'' : StnTaskManagementEdge}
    (h : EdgeShift d leaves enters e e') (h' : EdgeShift d leaves enters e' e'') :
    EdgeShift d leaves enters e e'' :=
  ⟨fun hl he => (h.upper hl he).trans (h'.upper hl he),
    fun he hl => (h'.lower he hl).trans (h.lower he hl),
    fun hd => (h'.same hd).trans (h.same hd), fun hl he => (h'.others hl he).trans (h.others hl he)⟩

section Weights

variable {e e' : StnTaskManagementEdge} {d : ℚ}

/-- The only weight of an edge is raised. -/
theorem getWeight_raised (hone : e.getNumberOfWeights = 1)
    (h : e.updateWeight 0 (e.getWeight + d) = .ok e') : e'.getWeight = e.getWeight + d := by
  obtain ⟨w, hw⟩ := List.length_eq_one_iff.mp hone
  unfold StnTaskManagementEdge.updateWeight at h
  split_ifs at h
  obtain rfl := Except.ok.inj h
  cases hpositive : e.allPositive with
  | true => simp [StnTaskManagementEdge.getWeight, hw, hpositive]
  | false => simp [StnTaskManagementEdge.getWeight, hw, hpositive]

/-- The first weight of an edge becomes smaller than all of them. -/
theorem getWeight_lowered (hd : 0 ≤ d) (hweight : e.getWeight ≤ 0)
    (h : e.updateWeight 0 (e.getWeight - d) = .ok e') :
    e'.getWeight ≤ e.getWeight ∧ (d = 0 → e'.getWeight = e.getWeight) := by
  unfold StnTaskManagementEdge.updateWeight at h
  split_ifs at h with hempty hsign
  obtain ⟨w, ws, hweights⟩ := List.exists_cons_of_length_pos (not_le.mp hempty)
  have hset : e'.weights = (e.getWeight - d) :: ws := by
    rw [← Except.ok.inj h, hweights, List.set_cons_zero]
  have hsame : e'.allPositive = e.allPositive := by rw [← Except.ok.inj h]
  have hfirst : e.getWeight - d ∈ e'.weights := by simp [hset]
  have hmem : e'.getWeight = e.getWeight - d ∨ e'.getWeight ∈ ws := by
    have hmem := getWeight_mem (e := e') (by simp [hset])
    rwa [hset, List.mem_cons] at hmem
  cases hpositive : e.allPositive with
  | false =>
    have hle := getWeight_le (hsame.trans hpositive) hfirst
    refine ⟨hle.trans (sub_le_self _ hd), fun hzero => le_antisymm ?_ ?_⟩
    · exact hle.trans (sub_le_self _ hd)
    · rcases hmem with heq | hmem
      · rw [heq, hzero, sub_zero]
      · exact getWeight_le hpositive (by simp [hweights, hmem])
  | true =>
    -- the weight is 0 and no time has passed
    have hle : 0 ≤ e.getWeight - d := by simpa [hpositive] using hsign
    have hzero : d = 0 := le_antisymm ((sub_nonneg.mp hle).trans hweight) hd
    have hle' : e'.getWeight ≤ e.getWeight := by
      rcases hmem with heq | hmem
      · rw [heq]
        exact sub_le_self _ hd
      · exact le_getWeight hpositive (by simp [hweights, hmem])
    refine ⟨hle', fun _ => le_antisymm hle' ?_⟩
    have hge := le_getWeight (hsame.trans hpositive) hfirst
    rwa [hzero, sub_zero] at hge

end Weights

/-- The network after the clock has been set, as far as it is known. -/
structure Shifted (d : ℚ) (g g' : SimpleTemporalNetwork StnTaskManagementVertex) : Prop where
  vertices : g'.vertices = g.vertices
  entries : ∀ i j, Option.Rel (EdgeShift d (i = 0) (j = 0)) (g.adjacencyMatrix i j)
    (g'.adjacencyMatrix i j)

section Shifted

variable {g g' : SimpleTemporalNetwork StnTaskManagementVertex} {d now : ℚ} {i j : ℕ}
  {f : StnTaskManagementEdge → Except String StnTaskManagementEdge}

theorem Shifted.refl (d : ℚ) (g : SimpleTemporalNetwork StnTaskManagementVertex) :
    Shifted d g g := by
  refine ⟨rfl, fun i j => ?_⟩
  cases g.adjacencyMatrix i j with
  | none => exact .none
  | some e => exact .some (.refl d _ _ e)

theorem preserves_modifyEntry (hf : ∀ e e', f e = .ok e' → EdgeShift d (i = 0) (j = 0) e e') :
    Preserves (Shifted d g) (modifyEntry i j f) := by
  intro g₁ h
  unfold modifyEntry
  rw [get_bind_run]
  cases hentry : g₁.adjacencyMatrix i j with
  | none => exact h
  | some e =>
    cases he : f e with
    | error e =>
      simp only [he]
      exact h
    | ok e' =>
      simp only [he]
      refine ⟨h.vertices, fun i' j' => ?_⟩
      have hold := h.entries i' j'
      simp only [lift_ok_bind_run, modify_run]
      split_ifs with heq
      · obtain ⟨rfl, rfl⟩ := heq
        rw [hentry] at hold
        generalize g.adjacencyMatrix i' j' = first at hold ⊢
        cases hold with
        | some hold => exact .some (hold.trans (hf e e' he))
      · exact hold

theorem preserves_updateOriginConstraints (hd : 0 ≤ d) :
    Preserves (Shifted d g) (updateOriginConstraints d) := by
  refine Preserves.bind (fun _ h => h) fun g₁ => ?_
  split_ifs
  · exact fun _ h => h
  refine (preserves_forEach (fun j => preserves_modifyEntry fun e e' he => ?_) _).bind fun _ =>
    preserves_forEach (fun i => preserves_modifyEntry fun e e' he => ?_) _
  · split_ifs at he with hassert
    have hraised := getWeight_raised (by simpa using (not_or.mp hassert).1) he
    refine ⟨fun _ _ => ?_, fun _ hne => absurd rfl hne, fun hzero => ?_, fun hne => absurd rfl hne⟩
    · rw [hraised]
      exact le_add_of_nonneg_right hd
    · rw [hraised, hzero, add_zero]
  · split_ifs at he with hassert
    obtain ⟨hle, hsame⟩ := getWeight_lowered hd (not_lt.mp hassert) he
    exact ⟨fun _ hne => absurd rfl hne, fun _ _ => hle, hsame, fun _ hne => absurd rfl hne⟩

/-- By the vertices, of which the origin is the first. -/
theorem Shifted.edge (h : Shifted d g g') (hhead : g.vertices.head? = some .origin)
    (u v : StnTaskManagementVertex) :
    Option.Rel (EdgeShift d (u = .origin) (v = .origin)) (g.edge u v) (g'.edge u v) := by
  have hzero : ∀ u ∈ g.vertices, (g.vertices.idxOf u = 0 ↔ u = .origin) := by
    intro u hu
    obtain ⟨vertices, hvertices⟩ := List.head?_eq_some_iff.mp hhead
    rw [hvertices, List.idxOf_eq_zero_iff_head_eq (by simp)]
    simp [eq_comm]
  unfold SimpleTemporalNetwork.edge
  rw [h.vertices]
  split_ifs with hmem
  · have hentry := h.entries (g.vertices.idxOf u) (g.vertices.idxOf v)
    rwa [propext (hzero u hmem.1), propext (hzero v hmem.2)] at hentry
  · exact .none

end Shifted

/-! ### Deadlines -/

section Deadlines

variable {amr : AmrMobility} {s s' : StnTaskManagement} {now : ℚ}

theorem setCurrentTime_shifted (hnow : s.timeNow ≤ now) :
    Shifted (now - s.timeNow) s.network (setCurrentTime now s).1.network ∧
      ((setCurrentTime now s).1.timeNow = s.timeNow ∨
        (setCurrentTime now s).1.timeNow = now) := by
  have hshifted := preserves_updateOriginConstraints (sub_nonneg.mpr hnow) s.network
    (.refl _ s.network)
  unfold setCurrentTime
  rw [get_bind_run, if_neg (not_lt.mpr hnow)]
  cases hrun : updateOriginConstraints (now - s.timeNow) s.network with
  | mk g r =>
    rw [hrun] at hshifted
    have hnetwork : onNetwork (updateOriginConstraints (now - s.timeNow)) s =
        ({ s with network := g }, r) := by
      rw [onNetwork, zoom, hrun]
    cases r with
    | ok _ =>
      rw [bind_run_ok hnetwork]
      exact ⟨hshifted, Or.inr rfl⟩
    | error e =>
      rw [bind_run_error hnetwork]
      exact ⟨hshifted, Or.inl rfl⟩

theorem preserves_setCurrentTime {g : SimpleTemporalNetwork StnTaskManagementVertex} :
    Preserves (fun s => g.vertices <+: s.network.vertices) (setCurrentTime now) := by
  intro s h
  by_cases hnow : s.timeNow ≤ now
  · rwa [(setCurrentTime_shifted hnow).1.vertices]
  · unfold setCurrentTime
    rw [get_bind_run, if_pos (not_le.mp hnow)]
    exact h

theorem Reached.head (hs : Reached amr s) : s.network.vertices.head? = some .origin := by
  have hprefix : [StnTaskManagementVertex.origin] <+: s.network.vertices := by
    induction hs with
    | init => exact List.prefix_rfl
    | addTask task point _ ih => 
        exact ih.trans (preserves_addTask _ (GrownFrom.refl _)).vertices
    | @setCurrentTime s now _ ih => exact preserves_setCurrentTime (g := .ofOrigin .origin) s ih
  obtain ⟨rest, hrest⟩ := hprefix
  rw [← hrest]
  rfl

theorem exists_edge_of_rel {R : StnTaskManagementEdge → StnTaskManagementEdge → Prop}
    {o o' : Option StnTaskManagementEdge} (h : Option.Rel R o o') {e : StnTaskManagementEdge}
    (he : o = some e) : ∃ e', o' = some e' ∧ R e e' := by
  cases h with
  | some h =>
    obtain rfl := some.inj he
    exact ⟨_, rfl, h⟩
  | none => cases he

section Shift

variable (hedge : ∀ u v, Option.Rel (EdgeShift (now - s.timeNow) (u = .origin) (v = .origin))
  (s.network.edge u v) (s'.network.edge u v))
include hedge

theorem KeepsDeadlines.noBounds (h : KeepsDeadlines s s' now) (hlt : s.timeNow < now)
    (v : StnTaskManagementVertex) :
    s.network.edge .origin v = none ∧ s.network.edge v .origin = none := by
  have hpos : 0 < now - s.timeNow := sub_pos.mpr hlt
  have hself : s.network.edge .origin .origin = none := by
    by_contra hne
    obtain ⟨e, he⟩ := ne_none_iff_exists'.mp hne
    obtain ⟨e', he', hupper⟩ := h.upper _ e he
    obtain ⟨e'', he'', hlower⟩ := h.lower _ e he
    obtain rfl := some.inj (he'.symm.trans he'')
    linarith
  by_cases hv : v = .origin
  · subst hv
    exact ⟨hself, hself⟩
  constructor
  · by_contra hne
    obtain ⟨e, he⟩ := ne_none_iff_exists'.mp hne
    obtain ⟨e', he', hupper⟩ := h.upper _ e he
    obtain ⟨e'', he'', hshift⟩ := exists_edge_of_rel (hedge _ _) he
    obtain rfl := some.inj (he'.symm.trans he'')
    have hle := hshift.upper rfl hv
    linarith
  · by_contra hne
    obtain ⟨e, he⟩ := ne_none_iff_exists'.mp hne
    obtain ⟨e', he', hlower⟩ := h.lower _ e he
    obtain ⟨e'', he'', hshift⟩ := exists_edge_of_rel (hedge _ _) he
    obtain rfl := some.inj (he'.symm.trans he'')
    have hle := hshift.lower rfl hv
    linarith

theorem edge_eq_of_others {u v : StnTaskManagementVertex} (hu : u ≠ .origin) (hv : v ≠ .origin) :
    s'.network.edge u v = s.network.edge u v := by
  have hrel := hedge u v
  cases hold : s.network.edge u v with
  | none =>
    rw [hold] at hrel
    generalize s'.network.edge u v = new at hrel ⊢
    cases hrel
    rfl
  | some e =>
    obtain ⟨e', he', hshift⟩ := exists_edge_of_rel hrel hold
    rw [he', hshift.others hu hv]

/-- Schedules are the same if the weights and the differences of times are. -/
theorem meets_iff (hweights : ∀ u v e e', s.network.edge u v = some e →
      s'.network.edge u v = some e' → e'.getWeight = e.getWeight)
    {T : StnTaskManagementVertex → ℚ}
    (htimes : ∀ u v e, s.network.edge u v = some e →
      relativeTo s'.timeNow T v - relativeTo s'.timeNow T u =
        relativeTo s.timeNow T v - relativeTo s.timeNow T u) : s'.Meets T ↔ s.Meets T := by
  constructor
  · intro hmeets u v e he
    obtain ⟨e', he', -⟩ := exists_edge_of_rel (hedge u v) he
    rw [← htimes u v e he, ← hweights u v e e' he he']
    exact hmeets u v e' he'
  · intro hmeets u v e' he'
    cases hold : s.network.edge u v with
    | none =>
      have hrel := hedge u v
      rw [hold, he'] at hrel
      cases hrel
    | some e =>
      rw [htimes u v e hold, hweights u v e e' hold he']
      exact hmeets u v e hold

end Shift

/-- The deadlines are kept exactly if no time has passed or there are none. -/
theorem keepsDeadlines_iff (hs : Reached amr s) (hnow : s.timeNow ≤ now) :
    KeepsDeadlines s (setCurrentTime now s).1 now ↔ now = s.timeNow ∨
      ∀ v, s.network.edge .origin v = none ∧ s.network.edge v .origin = none := by
  obtain ⟨hshifted, htime⟩ := setCurrentTime_shifted hnow
  have hedge := hshifted.edge hs.head
  generalize (setCurrentTime now s).1 = s' at *
  constructor
  · intro h
    rcases hnow.eq_or_lt with heq | hlt
    · exact Or.inl heq.symm
    · exact Or.inr (h.noBounds hedge hlt)
  · rintro (rfl | hnone)
    · have hzero : s.timeNow - s.timeNow = 0 := sub_self _
      have hsame : ∀ u v e, s.network.edge u v = some e → ∃ e', s'.network.edge u v = some e' ∧
          e'.getWeight = e.getWeight := by
        intro u v e he
        obtain ⟨e', he', hshift⟩ := exists_edge_of_rel (hedge u v) he
        exact ⟨e', he', hshift.same hzero⟩
      refine ⟨fun T _ => meets_iff hedge (fun u v e e' he he' => ?_) fun u v e he => ?_,
        fun v e he => ?_, fun v e he => ?_, fun u v => edge_eq_of_others hedge⟩
      · obtain ⟨e'', he'', hweight⟩ := hsame u v e he
        obtain rfl := some.inj (he'.symm.trans he'')
        exact hweight
      · rw [or_self_iff.mp htime]
      · rw [hzero, sub_zero]
        exact hsame _ v e he
      · rw [hzero, add_zero]
        exact hsame v _ e he
    · have hno : ∀ u v e, s.network.edge u v = some e → u ≠ .origin ∧ v ≠ .origin := by
        intro u v e he
        constructor
        · rintro rfl
          cases (hnone v).1.symm.trans he
        · rintro rfl
          cases (hnone u).2.symm.trans he
      refine ⟨fun T _ => meets_iff hedge (fun u v e e' he he' => ?_) fun u v e he => ?_,
        fun v e he => absurd rfl (hno _ v e he).1, fun v e he => absurd rfl (hno v _ e he).2,
        fun u v => edge_eq_of_others hedge⟩
      · have hequal := edge_eq_of_others hedge (hno u v e he).1 (hno u v e he).2
        rw [he, he'] at hequal
        rw [some.inj hequal]
      · simp only [relativeTo, if_neg (hno u v e he).1, if_neg (hno u v e he).2,
          sub_sub_sub_cancel_right]

/-- Before any task has been added the clock can be set. -/
theorem keepsDeadlines_init : KeepsDeadlines init (setCurrentTime 30 init).1 30 := by
  have hinit : Reached shuttle init := .init
  refine (keepsDeadlines_iff hinit (by decide)).mpr (Or.inr fun v => ?_)
  constructor
  · simp [init, SimpleTemporalNetwork.edge, ofOrigin]
  · simp [init, SimpleTemporalNetwork.edge, ofOrigin]

/-- The box is started after 50 seconds, when it may start, and ends after 70. -/
def boxSchedule (v : StnTaskManagementVertex) : ℚ := if v = .finish 0 then 70 else 50

/-- When 30 seconds have passed the box may start after another 80. -/
theorem not_keepsDeadlines_box : Reached shuttle boxAdded ∧ (∀ v, 30 ≤ boxSchedule v) ∧
    boxAdded.Meets boxSchedule ∧ ¬ (setCurrentTime 30 boxAdded).1.Meets boxSchedule := by
  refine ⟨.addTask boxTask none .init, fun v => ?_, ?_, fun hmeets => ?_⟩
  · unfold boxSchedule
    split_ifs
    · decide
    · decide
  · exact satisfied_iff_all.mpr (by decide +kernel)
  · exact absurd (satisfied_iff_all.mp hmeets) (by decide +kernel)

end Deadlines

end StnTaskManagement

end Sola.Daisi
