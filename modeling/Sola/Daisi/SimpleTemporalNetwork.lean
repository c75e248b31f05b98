import Mathlib.Algebra.Order.Field.Rat
import Sola.Lib.Action
import Sola.Lib.FloydWarshall

/-!
Simple temporal networks
(`daisi/src/datastructure/*.tpp` and `StnTaskManagementEdge`).

An edge from `u` to `v` of weight `w` says that `v` happens at most `w` after
`u`.  An edge has several weights, all of them of one sign.  The first vertex is
the origin of time.  The adjacency matrix is indexed by the positions of the
vertices; only the entries below the number of vertices belong to it.
-/

namespace Sola.Daisi

open Sola.Lib Action List FloydWarshall

/-! ### Edges -/

structure StnTaskManagementEdge where
  allPositive : Bool
  weights : List ℚ

namespace StnTaskManagementEdge

variable (e : StnTaskManagementEdge)

def addWeight (weight : ℚ) : Except String StnTaskManagementEdge :=
  if (0 ≤ weight ∧ e.allPositive = true) ∨ (weight ≤ 0 ∧ e.allPositive = false) then
    .ok { e with weights := e.weights ++ [weight] }
  else .error "Weight does not fit to the edge type"

def getWeight : ℚ :=
  if e.allPositive then e.weights.max?.getD 0 else e.weights.min?.getD 0

def removeLastWeight : StnTaskManagementEdge :=
  { e with weights := e.weights.dropLast }

def getNumberOfWeights : ℕ := e.weights.length

/-- Unlike `addWeight` this does not allow a weight of zero at a negative edge. -/
def updateWeight (index : ℕ) (weight : ℚ) : Except String StnTaskManagementEdge :=
  if e.weights.length ≤ index then .error "Index out of range"
  else if (0 ≤ weight ∧ e.allPositive = true) ∨ (weight < 0 ∧ e.allPositive = false) then
    .ok { e with weights := e.weights.set index weight }
  else .error "Weight does not fit to the edge type"

end StnTaskManagementEdge

/-! ### Networks -/

structure SimpleTemporalNetwork (V : Type) where
  vertices : List V
  adjacencyMatrix : ℕ → ℕ → Option StnTaskManagementEdge

namespace SimpleTemporalNetwork

variable {V : Type} [DecidableEq V]

abbrev Handler (V α : Type) : Type := Action (SimpleTemporalNetwork V) α

/-- The network with nothing but the origin. -/
def ofOrigin (origin : V) : SimpleTemporalNetwork V := ⟨[origin], fun _ _ => none⟩

section Operations

variable (g : SimpleTemporalNetwork V) (u v : V)

def addVertex : SimpleTemporalNetwork V :=
  if v ∈ g.vertices then g
  else
    let n := g.vertices.length
    ⟨g.vertices ++ [v], fun i j => if i = n ∨ j = n then none else g.adjacencyMatrix i j⟩

/-- The edge between two vertices of the network. -/
def edge : Option StnTaskManagementEdge :=
  if u ∈ g.vertices ∧ v ∈ g.vertices then
    g.adjacencyMatrix (g.vertices.idxOf u) (g.vertices.idxOf v)
  else none

def addEdge (e : StnTaskManagementEdge) : SimpleTemporalNetwork V :=
  { g with
    adjacencyMatrix := fun i j =>
      if i = g.vertices.idxOf u ∧ j = g.vertices.idxOf v then some e else g.adjacencyMatrix i j }

/-- A vertex is removed with its row.  From every other row the entry at twice the position
of the vertex is removed; past the end of the row there is none. -/
def removeVertex : Handler V Unit := do
  let g ← Action.get
  if g.vertices.head? = some v then
    Action.throw "Cannot remove origin from Simple Temporal Network"
  else if v ∈ g.vertices then
    let index := g.vertices.idxOf v
    if g.vertices.length ≤ 2 * index then
      Action.throw "erase past the end of a row"
    Action.modify fun g =>
      ⟨g.vertices.eraseIdx index, fun i j =>
        g.adjacencyMatrix (if i < index then i else i + 1) (if j < 2 * index then j else j + 1)⟩

/-- Add a weight to an edge, which may be new. -/
def addBound (positive : Bool) (weight : ℚ) : Handler V Unit := do
  let g ← Action.get
  let e ← Action.lift (((g.edge u v).getD ⟨positive, []⟩).addWeight weight)
  Action.modify fun g => g.addEdge u v e

/-- Replace the last weight of an edge. -/
def updateLastBound (weight : ℚ) : Handler V Unit := do
  let g ← Action.get
  match g.edge u v with
  | none => Action.throw "Bound cannot be updated if no edge exists"
  | some e =>
    let e ← Action.lift (e.removeLastWeight.addWeight weight)
    Action.modify fun g => g.addEdge u v e

def addBinaryConstraint (start finish : V) (lowerBound upperBound : Option ℚ) :
    Handler V Unit := do
  let g ← Action.get
  if ¬ (start ∈ g.vertices ∧ finish ∈ g.vertices) then
    Action.throw "Bound cannot be added for non-existent vertices"
  else
    match upperBound with
    | none => pure ()
    | some bound => addBound start finish true bound
    match lowerBound with
    | none => pure ()
    | some bound => addBound finish start false (-bound)

def updateLastBinaryConstraint (start finish : V) (lowerBound upperBound : Option ℚ) :
    Handler V Unit := do
  let g ← Action.get
  if ¬ (start ∈ g.vertices ∧ finish ∈ g.vertices) then
    Action.throw "Bound cannot be updated for non-existent vertices"
  else
    match upperBound with
    | none => pure ()
    | some bound => updateLastBound start finish bound
    match lowerBound with
    | none => pure ()
    | some bound => updateLastBound finish start (-bound)

def getOrigin : Handler V V := do
  let g ← Action.get
  match g.vertices with
  | [] => Action.throw "no origin"
  | origin :: _ => return origin

def addUnaryConstraint (lowerBound upperBound : Option ℚ) : Handler V Unit := do
  let origin ← getOrigin
  addBinaryConstraint origin v lowerBound upperBound

/-- The entry of the weight matrix. -/
def weight (i k : ℕ) : WithTop ℚ :=
  match g.adjacencyMatrix i k with
  | some e => (e.getWeight : ℚ)
  | none => if i = k then 0 else ⊤

def getWeightMatrix : List (List (WithTop ℚ)) :=
  (List.range g.vertices.length).map fun i => (List.range g.vertices.length).map (g.weight i)

def floydWarshall : List (List (WithTop ℚ)) :=
  FloydWarshall.floydWarshallRows g.vertices.length g.getWeightMatrix

/-- The shortest distances, if there is no negative cycle. -/
def solve : List (List (WithTop ℚ)) × Bool :=
  let d := g.floydWarshall
  (d, (List.range g.vertices.length).all fun i => FloydWarshall.entry d i i = 0)

end Operations

/-! ### Edges of a changed network -/

section Edges

variable {g : SimpleTemporalNetwork V} {u v u' v' : V}

theorem mem_addVertex : u ∈ (g.addVertex v).vertices ↔ u ∈ g.vertices ∨ u = v := by
  unfold addVertex
  split_ifs with h
  · exact ⟨Or.inl, fun hu => hu.elim id fun huv => huv ▸ h⟩
  · simp

theorem mem_of_edge {e : StnTaskManagementEdge} (h : g.edge u v = some e) :
    u ∈ g.vertices ∧ v ∈ g.vertices := by
  by_contra hnot
  rw [edge, if_neg hnot] at h
  cases h

/-- A new vertex has no edges. -/
theorem edge_addVertex : (g.addVertex v).edge u u' = g.edge u u' := by
  unfold addVertex
  split_ifs with h
  · rfl
  have hlast : ∀ x, x ∉ g.vertices → x ∈ g.vertices ++ [v] →
      (g.vertices ++ [v]).idxOf x = g.vertices.length := by
    intro x hx hmem
    have hxv : x = v := by simpa [hx] using hmem
    rw [idxOf_append_of_notMem hx, hxv]
    simp
  unfold edge
  by_cases hu : u ∈ g.vertices ∧ u' ∈ g.vertices
  · have hi := idxOf_lt_length_of_mem hu.1
    have hj := idxOf_lt_length_of_mem hu.2
    rw [if_pos hu, if_pos ⟨mem_append_left _ hu.1, mem_append_left _ hu.2⟩,
      idxOf_append_of_mem hu.1, idxOf_append_of_mem hu.2]
    exact if_neg (by omega)
  · rw [if_neg hu]
    split_ifs with hmem
    · refine if_pos ?_
      by_cases hu1 : u ∈ g.vertices
      · exact Or.inr (hlast u' (fun hu2 => hu ⟨hu1, hu2⟩) hmem.2)
      · exact Or.inl (hlast u hu1 hmem.1)
    · rfl

theorem edge_addEdge (hu : u ∈ g.vertices) (hv : v ∈ g.vertices) (e : StnTaskManagementEdge) :
    (g.addEdge u v e).edge u' v' = if u' = u ∧ v' = v then some e else g.edge u' v' := by
  unfold edge addEdge
  by_cases hmem : u' ∈ g.vertices ∧ v' ∈ g.vertices
  · simp only [if_pos hmem, idxOf_inj hmem.1, idxOf_inj hmem.2]
  · rw [if_neg hmem, if_neg hmem, if_neg]
    rintro ⟨rfl, rfl⟩
    exact hmem ⟨hu, hv⟩

end Edges

/-! ### Constraints -/

/-- The network has an edge which says that `v` happens at most `w` after `u`. -/
def Bounded (g : SimpleTemporalNetwork V) (u v : V) (w : ℚ) : Prop :=
  ∃ e, g.edge u v = some e ∧ e.getWeight ≤ w

/-- All constraints are kept. -/
structure Extends (g g' : SimpleTemporalNetwork V) : Prop where
  vertices : ∀ v ∈ g.vertices, v ∈ g'.vertices
  bounded : ∀ u v w, g.Bounded u v w → g'.Bounded u v w

/-- Upper bounds are edges from the origin, and lower bounds are all other edges. -/
structure Signed (origin : V) (g : SimpleTemporalNetwork V) : Prop where
  head : g.vertices.head? = some origin
  sign : ∀ u v e, g.edge u v = some e → (e.allPositive = true ↔ u = origin)

/-- The network with one more weight at an edge. -/
def push (g : SimpleTemporalNetwork V) (u v : V) (positive : Bool) (w : ℚ) :
    SimpleTemporalNetwork V :=
  let e := (g.edge u v).getD ⟨positive, []⟩
  g.addEdge u v { e with weights := e.weights ++ [w] }

section Constraints

variable {g g' g'' : SimpleTemporalNetwork V} {u v x origin : V} {w : ℚ}

theorem Bounded.mem (h : g.Bounded u v w) : u ∈ g.vertices ∧ v ∈ g.vertices := by
  obtain ⟨e, he, -⟩ := h
  exact mem_of_edge he

theorem Extends.refl (g : SimpleTemporalNetwork V) : Extends g g := ⟨fun _ h => h, fun _ _ _ h => h⟩

theorem Extends.trans (h : Extends g g') (h' : Extends g' g'') : Extends g g'' :=
  ⟨fun v hv => h'.vertices v (h.vertices v hv),
    fun u v w hw => h'.bounded u v w (h.bounded u v w hw)⟩

theorem extends_addVertex (g : SimpleTemporalNetwork V) (v : V) : Extends g (g.addVertex v) := by
  refine ⟨fun u hu => mem_addVertex.mpr (Or.inl hu), fun u u' w hw => ?_⟩
  obtain ⟨e, he, hle⟩ := hw
  exact ⟨e, by rw [edge_addVertex, he], hle⟩

theorem Signed.mem (h : Signed origin g) : origin ∈ g.vertices := mem_of_head? h.head

theorem Signed.addVertex (h : Signed origin g) (v : V) : Signed origin (g.addVertex v) := by
  refine ⟨?_, fun u u' e he => h.sign u u' e (by rwa [edge_addVertex] at he)⟩
  unfold SimpleTemporalNetwork.addVertex
  split_ifs
  · exact h.head
  · rw [head?_append, h.head]
    rfl

omit [DecidableEq V] in
/-- A further weight makes a lower bound stricter. -/
theorem getWeight_append_le {weights : List ℚ} (hw : w ≤ 0) :
    (⟨false, weights ++ [w]⟩ : StnTaskManagementEdge).getWeight ≤ w ∧
      (⟨false, weights ++ [w]⟩ : StnTaskManagementEdge).getWeight ≤
        (⟨false, weights⟩ : StnTaskManagementEdge).getWeight := by
  obtain ⟨least, hleast⟩ : ∃ least, (weights ++ [w]).min? = some least :=
    Option.isSome_iff_exists.mp (isSome_min?_of_mem (a := w) (by simp))
  have hle := (min?_eq_some_iff.mp hleast).2
  simp only [StnTaskManagementEdge.getWeight, Bool.false_eq_true, if_false, hleast,
    Option.getD_some]
  refine ⟨hle w (by simp), ?_⟩
  cases hmin : weights.min? with
  | none => exact (hle w (by simp)).trans hw
  | some m => exact hle m (mem_append_left _ (min?_eq_some_iff.mp hmin).1)

/-- Where an edge for a lower bound is or will be. -/
theorem Signed.edge_cases (h : Signed origin g) (hne : u ≠ origin) :
    ∃ weights, (g.edge u v).getD ⟨false, []⟩ = ⟨false, weights⟩ := by
  cases he : g.edge u v with
  | none => exact ⟨[], rfl⟩
  | some e =>
    have hsign : e.allPositive = false := by
      rw [Bool.eq_false_iff]
      exact fun hpos => hne ((h.sign u v e he).mp hpos)
    exact ⟨e.weights, by rw [Option.getD_some, ← hsign]⟩

section Lower

variable (h : Signed origin g) (hu : u ∈ g.vertices) (hv : v ∈ g.vertices)
include hu hv

theorem edge_push {positive : Bool} {u' v' : V} : (g.push u v positive w).edge u' v' =
    if u' = u ∧ v' = v then
      some ⟨((g.edge u v).getD ⟨positive, []⟩).allPositive,
        ((g.edge u v).getD ⟨positive, []⟩).weights ++ [w]⟩
    else g.edge u' v' :=
  edge_addEdge hu hv _

variable (hne : u ≠ origin)
include h hne

theorem Signed.push_lower : Signed origin (g.push u v false w) := by
  obtain ⟨weights, hedge⟩ := h.edge_cases (v := v) hne
  refine ⟨h.head, fun u' v' e he => ?_⟩
  rw [edge_push hu hv, hedge] at he
  split_ifs at he with heq
  · obtain rfl := Option.some.inj he
    simp [heq.1, hne]
  · exact h.sign u' v' e he

theorem bounded_push_lower (hw : w ≤ 0) : (g.push u v false w).Bounded u v w := by
  obtain ⟨weights, hedge⟩ := h.edge_cases (v := v) hne
  refine ⟨_, by rw [edge_push hu hv, if_pos ⟨rfl, rfl⟩], ?_⟩
  rw [hedge]
  exact (getWeight_append_le hw).1

theorem extends_push_lower (hw : w ≤ 0) : Extends g (g.push u v false w) := by
  obtain ⟨weights, hedge⟩ := h.edge_cases (v := v) hne
  refine ⟨fun x hx => hx, fun u' v' w' hbound => ?_⟩
  obtain ⟨e, he, hle⟩ := hbound
  by_cases heq : u' = u ∧ v' = v
  · obtain ⟨rfl, rfl⟩ := heq
    refine ⟨_, by rw [edge_push hu hv, if_pos ⟨rfl, rfl⟩], ?_⟩
    rw [he, Option.getD_some] at hedge
    rw [he, Option.getD_some, hedge]
    rw [hedge] at hle
    exact (getWeight_append_le hw).2.trans hle
  · exact ⟨e, by rw [edge_push hu hv, if_neg heq, he], hle⟩

end Lower

section Upper

variable (h : Signed origin g) (hv : v ∈ g.vertices) (hnew : g.edge origin v = none)
include h hv hnew

theorem Signed.push_upper : Signed origin (g.push origin v true w) := by
  refine ⟨h.head, fun u' v' e he => ?_⟩
  rw [edge_push h.mem hv, hnew] at he
  split_ifs at he with heq
  · obtain rfl := Option.some.inj he
    simp [heq.1]
  · exact h.sign u' v' e he

theorem bounded_push_upper : (g.push origin v true w).Bounded origin v w := by
  refine ⟨_, by rw [edge_push h.mem hv, if_pos ⟨rfl, rfl⟩], ?_⟩
  rw [hnew]
  exact le_rfl

theorem extends_push_upper : Extends g (g.push origin v true w) := by
  refine ⟨fun x hx => hx, fun u' v' w' hbound => ?_⟩
  obtain ⟨e, he, hle⟩ := hbound
  refine ⟨e, ?_, hle⟩
  rw [edge_push h.mem hv, if_neg, he]
  rintro ⟨rfl, rfl⟩
  rw [hnew] at he
  cases he

end Upper

end Constraints

/-! ### Runs that return -/

section Runs

variable {g g' : SimpleTemporalNetwork V} {u v : V} {w b : ℚ}

omit [DecidableEq V] in
theorem addWeight_eq_ok {e e' : StnTaskManagementEdge} (h : e.addWeight w = .ok e') :
    e' = { e with weights := e.weights ++ [w] } ∧ (e.allPositive = false → w ≤ 0) := by
  unfold StnTaskManagementEdge.addWeight at h
  split_ifs at h with hsign
  refine ⟨(Except.ok.inj h).symm, fun hneg => ?_⟩
  simpa [hneg] using hsign

variable {positive : Bool} {g'' : SimpleTemporalNetwork V}

theorem addBound_run (h : addBound u v positive w g = (g', .ok ())) :
    g' = g.push u v positive w ∧
      (((g.edge u v).getD ⟨positive, []⟩).allPositive = false → w ≤ 0) := by
  unfold addBound at h
  rw [get_bind_run] at h
  obtain ⟨e, he, hmodify⟩ := lift_bind_run_eq_ok.mp h
  obtain ⟨rfl, hsign⟩ := addWeight_eq_ok he
  exact ⟨(congrArg Prod.fst hmodify).symm, hsign⟩

/-- A lower bound is a weight at the edge back. -/
theorem addBinaryConstraint_lower_run
    (h : addBinaryConstraint u v (some b) none g = (g', .ok ())) :
    u ∈ g.vertices ∧ v ∈ g.vertices ∧ g' = g.push v u false (-b) ∧
      (((g.edge v u).getD ⟨false, []⟩).allPositive = false → 0 ≤ b) := by
  unfold addBinaryConstraint at h
  rw [get_bind_run] at h
  split_ifs at h with hmem
  · obtain ⟨hg, hsign⟩ := addBound_run h
    exact ⟨hmem.1, hmem.2, hg, fun hneg => neg_nonpos.mp (hsign hneg)⟩
  · cases h

theorem addBinaryConstraint_upper_run
    (h : addBinaryConstraint u v none (some b) g = (g', .ok ())) :
    u ∈ g.vertices ∧ v ∈ g.vertices ∧ g' = g.push u v true b := by
  unfold addBinaryConstraint at h
  rw [get_bind_run] at h
  split_ifs at h with hmem
  · obtain ⟨s₁, a, hbound, hrest⟩ := bind_run_eq_ok.mp h
    cases hrest
    exact ⟨hmem.1, hmem.2, (addBound_run hbound).1⟩
  · cases h

theorem addEdge_addEdge (e e' : StnTaskManagementEdge) :
    (g.addEdge u v e).addEdge u v e' = g.addEdge u v e' := by
  unfold addEdge
  congr 1
  funext i j
  by_cases hij : i = g.vertices.idxOf u ∧ j = g.vertices.idxOf v
  · simp only [if_pos hij]
  · simp only [if_neg hij]

/-- To update the weight that was added last is to add the new one instead. -/
theorem updateLastBinaryConstraint_run {w : ℚ} (hu : u ∈ g.vertices) (hv : v ∈ g.vertices)
    (h : updateLastBinaryConstraint u v (some b) none (g.push v u positive w) = (g', .ok ())) :
    g' = g.push v u positive (-b) ∧
      (((g.edge v u).getD ⟨positive, []⟩).allPositive = false → 0 ≤ b) := by
  unfold updateLastBinaryConstraint at h
  have hmem : u ∈ (g.push v u positive w).vertices ∧ v ∈ (g.push v u positive w).vertices :=
    ⟨hu, hv⟩
  rw [get_bind_run, if_neg (not_not.mpr hmem)] at h
  have hlast : updateLastBound v u (-b) (g.push v u positive w) = (g', .ok ()) := h
  unfold updateLastBound at hlast
  rw [get_bind_run, edge_push hv hu, if_pos ⟨rfl, rfl⟩] at hlast
  obtain ⟨e, he, hmodify⟩ := lift_bind_run_eq_ok.mp hlast
  obtain ⟨rfl, hsign⟩ := addWeight_eq_ok he
  refine ⟨?_, fun hneg => neg_nonpos.mp (hsign hneg)⟩
  have hg' := (congrArg Prod.fst hmodify).symm
  simpa only [modify_run, push, addEdge_addEdge, StnTaskManagementEdge.removeLastWeight,
    dropLast_concat] using hg'

/-- The network has got more lower bounds and is otherwise the same. -/
structure MoreLower (origin : V) (g g' : SimpleTemporalNetwork V) : Prop where
  signed : Signed origin g'
  kept : Extends g g'
  vertices : g'.vertices = g.vertices
  upper : ∀ v, g'.edge origin v = g.edge origin v

variable {origin : V}

theorem MoreLower.refl (h : Signed origin g) : MoreLower origin g g :=
  ⟨h, .refl g, rfl, fun _ => rfl⟩

theorem MoreLower.trans (h : MoreLower origin g g') (h' : MoreLower origin g' g'') :
    MoreLower origin g g'' :=
  ⟨h'.signed, h.kept.trans h'.kept, h'.vertices.trans h.vertices,
    fun v => (h'.upper v).trans (h.upper v)⟩

theorem moreLower_push (h : Signed origin g) (hu : u ∈ g.vertices) (hv : v ∈ g.vertices)
    (hne : u ≠ origin) (hw : w ≤ 0) : MoreLower origin g (g.push u v false w) := by
  refine ⟨h.push_lower hu hv hne, extends_push_lower h hu hv hne hw, rfl, fun x => ?_⟩
  rw [edge_push hu hv, if_neg]
  exact fun hx => hne hx.1.symm

/-- What a lower bound adds. -/
theorem addBinaryConstraint_lower (h : Signed origin g) (hne : v ≠ origin)
    (hrun : addBinaryConstraint u v (some b) none g = (g', .ok ())) :
    MoreLower origin g g' ∧ g'.Bounded v u (-b) ∧ 0 ≤ b := by
  obtain ⟨hu, hv, rfl, hsign⟩ := addBinaryConstraint_lower_run hrun
  obtain ⟨weights, hedge⟩ := h.edge_cases (v := u) hne
  have hb : 0 ≤ b := hsign (by rw [hedge])
  exact ⟨moreLower_push h hv hu hne (neg_nonpos.mpr hb),
    bounded_push_lower h hv hu hne (neg_nonpos.mpr hb), hb⟩

/-- A lower bound of zero that is updated at once. -/
theorem updateLastBinaryConstraint_lower (h : Signed origin g) (hne : v ≠ origin)
    (hrun : addBinaryConstraint u v (some 0) none g = (g', .ok ()))
    (hupdate : updateLastBinaryConstraint u v (some b) none g' = (g'', .ok ())) :
    MoreLower origin g g'' ∧ g''.Bounded v u (-b) ∧ 0 ≤ b := by
  obtain ⟨hu, hv, rfl, -⟩ := addBinaryConstraint_lower_run hrun
  obtain ⟨rfl, hsign⟩ := updateLastBinaryConstraint_run hu hv hupdate
  obtain ⟨weights, hedge⟩ := h.edge_cases (v := u) hne
  have hb : 0 ≤ b := hsign (by rw [hedge])
  exact ⟨moreLower_push h hv hu hne (neg_nonpos.mpr hb),
    bounded_push_lower h hv hu hne (neg_nonpos.mpr hb), hb⟩

omit [DecidableEq V] in
theorem getOrigin_run (h : g.vertices.head? = some origin) : getOrigin g = (g, .ok origin) := by
  obtain ⟨vs, hvs⟩ := head?_eq_some_iff.mp h
  unfold getOrigin
  rw [get_bind_run, hvs]
  rfl

theorem addUnaryConstraint_eq (h : Signed origin g) (lowerBound upperBound : Option ℚ) :
    addUnaryConstraint v lowerBound upperBound g =
      addBinaryConstraint origin v lowerBound upperBound g := by
  unfold addUnaryConstraint
  rw [bind_run_ok (getOrigin_run h.head)]

end Runs

/-! ### Distances -/

/-- A way through the network: `v` happens at most `w` after `u`. -/
inductive Path (g : SimpleTemporalNetwork V) : V → V → ℚ → Prop
  | edge {u v : V} {w : ℚ} : g.Bounded u v w → Path g u v w
  | trans {u v x : V} {w w' : ℚ} : Path g u v w → Path g v x w' → Path g u x (w + w')

/-- The distance of two vertices by the matrix. -/
def distance (g : SimpleTemporalNetwork V) (d : List (List (WithTop ℚ))) (u v : V) :
    WithTop ℚ :=
  FloydWarshall.entry d (g.vertices.idxOf u) (g.vertices.idxOf v)

section Distances

variable {g g' : SimpleTemporalNetwork V} {u v x : V} {w : ℚ}

theorem Path.mem (h : g.Path u v w) : u ∈ g.vertices ∧ v ∈ g.vertices := by
  induction h with
  | edge hbound => exact hbound.mem
  | trans _ _ ih ih' => exact ⟨ih.1, ih'.2⟩

omit [DecidableEq V] in
/-- The matrix has the result of the algorithm. -/
theorem entry_solve {i j : ℕ} (hi : i < g.vertices.length) (hj : j < g.vertices.length) :
    entry g.solve.1 i j =
      FloydWarshall.floydWarshall g.vertices.length g.weight i j :=
  (represents_map g.vertices.length g.weight).floydWarshall.entry_eq i hi j hj

omit [DecidableEq V] in
theorem solve_eq_true_iff : g.solve.2 = true ↔ ∀ i < g.vertices.length,
    FloydWarshall.floydWarshall g.vertices.length g.weight i i = 0 := by
  simp only [solve, all_eq_true, mem_range, decide_eq_true_eq]
  refine forall_congr' fun i => forall_congr' fun hi => ?_
  rw [← entry_solve hi hi]
  rfl

variable {d : List (List (WithTop ℚ))} (hsolve : g.solve = (d, true))
include hsolve

theorem distance_eq (hu : u ∈ g.vertices) (hv : v ∈ g.vertices) : g.distance d u v =
    FloydWarshall.floydWarshall g.vertices.length g.weight (g.vertices.idxOf u)
      (g.vertices.idxOf v) := by
  rw [distance, ← entry_solve (idxOf_lt_length_of_mem hu) (idxOf_lt_length_of_mem hv),
    hsolve]

omit [DecidableEq V] in
theorem diagonal_eq {i : ℕ} (hi : i < g.vertices.length) :
    FloydWarshall.floydWarshall g.vertices.length g.weight i i = 0 :=
  solve_eq_true_iff.mp (by rw [hsolve]) i hi

theorem distance_self (hu : u ∈ g.vertices) : g.distance d u u = 0 := by
  rw [distance_eq hsolve hu hu]
  exact diagonal_eq hsolve (idxOf_lt_length_of_mem hu)

theorem distance_triangle (hu : u ∈ g.vertices) (hv : v ∈ g.vertices) (hx : x ∈ g.vertices) :
    g.distance d u x ≤ g.distance d u v + g.distance d v x := by
  rw [distance_eq hsolve hu hx, distance_eq hsolve hu hv, distance_eq hsolve hv hx]
  exact floydWarshall_triangle (fun i hi => (diagonal_eq hsolve hi).ge)
    (idxOf_lt_length_of_mem hu) (idxOf_lt_length_of_mem hx)
    (idxOf_lt_length_of_mem hv)

theorem distance_le_of_bounded (h : g.Bounded u v w) : g.distance d u v ≤ w := by
  obtain ⟨hu, hv⟩ := h.mem
  obtain ⟨e, he, hle⟩ := h
  rw [edge, if_pos ⟨hu, hv⟩] at he
  have hweight : g.weight (g.vertices.idxOf u) (g.vertices.idxOf v) = (e.getWeight : ℚ) := by
    rw [weight, he]
  calc g.distance d u v
      = FloydWarshall.floydWarshall g.vertices.length g.weight (g.vertices.idxOf u)
          (g.vertices.idxOf v) := distance_eq hsolve hu hv
    _ ≤ g.weight (g.vertices.idxOf u) (g.vertices.idxOf v) := floydWarshall_le _ _ _ _
    _ = (e.getWeight : ℚ) := hweight
    _ ≤ (w : ℚ) := WithTop.coe_le_coe.mpr hle

/-- The distance is at most the length of a way. -/
theorem Path.distance_le (h : g.Path u v w) : g.distance d u v ≤ w := by
  induction h with
  | edge hbound => exact distance_le_of_bounded hsolve hbound
  | @trans u v x w w' hpath hpath' ih ih' =>
    calc g.distance d u x
        ≤ g.distance d u v + g.distance d v x :=
          distance_triangle hsolve hpath.mem.1 hpath.mem.2 hpath'.mem.2
      _ ≤ (w : ℚ) + (w' : ℚ) := add_le_add ih ih'
      _ = ((w + w' : ℚ) : WithTop ℚ) := (WithTop.coe_add w w').symm

end Distances

end SimpleTemporalNetwork

end Sola.Daisi
