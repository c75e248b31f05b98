import Sola.Daisi.StnTaskManagement
import Sola.Lib.Throwing

/-!
The constraints of simple temporal networks and their solutions
(`daisi/src/datastructure/simple_temporal_network.tpp`).

A network is built by calls.  Every bound of a call becomes a weight at an edge,
and an edge stands for one inequality.  Whether all inequalities have a
solution, and how early and how late it can be, is what `solve` finds out.  The
inequality of an edge is the strictest one of its bounds if the edge was made
for a lower bound, and the weakest one if it was made for an upper bound.
-/

namespace Sola.Daisi.SimpleTemporalNetwork

open Sola.Lib Action List FloydWarshall

variable {V : Type} [DecidableEq V]

/-! ### Networks built by calls -/

inductive Call (V : Type)
  | addVertex (v : V)
  | addUnaryConstraint (v : V) (lowerBound upperBound : Option ℚ)
  | addBinaryConstraint (start finish : V) (lowerBound upperBound : Option ℚ)

def Call.perform : Call V → Handler V Unit
  | .addVertex v => Action.modify fun g => g.addVertex v
  | .addUnaryConstraint v lowerBound upperBound =>
    SimpleTemporalNetwork.addUnaryConstraint v lowerBound upperBound
  | .addBinaryConstraint start finish lowerBound upperBound =>
    SimpleTemporalNetwork.addBinaryConstraint start finish lowerBound upperBound

/-- `finish` happens at most `weight` after `start`. -/
structure Bound (V : Type) where
  start : V
  finish : V
  positive : Bool
  weight : ℚ
  deriving DecidableEq

def Bound.enter (b : Bound V) : Handler V Unit := addBound b.start b.finish b.positive b.weight

def Bound.Holds (b : Bound V) (x : V → ℚ) : Prop := x b.finish - x b.start ≤ b.weight

/-- The bounds of a constraint in the order in which they are added. -/
def boundsOf (start finish : V) (lowerBound upperBound : Option ℚ) : List (Bound V) :=
  (upperBound.map fun b => ⟨start, finish, true, b⟩).toList ++
    (lowerBound.map fun b => ⟨finish, start, false, -b⟩).toList

/-- The bounds that are added before one of them throws. -/
def entered : SimpleTemporalNetwork V → List (Bound V) → List (Bound V)
  | _, [] => []
  | g, b :: bs =>
    match b.enter g with
    | (g', .ok _) => b :: entered g' bs
    | (_, .error _) => []

/-- The bounds that a call adds. -/
def Call.added (origin : V) (g : SimpleTemporalNetwork V) : Call V → List (Bound V)
  | .addVertex _ => []
  | .addUnaryConstraint v lowerBound upperBound =>
    if v ∈ g.vertices then g.entered (boundsOf origin v lowerBound upperBound) else []
  | .addBinaryConstraint start finish lowerBound upperBound =>
    if start ∈ g.vertices ∧ finish ∈ g.vertices then
      g.entered (boundsOf start finish lowerBound upperBound)
    else []

/-- The network after the calls, of which some may have thrown, and all bounds that were
added. -/
def built (origin : V) (calls : List (Call V)) : SimpleTemporalNetwork V × List (Bound V) :=
  calls.foldl (fun s c => ((c.perform s.1).1, s.2 ++ c.added origin s.1)) (ofOrigin origin, [])

/-- The assignment satisfies the inequalities of all edges. -/
def Satisfied (g : SimpleTemporalNetwork V) (x : V → ℚ) : Prop :=
  ∀ u v e, g.edge u v = some e → x v - x u ≤ e.getWeight

/-- Only the edges between the vertices count. -/
theorem satisfied_iff_all {g : SimpleTemporalNetwork V} {x : V → ℚ} : g.Satisfied x ↔
    ∀ u ∈ g.vertices, ∀ v ∈ g.vertices,
      ((g.edge u v).all fun e => x v - x u ≤ e.getWeight) = true := by
  simp only [Satisfied, Option.all_eq_true, decide_eq_true_eq]
  exact ⟨fun h u _ v _ e he => h u v e he,
    fun h u v e he => h u (mem_of_edge he).1 v (mem_of_edge he).2 e he⟩

/-! ### What the edges know about the bounds -/

def pushBound (g : SimpleTemporalNetwork V) (b : Bound V) : SimpleTemporalNetwork V :=
  g.push b.start b.finish b.positive b.weight

/-- A weight that does not fit to its edge leaves the network as it was. -/
theorem enter_run (g : SimpleTemporalNetwork V) (b : Bound V) :
    b.enter g = (g.pushBound b, .ok ()) ∨ ∃ e, b.enter g = (g, .error e) := by
  unfold Bound.enter addBound
  rw [get_bind_run]
  cases hadd : ((g.edge b.start b.finish).getD ⟨b.positive, []⟩).addWeight b.weight with
  | ok e =>
    obtain ⟨rfl, -⟩ := addWeight_eq_ok hadd
    exact Or.inl rfl
  | error e => exact Or.inr ⟨e, rfl⟩

/-- The bounds of a constraint are added in turn. -/
theorem addBinaryConstraint_eq {g : SimpleTemporalNetwork V} {start finish : V}
    (hmem : start ∈ g.vertices ∧ finish ∈ g.vertices) (lowerBound upperBound : Option ℚ) :
    SimpleTemporalNetwork.addBinaryConstraint start finish lowerBound upperBound g =
      forEach (boundsOf start finish lowerBound upperBound) Bound.enter g := by
  unfold SimpleTemporalNetwork.addBinaryConstraint
  rw [get_bind_run, if_neg (not_not.mpr hmem)]
  cases upperBound with
  | none =>
    cases lowerBound with
    | none => rfl
    | some l => simp only [boundsOf, Option.map_none, Option.map_some, Option.toList_none,
        Option.toList_some, nil_append, forEach_singleton, Bound.enter]
  | some u =>
    cases lowerBound with
    | none => rfl
    | some l =>
      simp only [boundsOf, Option.map_some, Option.toList_some, singleton_append]
      rw [forEach_cons, forEach_singleton]
      rfl

/-- The edges have the weights of the bounds. -/
structure Logged (origin : V) (g : SimpleTemporalNetwork V) (bs : List (Bound V)) : Prop where
  head : g.vertices.head? = some origin
  nodup : g.vertices.Nodup
  known : ∀ b ∈ bs, b.start ∈ g.vertices ∧ b.finish ∈ g.vertices
  weights : ∀ u v, ((g.edge u v).map (·.weights)).getD [] =
    (bs.filter fun b => b.start = u ∧ b.finish = v).map Bound.weight
  edges : ∀ u v e, g.edge u v = some e → e.weights ≠ []

section Logged

variable {origin : V} {g : SimpleTemporalNetwork V} {bs : List (Bound V)} {x : V → ℚ}
  {e : StnTaskManagementEdge}

theorem logged_ofOrigin (origin : V) : Logged origin (ofOrigin origin) [] where
  head := rfl
  nodup := nodup_singleton _
  known := by simp
  weights u v := by simp [edge, ofOrigin]
  edges u v e he := by simp [edge, ofOrigin] at he

theorem Logged.addVertex (h : Logged origin g bs) (v : V) : Logged origin (g.addVertex v) bs where
  head := by
    unfold SimpleTemporalNetwork.addVertex
    split_ifs
    · exact h.head
    · rw [head?_append, h.head]
      rfl
  nodup := by
    unfold SimpleTemporalNetwork.addVertex
    split_ifs with hv
    · exact h.nodup
    · exact nodup_append.mpr ⟨h.nodup, nodup_singleton v, fun a ha b hb hab =>
        hv (by rwa [hab, mem_singleton.mp hb] at ha)⟩
  known b hb :=
    ⟨mem_addVertex.mpr (.inl (h.known b hb).1), mem_addVertex.mpr (.inl (h.known b hb).2)⟩
  weights u u' := by rw [edge_addVertex, h.weights]
  edges u u' e he := h.edges u u' e (by rwa [edge_addVertex] at he)

theorem Logged.pushBound (h : Logged origin g bs) {b : Bound V}
    (hb : b.start ∈ g.vertices ∧ b.finish ∈ g.vertices) :
    Logged origin (g.pushBound b) (bs ++ [b]) where
  head := h.head
  nodup := h.nodup
  known b' hb' := by
    rcases mem_append.mp hb' with hb' | hb'
    · exact h.known b' hb'
    · obtain rfl := mem_singleton.mp hb'
      exact hb
  weights u v := by
    have hold := h.weights u v
    unfold SimpleTemporalNetwork.pushBound
    rw [edge_push hb.1 hb.2, filter_append, map_append, ← hold]
    by_cases heq : u = b.start ∧ v = b.finish
    · obtain ⟨rfl, rfl⟩ := heq
      cases he : g.edge b.start b.finish with
      | none => simp
      | some e => simp
    · have hne : ¬ (b.start = u ∧ b.finish = v) := fun h' => heq ⟨h'.1.symm, h'.2.symm⟩
      simp [heq, hne]
  edges u v e he := by
    unfold SimpleTemporalNetwork.pushBound at he
    rw [edge_push hb.1 hb.2] at he
    split_ifs at he
    · obtain rfl := Option.some.inj he
      simp
    · exact h.edges u v e he

theorem Logged.entered (h : Logged origin g bs) {new : List (Bound V)}
    (hnew : ∀ b ∈ new, b.start ∈ g.vertices ∧ b.finish ∈ g.vertices) :
    Logged origin (forEach new Bound.enter g).1 (bs ++ g.entered new) := by
  induction new generalizing g bs with
  | nil => rwa [SimpleTemporalNetwork.entered, append_nil]
  | cons b new ih =>
    rw [forEach_cons, SimpleTemporalNetwork.entered]
    rcases enter_run g b with hrun | ⟨e, hrun⟩
    · rw [bind_run_ok hrun, hrun]
      have hrest := ih (h.pushBound (hnew b (by simp))) fun b' hb' => hnew b' (by simp [hb'])
      rwa [append_assoc] at hrest
    · rw [bind_run_error hrun, hrun]
      rwa [append_nil]

omit [DecidableEq V] in
theorem mem_boundsOf {start finish : V} {lowerBound upperBound : Option ℚ} {b : Bound V}
    (h : b ∈ boundsOf start finish lowerBound upperBound) :
    b.start = start ∧ b.finish = finish ∨ b.start = finish ∧ b.finish = start := by
  rcases mem_append.mp h with h | h
  · obtain ⟨u, -, rfl⟩ := Option.map_eq_some_iff.mp (Option.mem_toList.mp h)
    exact Or.inl ⟨rfl, rfl⟩
  · obtain ⟨l, -, rfl⟩ := Option.map_eq_some_iff.mp (Option.mem_toList.mp h)
    exact Or.inr ⟨rfl, rfl⟩

theorem Logged.addBinaryConstraint (h : Logged origin g bs) (start finish : V)
    (lowerBound upperBound : Option ℚ) :
    Logged origin
      (SimpleTemporalNetwork.addBinaryConstraint start finish lowerBound upperBound g).1
      (bs ++ if start ∈ g.vertices ∧ finish ∈ g.vertices then
        g.entered (boundsOf start finish lowerBound upperBound) else []) := by
  split_ifs with hmem
  · rw [addBinaryConstraint_eq hmem]
    refine h.entered fun b hb => ?_
    rcases mem_boundsOf hb with ⟨hs, hf⟩ | ⟨hs, hf⟩
    · rw [hs, hf]
      exact hmem
    · rw [hs, hf]
      exact hmem.symm
  · unfold SimpleTemporalNetwork.addBinaryConstraint
    rw [get_bind_run, if_pos hmem, append_nil]
    exact h

theorem Logged.perform (h : Logged origin g bs) (c : Call V) :
    Logged origin (c.perform g).1 (bs ++ c.added origin g) := by
  cases c with
  | addVertex v =>
    rw [Call.added, append_nil]
    exact h.addVertex v
  | addUnaryConstraint v lowerBound upperBound =>
    have horigin : origin ∈ g.vertices := mem_of_head? h.head
    have hnew := h.addBinaryConstraint origin v lowerBound upperBound
    simp only [horigin, true_and] at hnew
    rw [Call.perform, addUnaryConstraint, bind_run_ok (getOrigin_run h.head)]
    exact hnew
  | addBinaryConstraint start finish lowerBound upperBound =>
    exact h.addBinaryConstraint start finish lowerBound upperBound

theorem logged_built (origin : V) (calls : List (Call V)) :
    Logged origin (built origin calls).1 (built origin calls).2 := by
  unfold built
  generalize hs : (ofOrigin origin, ([] : List (Bound V))) = s
  have h : Logged origin s.1 s.2 := hs ▸ logged_ofOrigin origin
  clear hs
  induction calls generalizing s with
  | nil => exact h
  | cons c calls ih => exact ih _ (h.perform c)

/-! ### The weight of an edge and its bounds -/

omit [DecidableEq V] in
theorem getWeight_mem (h : e.weights ≠ []) : e.getWeight ∈ e.weights := by
  unfold StnTaskManagementEdge.getWeight
  split_ifs
  · obtain ⟨w, hw⟩ := Option.isSome_iff_exists.mp (isSome_max?_iff.mpr h)
    rw [hw]
    exact (max?_eq_some_iff.mp hw).1
  · obtain ⟨w, hw⟩ := Option.isSome_iff_exists.mp (isSome_min?_iff.mpr h)
    rw [hw]
    exact (min?_eq_some_iff.mp hw).1

omit [DecidableEq V] in
theorem getWeight_le (hnegative : e.allPositive = false) {w : ℚ} (hw : w ∈ e.weights) :
    e.getWeight ≤ w := by
  obtain ⟨m, hm⟩ := Option.isSome_iff_exists.mp (isSome_min?_of_mem hw)
  rw [StnTaskManagementEdge.getWeight, hnegative, if_neg Bool.false_ne_true, hm]
  exact (min?_eq_some_iff.mp hm).2 w hw

omit [DecidableEq V] in
theorem le_getWeight (hpositive : e.allPositive = true) {w : ℚ} (hw : w ∈ e.weights) :
    w ≤ e.getWeight := by
  obtain ⟨m, hm⟩ := Option.isSome_iff_exists.mp (isSome_max?_of_mem hw)
  rw [StnTaskManagementEdge.getWeight, if_pos hpositive, hm]
  exact (max?_eq_some_iff.mp hm).2 w hw

omit [DecidableEq V] in
/-- The weight of an edge is its strictest one if it was made for a lower bound, or if there
is no other. -/
theorem forall_getWeight_le_iff (h : e.weights ≠ []) :
    (∀ w ∈ e.weights, e.getWeight ≤ w) ↔
      (e.allPositive = true → ∀ w ∈ e.weights, ∀ w' ∈ e.weights, w = w') := by
  constructor
  · intro hle hpositive
    have heq : ∀ w ∈ e.weights, w = e.getWeight :=
      fun w hw => le_antisymm (le_getWeight hpositive hw) (hle w hw)
    intro w hw w' hw'
    rw [heq w hw, heq w' hw']
  · intro hsame w hw
    cases hpositive : e.allPositive with
    | true => exact (hsame hpositive _ (getWeight_mem h) w hw).le
    | false => exact getWeight_le hpositive hw

theorem Logged.exists_bound (h : Logged origin g bs) {u v : V} (he : g.edge u v = some e) (w : ℚ) :
    w ∈ e.weights ↔ ∃ b ∈ bs, b.start = u ∧ b.finish = v ∧ b.weight = w := by
  have hweights := h.weights u v
  rw [he, Option.map_some, Option.getD_some] at hweights
  rw [hweights, mem_map]
  simp only [mem_filter, decide_eq_true_eq, and_assoc]

theorem Logged.exists_edge (h : Logged origin g bs) {b : Bound V} (hb : b ∈ bs) :
    ∃ e, g.edge b.start b.finish = some e ∧ b.weight ∈ e.weights := by
  have hweights := h.weights b.start b.finish
  have hmem : b.weight ∈ ((g.edge b.start b.finish).map (·.weights)).getD [] := by
    rw [hweights]
    exact mem_map_of_mem (mem_filter.mpr ⟨hb, by simp⟩)
  cases he : g.edge b.start b.finish with
  | none =>
    rw [he] at hmem
    cases hmem
  | some e =>
    rw [he] at hmem
    exact ⟨e, rfl, hmem⟩

end Logged

/-- After any calls the inequalities of the edges say what all bounds say together, with the
strictest bound of every edge, exactly if no edge that was made for an upper bound has got two
different weights. -/
theorem constraints_conjoined_iff (origin : V) (calls : List (Call V)) :
    ((∀ x, (built origin calls).1.Satisfied x ↔ ∀ b ∈ (built origin calls).2, b.Holds x) ∧
        ∀ u v e, (built origin calls).1.edge u v = some e →
          ∀ b ∈ (built origin calls).2, b.start = u → b.finish = v → e.getWeight ≤ b.weight) ↔
      ∀ u v e, (built origin calls).1.edge u v = some e → e.allPositive = true →
        ∀ w ∈ e.weights, ∀ w' ∈ e.weights, w = w' := by
  have h := logged_built origin calls
  generalize (built origin calls).1 = g at *
  generalize (built origin calls).2 = bs at *
  constructor
  · rintro ⟨-, htight⟩ u v e he
    refine (forall_getWeight_le_iff (h.edges u v e he)).mp fun w hw => ?_
    obtain ⟨b, hb, hs, hf, rfl⟩ := (h.exists_bound he w).mp hw
    exact htight u v e he b hb hs hf
  · intro hsame
    have htight : ∀ u v e, g.edge u v = some e → ∀ w ∈ e.weights, e.getWeight ≤ w :=
      fun u v e he => (forall_getWeight_le_iff (h.edges u v e he)).mpr (hsame u v e he)
    refine ⟨fun x => ⟨fun hx b hb => ?_, fun hx u v e he => ?_⟩, fun u v e he b hb hs hf => ?_⟩
    · obtain ⟨e, he, hw⟩ := h.exists_edge hb
      exact (hx _ _ e he).trans (htight _ _ e he _ hw)
    · obtain ⟨b, hb, rfl, rfl, hw⟩ :=
        (h.exists_bound he e.getWeight).mp (getWeight_mem (h.edges u v e he))
      rw [← hw]
      exact hx b hb
    · exact htight u v e he _ ((h.exists_bound he _).mpr ⟨b, hb, hs, hf, rfl⟩)

/-- Two upper bounds for one vertex: the weaker one counts. -/
def twoDeadlines : List (Call StnTaskManagementVertex) :=
  [.addVertex (.finish 0), .addUnaryConstraint (.finish 0) none (some 5),
    .addUnaryConstraint (.finish 0) none (some 3)]

theorem twoDeadlines_not_conjoined :
    let x := fun v => if v = StnTaskManagementVertex.finish 0 then (4 : ℚ) else 0
    ((built .origin twoDeadlines).1.edge .origin (.finish 0)).map (·.getWeight) = some 5 ∧
      (built .origin twoDeadlines).1.Satisfied x ∧
      ¬ ∀ b ∈ (built .origin twoDeadlines).2, b.Holds x := by
  refine ⟨by decide +kernel, satisfied_iff_all.mpr (by decide +kernel), ?_⟩
  unfold Bound.Holds
  decide +kernel

/-! ### Solutions -/

/-- A solution with the origin at 0. -/
def IsSolution (g : SimpleTemporalNetwork V) (origin : V) (x : V → ℚ) : Prop :=
  x origin = 0 ∧ g.Satisfied x

/-- The vertices and their times `-d i 0`. -/
def getEarliestSolution (g : SimpleTemporalNetwork V) : List (V × TimePoint) :=
  g.vertices.mapIdx fun i v => (v, StnTaskManagement.timeOf (FloydWarshall.entry g.solve.1 i 0))

/-- The vertices and their times `d 0 i`. -/
def getLatestSolution (g : SimpleTemporalNetwork V) : List (V × WithTop ℚ) :=
  g.vertices.mapIdx fun i v => (v, FloydWarshall.entry g.solve.1 0 i)

/-- The call is about two different vertices. -/
def Call.Proper (origin : V) : Call V → Prop
  | .addVertex _ => True
  | .addUnaryConstraint v _ _ => v ≠ origin
  | .addBinaryConstraint start finish _ _ => start ≠ finish

section Solutions

variable {origin : V} {g : SimpleTemporalNetwork V} {bs : List (Bound V)} {x : V → ℚ} {i j : ℕ}

theorem mem_of_mem_entered {bs : List (Bound V)} {b : Bound V} (h : b ∈ g.entered bs) : b ∈ bs := by
  induction bs generalizing g with
  | nil => exact h
  | cons b' bs ih =>
    rw [entered] at h
    rcases enter_run g b' with hrun | ⟨e, hrun⟩
    · rw [hrun] at h
      rcases mem_cons.mp h with rfl | h
      · exact mem_cons_self
      · exact mem_cons_of_mem _ (ih h)
    · rw [hrun] at h
      cases h

theorem Call.Proper.added_ne {c : Call V} (hc : c.Proper origin) {b : Bound V}
    (hb : b ∈ c.added origin g) : b.start ≠ b.finish := by
  cases c with
  | addVertex v => cases hb
  | addUnaryConstraint v lowerBound upperBound =>
    simp only [Call.added] at hb
    split_ifs at hb
    · rcases mem_boundsOf (mem_of_mem_entered hb) with ⟨hs, hf⟩ | ⟨hs, hf⟩
      · rw [hs, hf]
        exact Ne.symm hc
      · rw [hs, hf]
        exact hc
    · cases hb
  | addBinaryConstraint start finish lowerBound upperBound =>
    simp only [Call.added] at hb
    split_ifs at hb
    · rcases mem_boundsOf (mem_of_mem_entered hb) with ⟨hs, hf⟩ | ⟨hs, hf⟩
      · rw [hs, hf]
        exact hc
      · rw [hs, hf]
        exact Ne.symm hc
    · cases hb

theorem built_ne {calls : List (Call V)} (hcalls : ∀ c ∈ calls, c.Proper origin) :
    ∀ b ∈ (built origin calls).2, b.start ≠ b.finish := by
  unfold built
  generalize hs : (ofOrigin origin, ([] : List (Bound V))) = s
  have h : ∀ b ∈ s.2, b.start ≠ b.finish := by simp [← hs]
  clear hs
  induction calls generalizing s with
  | nil => exact h
  | cons c calls ih =>
    refine ih (fun c' hc' => hcalls c' (by simp [hc'])) _ fun b hb => ?_
    rcases mem_append.mp hb with hb | hb
    · exact h b hb
    · exact (hcalls c (by simp)).added_ne hb

/-- The matrix has the edges between the vertices at its indices. -/
theorem Logged.adjacencyMatrix_eq (h : Logged origin g bs) (hi : i < g.vertices.length)
    (hj : j < g.vertices.length) : g.adjacencyMatrix i j = g.edge g.vertices[i] g.vertices[j] := by
  rw [edge, if_pos ⟨getElem_mem _, getElem_mem _⟩, h.nodup.idxOf_getElem,
    h.nodup.idxOf_getElem]

variable (h : Logged origin g bs) (hne : ∀ b ∈ bs, b.start ≠ b.finish)
include h hne

theorem Logged.weight_self (hi : i < g.vertices.length) : g.weight i i = 0 := by
  have hnone : g.adjacencyMatrix i i = none := by
    rw [h.adjacencyMatrix_eq hi hi]
    by_contra hsome
    obtain ⟨e, he⟩ := Option.ne_none_iff_exists'.mp hsome
    obtain ⟨b, hb, hs, hf, -⟩ := (h.exists_bound he _).mp (getWeight_mem (h.edges _ _ e he))
    exact hne b hb (hs.trans hf.symm)
  rw [weight, hnone]
  exact if_pos rfl

/-- Assignments to vertices and to indices. -/
theorem Logged.satisfied_iff {y : ℕ → ℚ} (hy : ∀ i (hi : i < g.vertices.length),
    y i = x g.vertices[i]) :
    g.Satisfied x ↔ Satisfies g.vertices.length g.weight y := by
  constructor
  · intro hx i hi j hj
    rw [hy i hi, hy j hj]
    by_cases hij : i = j
    · subst hij
      rw [h.weight_self hne hi, sub_self]
      exact le_rfl
    · rw [weight, h.adjacencyMatrix_eq hi hj]
      cases he : g.edge g.vertices[i] g.vertices[j] with
      | none =>
        simp only [if_neg hij]
        exact le_top
      | some e => exact WithTop.coe_le_coe.mpr (hx _ _ e he)
  · intro hy' u v e he
    obtain ⟨hu, hv⟩ := mem_of_edge he
    obtain ⟨i, hi, rfl⟩ := mem_iff_getElem.mp hu
    obtain ⟨j, hj, rfl⟩ := mem_iff_getElem.mp hv
    have hle := hy' i hi j hj
    rw [weight, h.adjacencyMatrix_eq hi hj, he, hy i hi, hy j hj] at hle
    exact WithTop.coe_le_coe.mp hle

omit hne in
/-- The index of a vertex, as an assignment to vertices. -/
theorem Logged.exists_assignment (y : ℕ → ℚ) :
    ∃ x : V → ℚ, ∀ i (hi : i < g.vertices.length), y i = x g.vertices[i] :=
  ⟨fun v => y (g.vertices.idxOf v), fun i hi => by simp only [h.nodup.idxOf_getElem]⟩

omit hne in
theorem Logged.origin_eq : ∃ h0 : 0 < g.vertices.length, g.vertices[0] = origin := by
  obtain ⟨vs, hvs⟩ := head?_eq_some_iff.mp h.head
  exact ⟨by simp [hvs], by simp [hvs]⟩

omit h hne in
/-- A solution of the inequalities can be moved such that the origin is at 0. -/
theorem Satisfied.isSolution (hx : g.Satisfied x) :
    g.IsSolution origin fun v => x v - x origin :=
  ⟨sub_self _, fun u v e he => by rw [sub_sub_sub_cancel_right]; exact hx u v e he⟩

theorem Logged.solve_iff : g.solve.2 = true ↔ ∃ x, g.IsSolution origin x := by
  rw [solve_eq_true_iff, floydWarshall_diagonal_iff fun i hi => h.weight_self hne hi]
  constructor
  · rintro ⟨y, hy⟩
    obtain ⟨x, hx⟩ := h.exists_assignment y
    exact ⟨_, ((h.satisfied_iff hne hx).mpr hy).isSolution⟩
  · rintro ⟨x, -, hx⟩
    obtain ⟨h0, -⟩ := h.origin_eq
    refine ⟨fun i => x (g.vertices.getD i origin), (h.satisfied_iff hne fun i hi => ?_).mp hx⟩
    simp [hi]

omit [DecidableEq V] h hne in
theorem exists_indexed (g : SimpleTemporalNetwork V) (x : V → ℚ) (v : V) :
    ∃ y : ℕ → ℚ, ∀ i (hi : i < g.vertices.length), y i = x g.vertices[i] :=
  ⟨fun i => x (g.vertices.getD i v), fun i hi => by simp [hi]⟩

variable (hsolve : g.solve.2 = true)
include hsolve

/-- The earliest times are those of a solution, apart from those that nothing bounds, and no
solution is earlier. -/
theorem Logged.earliest :
    (∃ x, g.IsSolution origin x ∧ ∀ p ∈ g.getEarliestSolution, ∀ t : ℚ, p.2 = t → x p.1 = t) ∧
      ∀ x, g.IsSolution origin x → ∀ p ∈ g.getEarliestSolution, p.2 ≤ (x p.1 : TimePoint) := by
  obtain ⟨h0, horigin⟩ := h.origin_eq
  have hclosed := closed_floydWarshall (solve_eq_true_iff.mp hsolve)
  refine ⟨?_, fun x hx p hp => ?_⟩
  · obtain ⟨y, hy, hfinite⟩ := hclosed.exists_earliest h0
    obtain ⟨x, hx⟩ := h.exists_assignment y
    refine ⟨x, ⟨?_, (h.satisfied_iff hne hx).mpr hy.of_floydWarshall⟩, fun p hp t ht => ?_⟩
    · rw [← horigin, ← hx 0 h0, hfinite 0 h0 0 (hclosed.diagonal 0 h0), neg_zero]
    · obtain ⟨i, hi, rfl⟩ := mem_mapIdx.mp hp
      simp only [entry_solve hi h0] at ht ⊢
      cases hd : FloydWarshall.floydWarshall g.vertices.length g.weight i 0 with
      | top => rw [hd] at ht; cases ht
      | coe q =>
        rw [hd] at ht
        rw [← hx i hi, hfinite i hi q hd]
        exact WithBot.coe_injective ht
  · obtain ⟨i, hi, rfl⟩ := mem_mapIdx.mp hp
    obtain ⟨y, hy⟩ := exists_indexed g x origin
    have hle := ((h.satisfied_iff hne hy).mp hx.2).floydWarshall i hi 0 h0
    simp only [entry_solve hi h0]
    cases hd : FloydWarshall.floydWarshall g.vertices.length g.weight i 0 with
    | top => exact bot_le
    | coe q =>
      rw [hd, hy 0 h0, horigin, hx.1, hy i hi, WithTop.coe_le_coe, zero_sub] at hle
      exact WithBot.coe_le_coe.mpr (neg_le.mp hle)

theorem Logged.latest :
    (∃ x, g.IsSolution origin x ∧ ∀ p ∈ g.getLatestSolution, ∀ t : ℚ, p.2 = t → x p.1 = t) ∧
      ∀ x, g.IsSolution origin x → ∀ p ∈ g.getLatestSolution, (x p.1 : WithTop ℚ) ≤ p.2 := by
  obtain ⟨h0, horigin⟩ := h.origin_eq
  have hclosed := closed_floydWarshall (solve_eq_true_iff.mp hsolve)
  refine ⟨?_, fun x hx p hp => ?_⟩
  · obtain ⟨y, hy, hfinite⟩ := hclosed.exists_latest h0
    obtain ⟨x, hx⟩ := h.exists_assignment y
    refine ⟨x, ⟨?_, (h.satisfied_iff hne hx).mpr hy.of_floydWarshall⟩, fun p hp t ht => ?_⟩
    · rw [← horigin, ← hx 0 h0, hfinite 0 h0 0 (hclosed.diagonal 0 h0)]
    · obtain ⟨i, hi, rfl⟩ := mem_mapIdx.mp hp
      simp only [entry_solve h0 hi] at ht ⊢
      rw [← hx i hi, hfinite i hi t ht]
  · obtain ⟨i, hi, rfl⟩ := mem_mapIdx.mp hp
    obtain ⟨y, hy⟩ := exists_indexed g x origin
    have hle := ((h.satisfied_iff hne hy).mp hx.2).floydWarshall 0 h0 i hi
    rwa [hy 0 h0, horigin, hx.1, hy i hi, sub_zero, ← entry_solve h0 hi] at hle

end Solutions

/-- `solve` tells whether the inequalities have a solution, and then the earliest and the latest
solution are what they are called. -/
theorem solve_correct (origin : V) (calls : List (Call V))
    (hcalls : ∀ c ∈ calls, c.Proper origin) :
    ((built origin calls).1.solve.2 = true ↔ ∃ x, (built origin calls).1.IsSolution origin x) ∧
      ((built origin calls).1.solve.2 = true →
        ((∃ x, (built origin calls).1.IsSolution origin x ∧
            ∀ p ∈ (built origin calls).1.getEarliestSolution, ∀ t : ℚ, p.2 = t → x p.1 = t) ∧
          ∀ x, (built origin calls).1.IsSolution origin x →
            ∀ p ∈ (built origin calls).1.getEarliestSolution, p.2 ≤ (x p.1 : TimePoint)) ∧
        (∃ x, (built origin calls).1.IsSolution origin x ∧
            ∀ p ∈ (built origin calls).1.getLatestSolution, ∀ t : ℚ, p.2 = t → x p.1 = t) ∧
          ∀ x, (built origin calls).1.IsSolution origin x →
            ∀ p ∈ (built origin calls).1.getLatestSolution, (x p.1 : WithTop ℚ) ≤ p.2) := by
  have h := logged_built origin calls
  have hne := built_ne hcalls
  exact ⟨h.solve_iff hne, fun hsolve => ⟨h.earliest hne hsolve, h.latest hne hsolve⟩⟩

/-- One vertex with a window. -/
def oneWindow : List (Call StnTaskManagementVertex) :=
  [.addVertex (.finish 0), .addUnaryConstraint (.finish 0) (some 1) (some 3)]

theorem oneWindow_solve_correct :
    (built .origin oneWindow).1.getEarliestSolution = [(.origin, 0), (.finish 0, 1)] ∧
      (built .origin oneWindow).1.getLatestSolution = [(.origin, 0), (.finish 0, 3)] ∧
      ∃ x, (built .origin oneWindow).1.IsSolution .origin x := by
  refine ⟨by decide +kernel, by decide +kernel,
    (solve_correct .origin oneWindow ?_).1.mp (by decide +kernel)⟩
  simp [oneWindow, Call.Proper]

end Sola.Daisi.SimpleTemporalNetwork
