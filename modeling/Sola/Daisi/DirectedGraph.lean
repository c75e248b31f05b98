import Mathlib.Data.List.Nodup

/-!
Directed graphs with labelled edges (`daisi/src/datastructure/directed_graph.tpp`).

The graph has a vector of vertices and an adjacency matrix whose rows and
columns belong to the positions of the vertices.  When a vertex is removed,
`removeVertex` moves an iterator to the position of the vertex and then erases
as many places further, so from the other rows the entry at twice the position
goes.  An erasure past the end of a row is undefined, which is `none` here.
-/

namespace Sola.Daisi

open List

structure DirectedGraph (V E : Type) where
  vertices : List V
  adjacencyMatrix : List (List (Option E))
  deriving DecidableEq

namespace DirectedGraph

variable {V E : Type} [DecidableEq V]

def empty : DirectedGraph V E := ⟨[], []⟩

variable (g : DirectedGraph V E)

def addVertex (vertex : V) : DirectedGraph V E :=
  if vertex ∈ g.vertices then g
  else
    ⟨g.vertices ++ [vertex],
      g.adjacencyMatrix.map (· ++ [none]) ++ [List.replicate (g.vertices.length + 1) none]⟩

def removeVertex (vertex : V) : Option (DirectedGraph V E) :=
  if vertex ∈ g.vertices then
    let index := g.vertices.idxOf vertex
    let others := g.adjacencyMatrix.eraseIdx index
    if others.all (fun row => 2 * index < row.length) then
      some ⟨g.vertices.eraseIdx index, others.map (·.eraseIdx (2 * index))⟩
    else none
  else some g

/-- Write an entry of the matrix. -/
def setEntry (start finish : V) (e : Option E) : DirectedGraph V E :=
  { g with
    adjacencyMatrix := g.adjacencyMatrix.modify (g.vertices.idxOf start)
      (·.set (g.vertices.idxOf finish) e) }

def addEdge (start finish : V) (e : E) : Except String (DirectedGraph V E) :=
  if start ∉ g.vertices then .error "Start Vertex does not exist"
  else if finish ∉ g.vertices then .error "End Vertex does not exist"
  else .ok (g.setEntry start finish (some e))

def removeEdge (start finish : V) : DirectedGraph V E :=
  if start ∈ g.vertices ∧ finish ∈ g.vertices then g.setEntry start finish none else g

omit [DecidableEq V] in
/-- An entry of the matrix, if there is one with a label. -/
def entry (i j : ℕ) : Option E :=
  (g.adjacencyMatrix[i]?.bind (·[j]?)).join

/-- The label of the edge between two vertices. -/
def edge (start finish : V) : Option E :=
  g.entry (g.vertices.idxOf start) (g.vertices.idxOf finish)

inductive Call (V E : Type) where
  | addVertex (vertex : V)
  | addEdge (start finish : V) (e : E)
  | removeEdge (start finish : V)
  | removeVertex (vertex : V)

/-- The graph after the call.  A call that throws leaves it as it is. -/
def Call.perform : Call V E → Option (DirectedGraph V E)
  | .addVertex vertex => some (g.addVertex vertex)
  | .addEdge start finish e => some ((g.addEdge start finish e).toOption.getD g)
  | .removeEdge start finish => some (g.removeEdge start finish)
  | .removeVertex vertex => g.removeVertex vertex

/-! ### Consistent matrices -/

/-- The vertices are different and the matrix has a row and a column for each. -/
structure Consistent (g : DirectedGraph V E) : Prop where
  nodup : g.vertices.Nodup
  rows : g.adjacencyMatrix.length = g.vertices.length
  columns : ∀ row ∈ g.adjacencyMatrix, row.length = g.vertices.length

/-- The edges between the vertices of the second graph are those of the first. -/
def KeepsEdges (g' : DirectedGraph V E) : Prop :=
  ∀ u ∈ g'.vertices, ∀ v ∈ g'.vertices, g'.edge u v = g.edge u v

/-- All states of the run are consistent, and each removal takes the vertex and nothing but its
edges. -/
def StaysConsistent (g : DirectedGraph V E) : List (Call V E) → Prop
  | [] => g.Consistent
  | c :: calls => g.Consistent ∧ ∃ g', c.perform g = some g' ∧
      (∀ v, c = .removeVertex v → g'.vertices = g.vertices.erase v ∧ g.KeepsEdges g') ∧
      g'.StaysConsistent calls

/-- No row tells the position of the vertex from twice that position. -/
def Removable (v : V) : Prop :=
  v ∈ g.vertices → 2 * g.vertices.idxOf v < g.vertices.length ∧
    ∀ i < g.vertices.length, i ≠ g.vertices.idxOf v →
      ∀ j, g.vertices.idxOf v ≤ j → j < 2 * g.vertices.idxOf v → g.entry i j = g.entry i (j + 1)

/-- Each vertex of the run is removable when it is removed. -/
def RemovesRemovable (g : DirectedGraph V E) : List (Call V E) → Prop
  | [] => True
  | c :: calls => (∀ v, c = .removeVertex v → g.Removable v) ∧
      ∀ g', c.perform g = some g' → g'.RemovesRemovable calls

section Consistent

variable {g} {g' : DirectedGraph V E} {u v : V}

omit [DecidableEq V] in
theorem consistent_empty : (empty : DirectedGraph V E).Consistent :=
  ⟨nodup_nil, rfl, by simp [empty]⟩

theorem Consistent.addVertex (h : g.Consistent) : (g.addVertex v).Consistent := by
  unfold DirectedGraph.addVertex
  split_ifs with hv
  · exact h
  · refine ⟨?_, ?_, ?_⟩
    · exact h.nodup.append (nodup_singleton v) (by simpa using hv)
    · simp [h.rows]
    · intro row hrow
      rcases mem_append.mp hrow with hrow | hrow
      · obtain ⟨row, hmem, rfl⟩ := mem_map.mp hrow
        simp [h.columns row hmem]
      · obtain rfl := mem_singleton.mp hrow
        simp

theorem Consistent.setEntry (h : g.Consistent) (e : Option E) :
    (g.setEntry u v e).Consistent := by
  refine ⟨h.nodup, by simp [DirectedGraph.setEntry, h.rows], fun row hrow => ?_⟩
  obtain ⟨i, hi⟩ := mem_iff_getElem?.mp hrow
  simp only [DirectedGraph.setEntry, getElem?_modify, Option.map_eq_map,
    Option.map_eq_some_iff] at hi
  obtain ⟨row, hi, rfl⟩ := hi
  have hlength := h.columns row (mem_of_getElem? hi)
  split_ifs
  · simpa [DirectedGraph.setEntry] using hlength
  · exact hlength

/-- The place of an entry before the one at `index` was erased. -/
def oldPosition (index i : ℕ) : ℕ := if i < index then i else i + 1

omit [DecidableEq V] in
theorem getElem?_eraseIdx_eq {α : Type} (l : List α) (index i : ℕ) :
    (l.eraseIdx index)[i]? = l[oldPosition index i]? := by
  rw [getElem?_eraseIdx, oldPosition]
  split_ifs <;> rfl

section Removal

variable (h : g.Consistent) (hv : v ∈ g.vertices)
include h hv

/-- The removal is defined if the rows reach to twice the position. -/
theorem removeVertex_eq_some : g.removeVertex v = some g' ↔
    2 * g.vertices.idxOf v < g.vertices.length ∧
      (⟨g.vertices.eraseIdx (g.vertices.idxOf v),
        (g.adjacencyMatrix.eraseIdx (g.vertices.idxOf v)).map
          (·.eraseIdx (2 * g.vertices.idxOf v))⟩ : DirectedGraph V E) = g' := by
  have hindex := idxOf_lt_length_of_mem hv
  have hall : ((g.adjacencyMatrix.eraseIdx (g.vertices.idxOf v)).all
      fun row => 2 * g.vertices.idxOf v < row.length) = true ↔
      2 * g.vertices.idxOf v < g.vertices.length := by
    have hcolumns : ∀ row ∈ g.adjacencyMatrix.eraseIdx (g.vertices.idxOf v),
        row.length = g.vertices.length :=
      fun row hrow => h.columns row (mem_of_mem_eraseIdx hrow)
    simp only [all_eq_true, decide_eq_true_eq]
    constructor
    · intro hrows
      by_cases hone : g.vertices.length = 1
      · omega
      · have hlength := length_eraseIdx_of_lt (h.rows ▸ hindex)
        rw [h.rows] at hlength
        have hrow := getElem_mem (l := g.adjacencyMatrix.eraseIdx (g.vertices.idxOf v))
          (n := 0) (by omega)
        rw [← hcolumns _ hrow]
        exact hrows _ hrow
    · intro hlt row hrow
      rw [hcolumns row hrow]
      exact hlt
  rw [removeVertex, if_pos hv]
  simp only [hall]
  split_ifs with hlt
  · simp [hlt]
  · simp [hlt]

variable (hremove : g.removeVertex v = some g')
include hremove

theorem Consistent.removeVertex : g'.Consistent := by
  obtain ⟨hlt, rfl⟩ := (removeVertex_eq_some h hv).mp hremove
  have hindex := idxOf_lt_length_of_mem hv
  refine ⟨h.nodup.eraseIdx _, ?_, fun row hrow => ?_⟩
  · rw [length_map, length_eraseIdx_of_lt (h.rows ▸ hindex),
      length_eraseIdx_of_lt hindex, h.rows]
  · obtain ⟨row, hmem, rfl⟩ := mem_map.mp hrow
    have hlength := h.columns row (mem_of_mem_eraseIdx hmem)
    rw [length_eraseIdx_of_lt (hlength ▸ hlt), length_eraseIdx_of_lt hindex, hlength]

/-- An entry after the removal. -/
theorem entry_removeVertex (i j : ℕ) : g'.entry i j =
    g.entry (oldPosition (g.vertices.idxOf v) i) (oldPosition (2 * g.vertices.idxOf v) j) := by
  obtain ⟨hlt, rfl⟩ := (removeVertex_eq_some h hv).mp hremove
  simp only [entry, getElem?_map, getElem?_eraseIdx_eq]
  cases g.adjacencyMatrix[oldPosition (g.vertices.idxOf v) i]? with
  | none => rfl
  | some row => simp [getElem?_eraseIdx_eq]

theorem idxOf_removeVertex (hu : u ∈ g'.vertices) :
    g.vertices.idxOf u = oldPosition (g.vertices.idxOf v) (g'.vertices.idxOf u) := by
  obtain ⟨hlt, rfl⟩ := (removeVertex_eq_some h hv).mp hremove
  have hold := getElem?_idxOf hu
  rw [getElem?_eraseIdx_eq] at hold
  obtain ⟨hi, heq⟩ := List.getElem?_eq_some_iff.mp hold
  rw [← h.nodup.idxOf_getElem _ hi, heq]

theorem length_removeVertex : g'.vertices.length + 1 = g.vertices.length := by
  obtain ⟨hlt, rfl⟩ := (removeVertex_eq_some h hv).mp hremove
  exact length_eraseIdx_add_one (idxOf_lt_length_of_mem hv)

/-- The edges by the positions of the new graph. -/
theorem keepsEdges_iff_entries : g.KeepsEdges g' ↔
    ∀ i < g'.vertices.length, ∀ j < g'.vertices.length,
      g.entry (oldPosition (g.vertices.idxOf v) i) (oldPosition (2 * g.vertices.idxOf v) j) =
        g.entry (oldPosition (g.vertices.idxOf v) i) (oldPosition (g.vertices.idxOf v) j) := by
  have hnodup := (h.removeVertex hv hremove).nodup
  have hiff : ∀ u ∈ g'.vertices, ∀ u' ∈ g'.vertices, (g'.edge u u' = g.edge u u' ↔
      g.entry (oldPosition (g.vertices.idxOf v) (g'.vertices.idxOf u))
          (oldPosition (2 * g.vertices.idxOf v) (g'.vertices.idxOf u')) =
        g.entry (oldPosition (g.vertices.idxOf v) (g'.vertices.idxOf u))
          (oldPosition (g.vertices.idxOf v) (g'.vertices.idxOf u'))) := by
    intro u hu u' hu'
    rw [edge, edge, entry_removeVertex h hv hremove, idxOf_removeVertex h hv hremove hu,
      idxOf_removeVertex h hv hremove hu']
  constructor
  · intro hkeeps i hi j hj
    have hij := (hiff _ (getElem_mem hi) _ (getElem_mem hj)).mp
      (hkeeps _ (getElem_mem hi) _ (getElem_mem hj))
    rwa [hnodup.idxOf_getElem, hnodup.idxOf_getElem] at hij
  · intro hentries u hu u' hu'
    exact (hiff u hu u' hu').mpr (hentries _ (idxOf_lt_length_of_mem hu) _
      (idxOf_lt_length_of_mem hu'))

/-- The removal keeps the edges if no row tells the two positions apart. -/
theorem keepsEdges_iff : g.KeepsEdges g' ↔ g.Removable v := by
  have hlt := ((removeVertex_eq_some h hv).mp hremove).1
  have hlength := length_removeVertex h hv hremove
  rw [keepsEdges_iff_entries h hv hremove, Removable]
  generalize g.vertices.idxOf v = k at *
  constructor
  · intro hentries _
    refine ⟨hlt, fun i hi hne j hkj hj => ?_⟩
    have hij := hentries (if i < k then i else i - 1) (by split_ifs <;> omega) j (by omega)
    have hrow : oldPosition k (if i < k then i else i - 1) = i := by
      unfold oldPosition
      split_ifs <;> omega
    rwa [hrow, oldPosition, if_pos hj, oldPosition, if_neg (by omega)] at hij
  · intro hremovable i hi j hj
    rcases Nat.lt_or_ge j k with hjk | hkj
    · rw [oldPosition.eq_1 (2 * k) j, if_pos (by omega), oldPosition.eq_1 k j, if_pos hjk]
    · rw [oldPosition.eq_1 (2 * k) j, oldPosition.eq_1 k j, if_neg (by omega : ¬ j < k)]
      split_ifs with hj2
      · refine (hremovable hv).2 _ ?_ ?_ j hkj hj2
        · unfold oldPosition
          split_ifs <;> omega
        · unfold oldPosition
          split_ifs <;> omega
      · rfl

end Removal

theorem Consistent.perform (h : g.Consistent) {c : Call V E} (hc : c.perform g = some g') :
    g'.Consistent := by
  cases c with
  | addVertex v =>
    obtain rfl := Option.some.inj hc
    exact h.addVertex
  | addEdge start finish e =>
    obtain rfl := Option.some.inj hc
    unfold DirectedGraph.addEdge
    split_ifs
    · exact h.setEntry _
    · exact h
    · exact h
  | removeEdge start finish =>
    obtain rfl := Option.some.inj hc
    unfold DirectedGraph.removeEdge
    split_ifs
    · exact h.setEntry _
    · exact h
  | removeVertex v =>
    by_cases hv : v ∈ g.vertices
    · exact h.removeVertex hv hc
    · rw [Call.perform, DirectedGraph.removeVertex, if_neg hv] at hc
      obtain rfl := Option.some.inj hc
      exact h

/-- What the removal of a vertex should do happens exactly if the vertex is removable. -/
theorem removed_iff (h : g.Consistent) :
    (∃ g', g.removeVertex v = some g' ∧ g'.vertices = g.vertices.erase v ∧ g.KeepsEdges g') ↔
      g.Removable v := by
  by_cases hv : v ∈ g.vertices
  · constructor
    · rintro ⟨g', hremove, -, hkeeps⟩
      exact (keepsEdges_iff h hv hremove).mp hkeeps
    · intro hremovable
      have hremove := (removeVertex_eq_some h hv).mpr ⟨(hremovable hv).1, rfl⟩
      exact ⟨_, hremove, eraseIdx_idxOf_eq_erase v g.vertices,
        (keepsEdges_iff h hv hremove).mpr hremovable⟩
  · have hremove : g.removeVertex v = some g := if_neg hv
    exact iff_of_true ⟨g, hremove, (erase_of_not_mem hv).symm, fun _ _ _ _ => rfl⟩
      (fun hmem => absurd hmem hv)

theorem staysConsistent_iff_of_consistent (calls : List (Call V E)) (h : g.Consistent) :
    g.StaysConsistent calls ↔ g.RemovesRemovable calls := by
  induction calls generalizing g with
  | nil => exact iff_of_true h trivial
  | cons c calls ih =>
    constructor
    · rintro ⟨-, g', hc, hremoved, hcalls⟩
      refine ⟨fun v hv => ?_, fun g₂ hg₂ => ?_⟩
      · subst hv
        exact (removed_iff h).mp ⟨g', hc, hremoved v rfl⟩
      · obtain rfl := Option.some.inj (hc.symm.trans hg₂)
        exact (ih (h.perform hc)).mp hcalls
    · rintro ⟨hremovable, hcalls⟩
      have hstep : ∃ g', c.perform g = some g' ∧
          ∀ v, c = .removeVertex v → g'.vertices = g.vertices.erase v ∧ g.KeepsEdges g' := by
        cases c with
        | removeVertex v =>
          obtain ⟨g', hg', hremoved⟩ := (removed_iff h).mpr (hremovable v rfl)
          exact ⟨g', hg', fun v' hv' => by cases hv'; exact hremoved⟩
        | addEdge start finish e => exact ⟨_, rfl, fun v hv => nomatch hv⟩
        | addVertex v => exact ⟨_, rfl, fun v hv => nomatch hv⟩
        | removeEdge start finish => exact ⟨_, rfl, fun v hv => nomatch hv⟩
      obtain ⟨g', hc, hremoved⟩ := hstep
      exact ⟨h, g', hc, hremoved, (ih (h.perform hc)).mpr (hcalls g' hc)⟩

end Consistent

/-- Over any calls the matrix stays consistent and removals keep the other edges exactly if
each removed vertex is removable. -/
theorem staysConsistent_iff (calls : List (Call V E)) :
    (empty : DirectedGraph V E).StaysConsistent calls ↔
      (empty : DirectedGraph V E).RemovesRemovable calls :=
  staysConsistent_iff_of_consistent calls consistent_empty

/-- Three vertices and an edge from the first to the last. -/
def threeVertices : DirectedGraph ℕ ℕ := ((empty.addVertex 0).addVertex 1).addVertex 2

theorem removeVertex_losesEdge :
    (threeVertices.addEdge 0 2 7).toOption.map (·.edge 0 2) = some (some 7) ∧
      ((threeVertices.addEdge 0 2 7).toOption.bind (·.removeVertex 1)).map (·.edge 0 2) =
        some none ∧
      (threeVertices.addEdge 0 2 7).toOption.bind (·.removeVertex 2) = none := by
  decide

end DirectedGraph

end Sola.Daisi
