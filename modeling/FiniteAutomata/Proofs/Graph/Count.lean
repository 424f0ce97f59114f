import FiniteAutomata.Proofs.Graph
import Mathlib.Algebra.BigOperators.Group.Finset.Piecewise
import Mathlib.Algebra.GroupWithZero.Nat
import Mathlib.Data.List.Nodup

/-! Counting the vertices and the edges of a graph. The edges are counted place by place, so
each operation changes the count by what it does to the edges of single places: adding edges
adds their number, whether or not there are parallel ones already, and nothing is lost when
graphs without a common vertex come together. -/
namespace FiniteAutomata

variable {V W : Type} [Ord V]

namespace Multigraph

/-- Counted row by row, the edges are those of each row. -/
theorem edgeCount_eq_sum (m : Multigraph V W) :
    m.edgeCount = (m.adjacency.entries.map fun row => row.2.length).sum := by
  rw [edgeCount, List.sum_eq_foldl, List.foldl_map]

theorem edgeCount_eq_sum_vertices [DecidableEq V] [Std.TransOrd V] (m : Multigraph V W) :
    m.edgeCount = (m.vertices.map fun v => (m.edgesOf v).length).sum := by
  rw [vertices, SortedMap.keys, List.map_map, edgeCount_eq_sum]
  congr 1
  apply List.map_congr_left
  intro row hRow
  have hEdges : m.edges? row.1 = some row.2 := SortedMap.mem_entries_iff.mp hRow
  rw [Function.comp_apply, edgesOf, hEdges, Option.getD_some]

end Multigraph

namespace Graph

open scoped BigOperators

@[simp]
theorem length_vertices (g : Graph V W) : g.vertices.length = g.size := List.length_map _

@[simp]
theorem edgeCount_empty : (∅ : Graph V W).edgeCount = 0 := rfl

theorem edgeCount_eq_sum_rows (g : Graph V W) :
    g.edgeCount = (g.rows.map fun row => row.2.length).sum := by
  simp [Multigraph.edgeCount_eq_sum, rows, Function.comp_def]

variable [DecidableEq V] [Std.TransOrd V]

theorem size_eq_length {g : Graph V W} {l : List V} (hNodup : l.Nodup)
    (hMem : ∀ v, v ∈ g ↔ v ∈ l) : g.size = l.length := by
  have hPerm : g.vertices.Perm l := by
    apply (List.perm_ext_iff_of_nodup g.nodup_vertices hNodup).mpr
    exact fun v => mem_vertices.trans (hMem v)
  rw [← hPerm.length_eq, length_vertices]

/-- The edges are those of each vertex. -/
theorem edgeCount_eq_sum_vertices (g : Graph V W) :
    g.edgeCount = (g.vertices.map fun v => (g.arrows v).length).sum := by
  rw [Multigraph.edgeCount_eq_sum_vertices]
  simp only [← map_arrow_edgesOf, List.length_map]

/-- There are no edges where there is no vertex. -/
theorem edgeCount_eq_sum (g : Graph V W) {s : Finset V} (h : ∀ v ∈ g, v ∈ s) :
    g.edgeCount = ∑ v ∈ s, (g.arrows v).length := by
  calc
    g.edgeCount = (g.vertices.map fun v => (g.arrows v).length).sum := edgeCount_eq_sum_vertices g
    _ = ∑ v ∈ g.vertices.toFinset, (g.arrows v).length :=
      (List.sum_toFinset _ g.nodup_vertices).symm
    _ = ∑ v ∈ s, (g.arrows v).length := by
      apply Finset.sum_subset
      · exact fun v hv => h v (mem_vertices.mp (List.mem_toFinset.mp hv))
      · intro v _ hNone
        rw [arrows_eq_nil fun hv => hNone (List.mem_toFinset.mpr (mem_vertices.mpr hv))]
        rfl

/-- Two graphs that differ only in the edges of one place. -/
theorem edgeCount_eq_add {g h : Graph V W} {u : V} {n : Nat}
    (hHere : (h.arrows u).length = (g.arrows u).length + n)
    (hElse : ∀ v, v ≠ u → h.arrows v = g.arrows v) : h.edgeCount = g.edgeCount + n := by
  let s := insert u (g.vertices.toFinset ∪ h.vertices.toFinset)
  have hg : ∀ v ∈ g, v ∈ s := fun v hv => by simp [s, mem_vertices, hv]
  have hh : ∀ v ∈ h, v ∈ s := fun v hv => by simp [s, mem_vertices, hv]
  have hu : u ∈ s := Finset.mem_insert_self ..
  have hRest : ∑ v ∈ s.erase u, (h.arrows v).length = ∑ v ∈ s.erase u, (g.arrows v).length :=
    Finset.sum_congr rfl fun v hv => by rw [hElse v (Finset.ne_of_mem_erase hv)]
  rw [edgeCount_eq_sum g hg, edgeCount_eq_sum h hh, ← Finset.add_sum_erase s _ hu,
    ← Finset.add_sum_erase s _ hu, hRest, hHere]
  omega

theorem edgeCount_remove {g : Graph V W} (v : V) :
    (g.remove v).edgeCount + (g.arrows v).length = g.edgeCount := by
  refine (edgeCount_eq_add (u := v) ?_ fun u hu => ?_).symm
  · rw [arrows_remove, if_pos rfl, List.length_nil, Nat.zero_add]
  · rw [arrows_remove, if_neg hu]

variable [Std.LawfulEqOrd V]

@[simp]
theorem edgeCount_addVertex (g : Graph V W) (v : V) : (g.addVertex v).edgeCount = g.edgeCount :=
  edgeCount_eq_add (u := v) (n := 0) (by rw [arrows_addVertex, Nat.add_zero])
    fun u _ => arrows_addVertex g v u

@[simp]
theorem edgeCount_addArrows (g : Graph V W) (source : V) (l : List (Arrow V W)) :
    (g.addArrows source l).edgeCount = g.edgeCount + l.length := by
  apply edgeCount_eq_add (u := source)
  · rw [arrows_addArrows, if_pos rfl, List.length_append]
  · intro v hv
    rw [arrows_addArrows, if_neg hv]

@[simp]
theorem edgeCount_addEdge (g : Graph V W) (source target : V) (w : W) :
    (g.addEdge source target w).edgeCount = g.edgeCount + 1 :=
  edgeCount_addArrows g source [⟨target, w⟩]

theorem edgeCount_absorb {g h : Graph V W} (hApart : ∀ v ∈ g, v ∉ h) :
    (g.absorb h).edgeCount = g.edgeCount + h.edgeCount := by
  let s := (g.absorb h).vertices.toFinset
  have hMem : ∀ v, v ∈ g.absorb h → v ∈ s := fun v hv =>
    List.mem_toFinset.mpr (mem_vertices.mpr hv)
  have hArrows : ∀ v, ((g.absorb h).arrows v).length = (g.arrows v).length + (h.arrows v).length :=
    fun v => by rw [arrows_absorb hApart, List.length_append]
  rw [edgeCount_eq_sum _ hMem, edgeCount_eq_sum g fun v hv => hMem v (mem_absorb.mpr (Or.inl hv)),
    edgeCount_eq_sum h fun v hv => hMem v (mem_absorb.mpr (Or.inr hv)), ← Finset.sum_add_distrib]
  exact Finset.sum_congr rfl fun v _ => hArrows v

end Graph

end FiniteAutomata
