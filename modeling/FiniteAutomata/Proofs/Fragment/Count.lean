import FiniteAutomata.Proofs.Fragment.Associate
import FiniteAutomata.Proofs.Fragment.Replica
import FiniteAutomata.Proofs.Graph.Count

/-! How large the combinations of fragments are. Closure and union add two states and four
edges. A concatenation has all edges of its operands: those of the dropped state are counted
where they come to. A replica is as large as what it is a replica of. -/
namespace FiniteAutomata.Fragment

variable {σ : Type} [Symbol σ] {x y : Fragment σ} {start final : State}

theorem size_ofEdge (session : Nat) (hNe : start ≠ final) (label : Label σ) :
    (ofEdge session start final label).graph.size = 2 := by
  apply Graph.size_eq_length (l := [start, final])
  · simpa using hNe
  · simp [mem_ofEdge]

theorem edgeCount_ofEdge (session : Nat) (start final : State) (label : Label σ) :
    (ofEdge session start final label).graph.edgeCount = 1 := by
  rw [ofEdge, Graph.edgeCount_addEdge]
  rfl

theorem size_closureBetween (wf : x.WellFormed) (hStart : start ∉ x.graph)
    (hFinal : final ∉ x.graph) (hNe : start ≠ final) :
    (x.closureBetween start final).graph.size = x.graph.size + 2 := by
  have hSize := Graph.size_eq_length (g := (x.closureBetween start final).graph)
    (l := start :: final :: x.graph.vertices) ?_ ?_
  · simpa using hSize
  · simp [hNe, hStart, hFinal, Graph.mem_vertices, Graph.nodup_vertices]
  · intro v
    simp only [mem_closureBetween wf, List.mem_cons, Graph.mem_vertices]
    tauto

theorem edgeCount_closureBetween (x : Fragment σ) (start final : State) :
    (x.closureBetween start final).graph.edgeCount = x.graph.edgeCount + 4 := by
  simp only [closureBetween, Graph.edgeCount_addEdge]

theorem nodup_append_vertices (hApart : x.Apart y) :
    (x.graph.vertices ++ y.graph.vertices).Nodup := by
  apply List.Nodup.append x.graph.nodup_vertices y.graph.nodup_vertices
  intro s hx hy
  exact hApart s (Graph.mem_vertices.mp hx) (Graph.mem_vertices.mp hy)

theorem size_unionBetween (wfx : x.WellFormed) (wfy : y.WellFormed) (hApart : x.Apart y)
    (hStart : start ∉ x.graph ∧ start ∉ y.graph) (hFinal : final ∉ x.graph ∧ final ∉ y.graph)
    (hNe : start ≠ final) :
    ((x.merged y).unionBetween y start final).graph.size = x.graph.size + y.graph.size + 2 := by
  have hSize := Graph.size_eq_length (g := ((x.merged y).unionBetween y start final).graph)
    (l := start :: final :: (x.graph.vertices ++ y.graph.vertices)) ?_ ?_
  · simpa using hSize
  · have hOld := nodup_append_vertices hApart
    simp only [List.nodup_cons, List.mem_cons, List.mem_append, Graph.mem_vertices]
    tauto
  · intro v
    simp only [mem_unionBetween wfx wfy, List.mem_cons, List.mem_append, Graph.mem_vertices]
    tauto

theorem edgeCount_unionBetween (hApart : x.Apart y) (start final : State) :
    ((x.merged y).unionBetween y start final).graph.edgeCount =
      x.graph.edgeCount + y.graph.edgeCount + 4 := by
  simp only [unionBetween, merged, Graph.edgeCount_addEdge, Graph.edgeCount_absorb hApart]

/-- Only the right start state is lost. -/
theorem size_concatenated (wfx : x.WellFormed) (wfy : y.WellFormed) (hApart : x.Apart y) :
    (x.concatenated y).graph.size + 1 = x.graph.size + y.graph.size := by
  have hOld := nodup_append_vertices hApart
  have hDropped : y.start ∈ x.graph.vertices ++ y.graph.vertices :=
    List.mem_append_right _ (Graph.mem_vertices.mpr wfy.start_mem)
  have hSize := Graph.size_eq_length (g := (x.concatenated y).graph)
    (l := (x.graph.vertices ++ y.graph.vertices).erase y.start) (hOld.erase _) ?_
  · have hLength := List.length_erase_add_one hDropped
    rw [← hSize, List.length_append, Graph.length_vertices, Graph.length_vertices] at hLength
    exact hLength
  · intro v
    rw [mem_concatenated wfx wfy, hOld.mem_erase_iff, List.mem_append, Graph.mem_vertices,
      Graph.mem_vertices]

/-- The edges of the dropped state are copied to another place. -/
theorem edgeCount_concatenated (wfx : x.WellFormed) (wfy : y.WellFormed) (hApart : x.Apart y) :
    (x.concatenated y).graph.edgeCount = x.graph.edgeCount + y.graph.edgeCount := by
  have hNe : y.start ≠ x.final := (hApart.ne wfx.final_mem wfy.start_mem).symm
  have hCopied : (x.graph.absorb y.graph).arrows y.start = y.graph.arrows y.start :=
    Graph.arrows_absorb_right wfy.start_mem
  have hRemoved := Graph.edgeCount_remove (g := (x.graph.absorb y.graph).addArrows x.final
    (y.graph.arrows y.start)) y.start
  rw [Graph.arrows_addArrows, if_neg hNe, hCopied, Graph.edgeCount_addArrows,
    Graph.edgeCount_absorb hApart] at hRemoved
  have hGraph : (x.concatenated y).graph = ((x.graph.absorb y.graph).addArrows x.final
      (y.graph.arrows y.start)).remove y.start := by
    simp only [concatenated, merged, hCopied]
  rw [hGraph]
  omega

theorem size_rename {f : State → State} (wf : x.WellFormed)
    (hInj : ∀ s ∈ x.graph, ∀ t ∈ x.graph, f s = f t → s = t) :
    (x.rename f).graph.size = x.graph.size := by
  have hSize := Graph.size_eq_length (g := (x.rename f).graph) (l := x.graph.vertices.map f) ?_ ?_
  · simpa using hSize
  · apply List.Nodup.map_on _ x.graph.nodup_vertices
    exact fun s hs t ht => hInj s (Graph.mem_vertices.mp hs) t (Graph.mem_vertices.mp ht)
  · intro v
    simp [mem_rename wf, Graph.mem_vertices, eq_comm]

omit [Symbol σ] in
theorem edgeCount_addRenamed (f : State → State)
    (rows : List (State × List (Arrow State (Label σ)))) (g : Graph State (Label σ)) :
    (Graph.addRenamed f rows g).edgeCount =
      g.edgeCount + (rows.map fun row => row.2.length).sum := by
  induction rows generalizing g with
  | nil => rfl
  | cons row rest ih =>
      rw [Graph.addRenamed, List.foldl_cons, ← Graph.addRenamed, ih, Graph.edgeCount_addArrows,
        Graph.edgeCount_addVertex, List.length_map, List.map_cons, List.sum_cons, Nat.add_assoc]

/-- Renaming keeps every edge, even where two states get the same name. -/
theorem edgeCount_rename (f : State → State) (x : Fragment σ) :
    (x.rename f).graph.edgeCount = x.graph.edgeCount := by
  have hCount : (x.rename f).graph.edgeCount = _ := edgeCount_addRenamed f x.graph.rows ∅
  rw [hCount, Graph.edgeCount_empty, Nat.zero_add, ← Graph.edgeCount_eq_sum_rows]

section Lists

variable {k : Language σ} {ls : List (Language σ)} {s t u : Session} {xs : List (Fragment σ)}

/-- In a row each fragment but the first loses its start state. -/
theorem Built.size_foldl (first : Built k s x t) (rest : BuiltAll ls t xs u) :
    (xs.foldl Fragment.concatenated x).graph.size + xs.length =
      x.graph.size + (xs.map fun y => y.graph.size).sum := by
  induction rest generalizing k x with
  | nil => rfl
  | cons next _ ih =>
      have hPair := size_concatenated first.recognizes.wellFormed next.recognizes.wellFormed
        (first.apart next)
      have hRow := ih (first.concatenated next)
      simp only [List.foldl_cons, List.length_cons, List.map_cons, List.sum_cons]
      omega

/-- In a row no edge is lost. -/
theorem Built.edgeCount_foldl (first : Built k s x t) (rest : BuiltAll ls t xs u) :
    (xs.foldl Fragment.concatenated x).graph.edgeCount =
      x.graph.edgeCount + (xs.map fun y => y.graph.edgeCount).sum := by
  induction rest generalizing k x with
  | nil => rfl
  | cons next _ ih =>
      have hPair := edgeCount_concatenated first.recognizes.wellFormed
        next.recognizes.wellFormed (first.apart next)
      rw [List.foldl_cons, ih (first.concatenated next), hPair, List.map_cons, List.sum_cons,
        Nat.add_assoc]

end Lists

end FiniteAutomata.Fragment
