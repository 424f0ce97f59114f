import FiniteAutomata.Proofs.Fragment.Fresh
import FiniteAutomata.Proofs.Graph.Count

/-! What a replica is: the same graph over the next numbers of the session. A fragment that
passes its check mentions as many states as it has vertices, so these are as many numbers as
there are vertices, and every vertex keeps its edges in their order. -/
namespace FiniteAutomata.Fragment

variable {σ : Type} [Symbol σ] {x r : Fragment σ}

/-- The fragment `r` is `x` over other states: `g` takes the vertices of one to those of the
other, one to one, with all their edges in the same order. -/
structure Isomorphism (g : State → State) (x r : Fragment σ) : Prop where
  bijOn : Set.BijOn g {v | v ∈ x.graph} {v | v ∈ r.graph}
  start_eq : g x.start = r.start
  final_eq : g x.final = r.final
  arrows_eq : ∀ v ∈ x.graph, r.graph.arrows (g v) = (x.graph.arrows v).map (Arrow.rename g)
  alphabet_eq : r.alphabet = x.alphabet

/-- A renaming that keeps the vertices apart changes nothing but their names. -/
theorem isomorphism_rename {f : State → State} (wf : x.WellFormed)
    (hInj : ∀ s ∈ x.graph, ∀ t ∈ x.graph, f s = f t → s = t) : Isomorphism f x (x.rename f) where
  bijOn := by
    refine ⟨fun s hs => (mem_rename wf).mpr ⟨s, hs, rfl⟩, fun s hs t ht => hInj s hs t ht, ?_⟩
    intro v hv
    obtain ⟨s, hs, rfl⟩ := (mem_rename wf).mp hv
    exact ⟨s, hs, rfl⟩
  start_eq := rfl
  final_eq := rfl
  arrows_eq v hv := by
    have hArrows : (x.rename f).graph.arrows (f v) = _ :=
      Graph.arrows_addRenamed f x.graph.rows ∅ (f v)
    rw [hArrows, Graph.filter_rows_eq_singleton hInj hv]
    exact List.append_nil _
  alphabet_eq := rfl

section Numbers

/-- Of what is seen again nothing changes, and what is new comes last. -/
theorem eraseDups_concat (l : List State) (s : State) :
    (l ++ [s]).eraseDups = if s ∈ l then l.eraseDups else l.eraseDups ++ [s] := by
  rw [List.eraseDups_append, List.removeAll]
  split
  next h => simp [h]
  next h => simp [h, List.eraseDups_cons]

theorem nodup_eraseDups (l : List State) : l.eraseDups.Nodup := by
  induction l using List.reverseRecOn with
  | nil => exact List.nodup_nil
  | append_singleton l s ih =>
      rw [eraseDups_concat]
      split
      next => exact ih
      next h => simpa [List.nodup_append] using ⟨ih, fun t ht hEq => h (hEq ▸ ht)⟩

/-- A well-formed fragment mentions as many states as it has vertices. -/
theorem WellFormed.length_mentioned (wf : x.WellFormed) : x.mentioned.length = x.graph.size := by
  apply Eq.symm
  apply Graph.size_eq_length (nodup_eraseDups _)
  exact fun s => (mem_mentioned wf).symm

/-- The new names of the states are the numbers from `next` on. -/
theorem WellFormed.vertices_replica (wf : x.WellFormed) (next : State) :
    (x.rename fun s => next + x.mentioned.idxOf s).graph.vertices =
      List.range' next x.graph.size := by
  apply Graph.vertices_eq_of_ascending
  · exact (List.pairwise_lt_range' 1).imp fun hLt => Nat.compare_eq_lt.mpr hLt
  · intro v
    rw [mem_rename wf, List.mem_range'_1, ← wf.length_mentioned]
    constructor
    · rintro ⟨s, hs, rfl⟩
      have hIndex := List.idxOf_lt_length_iff.mpr ((mem_mentioned wf).mpr hs)
      omega
    · rintro ⟨hLe, hLt⟩
      -- Counted from `next`, the number is the place of the state that has it.
      have hIndex : v - next < x.mentioned.length := Nat.sub_lt_left_of_lt_add hLe hLt
      have hFound : x.mentioned.idxOf x.mentioned[v - next] = v - next :=
        (nodup_eraseDups _).idxOf_getElem (v - next) hIndex
      refine ⟨x.mentioned[v - next], (mem_mentioned wf).mp (List.getElem_mem hIndex), ?_⟩
      rw [hFound, Nat.add_sub_cancel' hLe]

/-- A replica takes as many numbers as there are vertices, and none of them occurs in the
fragment. -/
theorem Belongs.replicate_spec {t : Session} (hx : x.Belongs t) (wf : x.WellFormed) :
    ∃ r g, x.replicate.run t = (r, { t with next := t.next + x.graph.size }) ∧
      r.graph.vertices = List.range' t.next x.graph.size ∧ Isomorphism g x r ∧
      r.session = x.session ∧ (∀ v ∈ r.graph, ¬ x.Mentions v) ∧ r.WellFormed := by
  have hVertices := wf.vertices_replica t.next
  refine ⟨_, _, ?_, hVertices, isomorphism_rename wf (replica_injective wf t.next), rfl, ?_,
    wellFormed_rename wf⟩
  · rw [← wf.length_mentioned]
    exact run_replicate x t
  · intro v hv
    have hNew := Graph.mem_vertices.mpr hv
    rw [hVertices, List.mem_range'_1] at hNew
    exact hx.not_mentions hNew.1

end Numbers

end FiniteAutomata.Fragment
