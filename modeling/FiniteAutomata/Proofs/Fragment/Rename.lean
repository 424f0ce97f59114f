import FiniteAutomata.Fragment.Combine
import FiniteAutomata.Proofs.Fragment.Path

/-! Renaming the states of a fragment. A well-formed fragment stays well formed
under every renaming, and keeps its language if no two of its states get the same
name. A replica renames the states to numbers that were not handed out before. -/
namespace FiniteAutomata

variable {σ : Type}

namespace Graph

/-- Add the renamed rows of a graph to another one. -/
def addRenamed (f : State → State) (rows : List (State × List (Arrow State (Label σ))))
    (g : Graph State (Label σ)) : Graph State (Label σ) :=
  rows.foldl
    (fun g row => (g.addVertex (f row.1)).addArrows (f row.1) (row.2.map (Arrow.rename f))) g

theorem arrows_addRenamed (f : State → State) (rows : List (State × List (Arrow State (Label σ))))
    (g : Graph State (Label σ)) (v : State) :
    (addRenamed f rows g).arrows v = g.arrows v ++
      (rows.filter fun row => f row.1 = v).flatMap fun row => row.2.map (Arrow.rename f) := by
  induction rows generalizing g with
  | nil => simp [addRenamed]
  | cons row rest ih =>
      rw [addRenamed, List.foldl_cons, ← addRenamed, ih, arrows_addArrows, arrows_addVertex,
        arrows_addVertex]
      by_cases h : f row.1 = v
      · simp [h]
      · simp [h, Ne.symm h]

theorem mem_addRenamed {f : State → State} {rows : List (State × List (Arrow State (Label σ)))}
    {g : Graph State (Label σ)} {v : State} :
    v ∈ addRenamed f rows g ↔
      v ∈ g ∨ ∃ row ∈ rows, v = f row.1 ∨ ∃ a ∈ row.2, v = f a.target := by
  induction rows generalizing g with
  | nil => simp [addRenamed]
  | cons row rest ih =>
      have hTargets : (∃ a ∈ row.2.map (Arrow.rename f), v = a.target) ↔
          ∃ a ∈ row.2, v = f a.target := by simp [Arrow.rename]
      rw [addRenamed, List.foldl_cons, ← addRenamed, ih, mem_addArrows, mem_addVertex, hTargets]
      simp only [List.mem_cons, exists_eq_or_imp]
      by_cases hSource : v = f row.1
      · simp [hSource]
      · simp only [hSource, false_or, false_and, or_assoc]

end Graph

namespace Fragment

variable [Symbol σ] {x : Fragment σ}

section Rename

variable {f : State → State}

/-- The edges of a renamed fragment are its edges between the new names. -/
theorem joins_rename {u v : State} {l : Label σ} :
    (x.rename f).graph.Joins u l v ↔ ∃ s t, x.graph.Joins s l t ∧ u = f s ∧ v = f t := by
  have hArrows : (x.rename f).graph.arrows u = _ :=
    Graph.arrows_addRenamed f x.graph.rows ∅ u
  rw [Graph.Joins, hArrows]
  constructor
  · intro h
    obtain ⟨⟨s, arrows⟩, hRow, hMem⟩ := List.mem_flatMap.mp h
    obtain ⟨hRow, hSource⟩ := List.mem_filter.mp hRow
    obtain ⟨a, ha, hEq⟩ := List.mem_map.mp hMem
    cases hEq
    exact ⟨s, a.target, Graph.joins_of_arrows? (Graph.mem_rows_iff.mp hRow) ha,
      (of_decide_eq_true hSource).symm, rfl⟩
  · intro hSome
    obtain ⟨s, t, hEdge, rfl, rfl⟩ := hSome
    have hRow := Graph.mem_rows_iff.mpr (Graph.arrows?_of_mem (Graph.mem_of_joins hEdge))
    refine List.mem_flatMap.mpr ⟨_, List.mem_filter.mpr ⟨hRow, decide_eq_true rfl⟩, ?_⟩
    exact List.mem_map.mpr ⟨⟨t, l⟩, hEdge, rfl⟩

/-- The vertices of a renamed fragment are the new names of vertices and of the targets of
edges. -/
theorem mem_rename_iff {v : State} :
    v ∈ (x.rename f).graph ↔ ∃ s, (s ∈ x.graph ∨ ∃ p l, x.graph.Joins p l s) ∧ v = f s := by
  refine Graph.mem_addRenamed.trans ((or_iff_right (Graph.not_mem_empty v)).trans ?_)
  constructor
  · intro h
    obtain ⟨⟨s, arrows⟩, hRow, hName⟩ := h
    have hArrows := Graph.mem_rows_iff.mp hRow
    rcases hName with rfl | ⟨a, ha, rfl⟩
    · exact ⟨s, Or.inl (Graph.mem_of_arrows? hArrows), rfl⟩
    · exact ⟨a.target, Or.inr ⟨s, a.weight, Graph.joins_of_arrows? hArrows ha⟩, rfl⟩
  · intro h
    obtain ⟨s, hs | ⟨p, l, hEdge⟩, rfl⟩ := h
    · exact ⟨_, Graph.mem_rows_iff.mpr (Graph.arrows?_of_mem hs), Or.inl rfl⟩
    · exact ⟨_, Graph.mem_rows_iff.mpr (Graph.arrows?_of_mem (Graph.mem_of_joins hEdge)),
        Or.inr ⟨_, hEdge, rfl⟩⟩

theorem mem_rename (wf : x.WellFormed) {v : State} :
    v ∈ (x.rename f).graph ↔ ∃ s ∈ x.graph, v = f s := by
  rw [mem_rename_iff]
  refine exists_congr fun s => and_congr_left fun _ => or_iff_left_of_imp ?_
  rintro ⟨p, l, hEdge⟩
  exact wf.target_mem p l s hEdge

theorem wellFormed_rename (wf : x.WellFormed) : (x.rename f).WellFormed where
  start_mem := (mem_rename wf).mpr ⟨x.start, wf.start_mem, rfl⟩
  final_mem := (mem_rename wf).mpr ⟨x.final, wf.final_mem, rfl⟩
  target_mem s l t h := by
    obtain ⟨p, q, hEdge, -, rfl⟩ := joins_rename.mp h
    exact (mem_rename wf).mpr ⟨q, wf.target_mem p l q hEdge, rfl⟩
  symbol_mem s a t h := by
    obtain ⟨p, q, hEdge, -, -⟩ := joins_rename.mp h
    exact wf.symbol_mem p a q hEdge

/-- A path between new names comes from a path between the old ones. -/
theorem path_of_rename (wf : x.WellFormed)
    (hInj : ∀ s ∈ x.graph, ∀ t ∈ x.graph, f s = f t → s = t) {s : State} (hs : s ∈ x.graph)
    {v : State} {word : List σ} (path : (x.rename f).graph.Path (f s) word v) :
    ∃ t ∈ x.graph, v = f t ∧ x.graph.Path s word t := by
  generalize hFrom : f s = u at path
  induction path generalizing s with
  | nil => exact ⟨s, hs, hFrom.symm, .nil s⟩
  | step edge _ ih =>
      obtain ⟨p, q, hEdge, rfl, rfl⟩ := joins_rename.mp edge
      obtain rfl := hInj s hs p (Graph.mem_of_joins hEdge) hFrom
      obtain ⟨t, ht, hTo, path⟩ := ih (wf.target_mem _ _ q hEdge) rfl
      exact ⟨t, ht, hTo, .step hEdge path⟩

/-- A renaming that keeps states apart keeps the language. -/
theorem language_rename (wf : x.WellFormed)
    (hInj : ∀ s ∈ x.graph, ∀ t ∈ x.graph, f s = f t → s = t) :
    (x.rename f).language = x.language := by
  ext word
  constructor
  · intro path
    obtain ⟨t, ht, hTo, path⟩ := path_of_rename wf hInj wf.start_mem path
    obtain rfl := hInj x.final wf.final_mem t ht hTo
    exact path
  · intro path
    exact Graph.Path.map path fun s l t hEdge => joins_rename.mpr ⟨s, t, hEdge, rfl, rfl⟩

end Rename

section Replicate

/-- A state occurs in the fragment. -/
inductive Mentions (x : Fragment σ) : State → Prop where
  | vertex {s : State} (h : s ∈ x.graph) : Mentions x s
  | target {p s : State} {l : Label σ} (h : x.graph.Joins p l s) : Mentions x s
  | start : Mentions x x.start
  | final : Mentions x x.final

theorem mem_mentioned_iff {s : State} : s ∈ x.mentioned ↔ x.Mentions s := by
  rw [mentioned, List.mem_eraseDups, List.mem_append, List.mem_flatMap, List.mem_pair]
  constructor
  · rintro (⟨⟨v, arrows⟩, hRow, hMem⟩ | rfl | rfl)
    · have hArrows := Graph.mem_rows_iff.mp hRow
      rcases List.mem_cons.mp hMem with rfl | hTarget
      · exact .vertex (Graph.mem_of_arrows? hArrows)
      · obtain ⟨a, ha, rfl⟩ := List.mem_map.mp hTarget
        exact .target (Graph.joins_of_arrows? hArrows ha)
    · exact .start
    · exact .final
  · intro h
    cases h with
    | vertex hs =>
        have hRow := Graph.mem_rows_iff.mpr (Graph.arrows?_of_mem hs)
        exact Or.inl ⟨_, hRow, List.mem_cons_self⟩
    | target hEdge =>
        have hRow := Graph.mem_rows_iff.mpr (Graph.arrows?_of_mem (Graph.mem_of_joins hEdge))
        exact Or.inl ⟨_, hRow, List.mem_cons_of_mem _ (List.mem_map_of_mem hEdge)⟩
    | start => exact Or.inr (Or.inl rfl)
    | final => exact Or.inr (Or.inr rfl)

/-- A well-formed fragment mentions nothing but its vertices. -/
theorem WellFormed.mentions_iff (wf : x.WellFormed) {s : State} : x.Mentions s ↔ s ∈ x.graph := by
  refine ⟨fun h => ?_, .vertex⟩
  cases h with
  | vertex hs => exact hs
  | target hEdge => exact wf.target_mem _ _ s hEdge
  | start => exact wf.start_mem
  | final => exact wf.final_mem

theorem mem_mentioned (wf : x.WellFormed) {s : State} : s ∈ x.mentioned ↔ s ∈ x.graph :=
  mem_mentioned_iff.trans wf.mentions_iff

/-- The names that a replica gets keep the states apart. -/
theorem replica_injective (wf : x.WellFormed) (next : State) :
    ∀ s ∈ x.graph, ∀ t ∈ x.graph,
      next + x.mentioned.idxOf s = next + x.mentioned.idxOf t → s = t := by
  intro s hs t _ h
  exact (List.idxOf_inj ((mem_mentioned wf).mpr hs)).mp (Nat.add_left_cancel h)

end Replicate

end Fragment

end FiniteAutomata
