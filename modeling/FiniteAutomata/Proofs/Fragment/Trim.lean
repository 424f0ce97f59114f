import FiniteAutomata.Proofs.Fragment.Concat
import FiniteAutomata.Proofs.Fragment.Rename

/-! Fragments without superfluous parts. Every state lies on a path from the start to the
final state, every symbol of the alphabet is read somewhere, nothing leads into the start
state and nothing out of the final one. The combinators keep this as long as they are given
new states; a concatenation keeps it because nothing leads into the state that it drops. -/
namespace FiniteAutomata.Fragment

variable {σ : Type} [Symbol σ]

/-- A well-formed fragment all of whose parts are of use. -/
structure Trim (x : Fragment σ) : Prop where
  wellFormed : x.WellFormed
  start_ne_final : x.start ≠ x.final
  no_entry : ∀ s l, ¬ x.graph.Joins s l x.start
  no_exit : ∀ l t, ¬ x.graph.Joins x.final l t
  used : ∀ a ∈ x.alphabet, ∃ s t, x.graph.Joins s (.symbol a) t
  on_path : ∀ s ∈ x.graph, ∃ v w, x.graph.Path x.start v s ∧ x.graph.Path s w x.final

variable {x y : Fragment σ} {start final : State}

/-- The alphabet consists of the symbols on the edges. -/
theorem Trim.mem_alphabet_iff (h : x.Trim) {a : σ} :
    a ∈ x.alphabet ↔ ∃ s t, x.graph.Joins s (.symbol a) t := by
  refine ⟨h.used a, ?_⟩
  rintro ⟨s, t, hEdge⟩
  exact h.wellFormed.symbol_mem s a t hEdge

/-- The final state can be reached. -/
theorem Trim.exists_path (h : x.Trim) : ∃ word, x.graph.Path x.start word x.final := by
  obtain ⟨v, -, path, -⟩ := h.on_path x.final h.wellFormed.final_mem
  exact ⟨v, path⟩

section Embedded

variable {g : Graph State (Label σ)} {s : State}

omit [Symbol σ] in
/-- The ends of a path lie on it. -/
theorem on_path_of_end {word : List σ} (path : g.Path start word final)
    (hEnd : s = start ∨ s = final) : ∃ v w, g.Path start v s ∧ g.Path s w final := by
  rcases hEnd with rfl | rfl
  · exact ⟨[], word, .nil s, path⟩
  · exact ⟨word, [], path, .nil s⟩

/-- In a graph that contains the fragment, and leads into it and out of it over edges that
read nothing, its states lie on the paths that pass through it. -/
theorem Trim.on_path_through (h : x.Trim)
    (hEdges : ∀ s l t, x.graph.Joins s l t → g.Joins s l t)
    (hIn : g.Joins start .epsilon x.start) (hOut : g.Joins x.final .epsilon final)
    (hs : s ∈ x.graph) : ∃ v w, g.Path start v s ∧ g.Path s w final := by
  obtain ⟨v, w, before, after⟩ := h.on_path s hs
  have hExit := (after.mono hEdges).trans (.silent hOut (.nil final))
  exact ⟨v, w ++ [], .silent hIn (before.mono hEdges), hExit⟩

end Embedded

theorem trim_ofEdge (session : Nat) (hNe : start ≠ final) (label : Label σ) :
    (ofEdge session start final label).Trim where
  wellFormed := wellFormed_ofEdge session start final label
  start_ne_final := hNe
  no_entry s l h := hNe (joins_ofEdge.mp h).2.2
  no_exit l t h := hNe (joins_ofEdge.mp h).1.symm
  used a ha := by
    have hSymbol : a ∈ label.symbol?.toList := SortedSet.mem_ofList.mp ha
    cases label with
    | epsilon => cases hSymbol
    | symbol b =>
        obtain rfl := List.mem_singleton.mp hSymbol
        exact ⟨start, final, joins_ofEdge.mpr ⟨rfl, rfl, rfl⟩⟩
  on_path s hs := by
    have hEdge : (ofEdge session start final label).graph.Joins start label final :=
      joins_ofEdge.mpr ⟨rfl, rfl, rfl⟩
    exact on_path_of_end (.step hEdge (.nil final)) (mem_ofEdge.mp hs)

theorem Trim.closureBetween (h : x.Trim) (hStart : start ∉ x.graph) (hFinal : final ∉ x.graph)
    (hNe : start ≠ final) : (x.closureBetween start final).Trim where
  wellFormed := wellFormed_closureBetween h.wellFormed
  start_ne_final := hNe
  no_entry := no_entry_closureBetween h.wellFormed hStart hNe
  no_exit := no_edge_closureBetween h.wellFormed hFinal hNe
  used a ha := by
    obtain ⟨s, t, hEdge⟩ := h.used a ha
    exact ⟨s, t, joins_closureBetween.mpr (Or.inl hEdge)⟩
  on_path s hs := by
    rcases (mem_closureBetween h.wellFormed).mp hs with hMem | hEnd
    · have hEdges : ∀ s l t, x.graph.Joins s l t →
          (x.closureBetween start final).graph.Joins s l t := fun s l t hEdge =>
        joins_closureBetween.mpr (Or.inl hEdge)
      refine h.on_path_through hEdges ?_ ?_ hMem
      · exact joins_closureBetween.mpr (Or.inr ⟨rfl, Or.inl ⟨rfl, Or.inl rfl⟩⟩)
      · exact joins_closureBetween.mpr (Or.inr ⟨rfl, Or.inr ⟨rfl, Or.inl rfl⟩⟩)
    · have hAround : (x.closureBetween start final).graph.Joins start .epsilon final :=
        joins_closureBetween.mpr (Or.inr ⟨rfl, Or.inl ⟨rfl, Or.inr rfl⟩⟩)
      exact on_path_of_end (.silent hAround (.nil final)) hEnd

theorem Trim.unionBetween (hx : x.Trim) (hy : y.Trim) (hApart : x.Apart y)
    (hStart : start ∉ x.graph ∧ start ∉ y.graph) (hFinal : final ∉ x.graph ∧ final ∉ y.graph)
    (hNe : start ≠ final) : ((x.merged y).unionBetween y start final).Trim where
  wellFormed := wellFormed_unionBetween hx.wellFormed hy.wellFormed hApart
  start_ne_final := hNe
  no_entry := no_entry_unionBetween hx.wellFormed hy.wellFormed hApart hStart hNe
  no_exit := no_edge_unionBetween hx.wellFormed hy.wellFormed hApart hFinal hNe
  used a ha := by
    rcases SortedSet.mem_union.mp ha with ha | ha
    · obtain ⟨s, t, hEdge⟩ := hy.used a ha
      exact ⟨s, t, (joins_unionBetween hApart).mpr (Or.inl (Or.inr hEdge))⟩
    · obtain ⟨s, t, hEdge⟩ := hx.used a ha
      exact ⟨s, t, (joins_unionBetween hApart).mpr (Or.inl (Or.inl hEdge))⟩
  on_path s hs := by
    have hJoins (s : State) (l : Label σ) (t : State) :
        ((x.merged y).unionBetween y start final).graph.Joins s l t ↔ _ := joins_unionBetween hApart
    have hLeft : ∀ s ∈ x.graph, ∃ v w,
        ((x.merged y).unionBetween y start final).graph.Path start v s ∧
          ((x.merged y).unionBetween y start final).graph.Path s w final := fun s hs =>
      hx.on_path_through (fun s l t hEdge => (hJoins s l t).mpr (Or.inl (Or.inl hEdge)))
        ((hJoins ..).mpr (Or.inr ⟨rfl, Or.inl ⟨rfl, Or.inl rfl⟩⟩))
        ((hJoins ..).mpr (Or.inr ⟨rfl, Or.inr ⟨Or.inl rfl, rfl⟩⟩)) hs
    rcases (mem_unionBetween hx.wellFormed hy.wellFormed).mp hs with (hMem | hMem) | hEnd
    · exact hLeft s hMem
    · exact hy.on_path_through (fun s l t hEdge => (hJoins s l t).mpr (Or.inl (Or.inr hEdge)))
        ((hJoins ..).mpr (Or.inr ⟨rfl, Or.inl ⟨rfl, Or.inr rfl⟩⟩))
        ((hJoins ..).mpr (Or.inr ⟨rfl, Or.inr ⟨Or.inr rfl, rfl⟩⟩)) hMem
    · obtain ⟨v, w, before, after⟩ := hLeft x.start hx.wellFormed.start_mem
      exact on_path_of_end (before.trans after) hEnd

theorem Trim.concatenated (hx : x.Trim) (hy : y.Trim) (hApart : x.Apart y) :
    (x.concatenated y).Trim where
  wellFormed := wellFormed_concatenated hy.start_ne_final hy.no_entry hx.wellFormed hy.wellFormed
    hApart
  start_ne_final := hApart.ne hx.wellFormed.start_mem hy.wellFormed.final_mem
  no_entry := no_entry_concatenated hx.wellFormed hy.wellFormed hApart hx.no_entry
  no_exit l t h := by
    rcases ((joins_concatenated hApart hy.wellFormed.start_mem).mp h).2 with
      (hEdge | hEdge) | ⟨hEq, -⟩
    · exact hApart _ (Graph.mem_of_joins hEdge) hy.wellFormed.final_mem
    · exact hy.no_exit l t hEdge
    · exact hApart.ne hx.wellFormed.final_mem hy.wellFormed.final_mem hEq.symm
  used a ha := by
    rcases SortedSet.mem_union.mp ha with ha | ha
    · obtain ⟨s, t, hEdge⟩ := hy.used a ha
      obtain ⟨p, hKept⟩ := exists_joins_concatenated hApart hy.wellFormed.start_mem hEdge fun _ =>
        hApart.ne hx.wellFormed.final_mem hy.wellFormed.start_mem
      exact ⟨p, t, hKept⟩
    · obtain ⟨s, t, hEdge⟩ := hx.used a ha
      exact ⟨s, t, joins_concatenated_left hApart hy.wellFormed.start_mem hEdge⟩
  on_path s hs := by
    obtain ⟨u, hThrough⟩ := hx.exists_path
    obtain ⟨z, hRest⟩ := hy.exists_path
    have hLeft := path_concatenated_left hy.wellFormed hApart hThrough
    have hRight := path_concatenated_bridge hx.wellFormed hy.wellFormed hApart hy.no_entry
      hy.start_ne_final.symm hRest
    obtain ⟨hNe, hMem | hMem⟩ := (mem_concatenated hx.wellFormed hy.wellFormed).mp hs
    · obtain ⟨v, w, before, after⟩ := hx.on_path s hMem
      exact ⟨v, w ++ z, path_concatenated_left hy.wellFormed hApart before,
        (path_concatenated_left hy.wellFormed hApart after).trans hRight⟩
    · obtain ⟨v, w, before, after⟩ := hy.on_path s hMem
      exact ⟨u ++ v, w, hLeft.trans (path_concatenated_bridge hx.wellFormed hy.wellFormed hApart
        hy.no_entry hNe before), path_concatenated_right hy.wellFormed hApart hy.no_entry hNe after⟩

theorem Trim.rename {f : State → State} (h : x.Trim)
    (hInj : ∀ s ∈ x.graph, ∀ t ∈ x.graph, f s = f t → s = t) : (x.rename f).Trim where
  wellFormed := wellFormed_rename h.wellFormed
  start_ne_final hEq := h.start_ne_final
    (hInj _ h.wellFormed.start_mem _ h.wellFormed.final_mem hEq)
  no_entry s l hEdge := by
    obtain ⟨p, q, hOld, -, hTo⟩ := joins_rename.mp hEdge
    have hStart := hInj _ h.wellFormed.start_mem q (h.wellFormed.target_mem p l q hOld) hTo
    exact h.no_entry p l (hStart ▸ hOld)
  no_exit l t hEdge := by
    obtain ⟨p, q, hOld, hFrom, -⟩ := joins_rename.mp hEdge
    have hFinal := hInj _ h.wellFormed.final_mem p (Graph.mem_of_joins hOld) hFrom
    exact h.no_exit l q (hFinal ▸ hOld)
  used a ha := by
    obtain ⟨s, t, hEdge⟩ := h.used a ha
    exact ⟨f s, f t, joins_rename.mpr ⟨s, t, hEdge, rfl, rfl⟩⟩
  on_path v hv := by
    have hMap : ∀ s l t, x.graph.Joins s l t → (x.rename f).graph.Joins (f s) l (f t) :=
      fun s l t hEdge => joins_rename.mpr ⟨s, t, hEdge, rfl, rfl⟩
    obtain ⟨s, hs, rfl⟩ := (mem_rename h.wellFormed).mp hv
    obtain ⟨v, w, before, after⟩ := h.on_path s hs
    exact ⟨v, w, before.map hMap, after.map hMap⟩

end FiniteAutomata.Fragment
