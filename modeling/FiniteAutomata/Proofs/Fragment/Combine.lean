import FiniteAutomata.Fragment.Combine
import FiniteAutomata.Proofs.Fragment.Path
import FiniteAutomata.Proofs.Outcome

/-! What closure and union do to the language of a fragment. The operands may be any
well-formed fragments: their start states may be entered, their final states may
be left, and both may be the same state. -/
namespace FiniteAutomata.Fragment

open scoped Computability

variable {σ : Type} [Symbol σ]

section Label

/-- The fragment of a single edge. -/
theorem joins_ofEdge {session : Nat} {start final s t : State} {label l : Label σ} :
    (ofEdge session start final label).graph.Joins s l t ↔
      s = start ∧ l = label ∧ t = final := by
  refine Graph.joins_addEdge.trans (or_iff_right fun h => ?_)
  exact Graph.not_mem_empty s (Graph.mem_of_joins h)

theorem mem_ofEdge {session : Nat} {start final s : State} {label : Label σ} :
    s ∈ (ofEdge session start final label).graph ↔ s = start ∨ s = final := by
  refine Graph.mem_addEdge.trans (or_congr_right (or_iff_left (Graph.not_mem_empty s)))

theorem wellFormed_ofEdge (session : Nat) (start final : State) (label : Label σ) :
    (ofEdge session start final label).WellFormed where
  start_mem := mem_ofEdge.mpr (Or.inl rfl)
  final_mem := mem_ofEdge.mpr (Or.inr rfl)
  target_mem s l t h := mem_ofEdge.mpr (Or.inr (joins_ofEdge.mp h).2.2)
  symbol_mem s a t h := by
    obtain ⟨-, rfl, -⟩ := joins_ofEdge.mp h
    exact SortedSet.mem_ofList.mpr (List.mem_singleton.mpr rfl)

theorem language_ofEdge {session : Nat} {start final : State} (hNe : start ≠ final)
    (label : Label σ) : (ofEdge session start final label).language = {label.word} := by
  ext word
  constructor
  · intro hWord
    obtain ⟨l, t, rest, rfl, edge, path⟩ := (mem_language.mp hWord).exists_first hNe
    obtain ⟨-, rfl, rfl⟩ := joins_ofEdge.mp edge
    have hRest := path.eq_nil_of_no_edge fun l u h => hNe (joins_ofEdge.mp h).1.symm
    rw [hRest, List.append_nil]
    rfl
  · rintro rfl
    have hEdge : (ofEdge session start final label).graph.Joins start label final :=
      joins_ofEdge.mpr ⟨rfl, rfl, rfl⟩
    have path := Graph.Path.step hEdge (.nil final)
    rwa [List.append_nil] at path

end Label

section Closure

omit [Symbol σ] in
theorem append_mem_kstar {l : Language σ} {v w : List σ} (hv : v ∈ l) (hw : w ∈ l∗) :
    v ++ w ∈ l∗ := by
  have hLe : l * l∗ ≤ l∗ := mul_kstar_le_kstar
  exact hLe (Language.append_mem_mul hv hw)

variable {x : Fragment σ} {start final : State}

/-- A closure belongs to the session of its operand. -/
theorem session_closureBetween (x : Fragment σ) (start final : State) :
    (x.closureBetween start final).session = x.session := by
  simp only [closureBetween]

theorem joins_closureBetween {s t : State} {l : Label σ} :
    (x.closureBetween start final).graph.Joins s l t ↔
      x.graph.Joins s l t ∨ l = .epsilon ∧
        (s = start ∧ (t = x.start ∨ t = final) ∨ s = x.final ∧ (t = final ∨ t = x.start)) := by
  simp only [closureBetween, Graph.joins_addEdge]
  tauto

/-- Adding the edges makes vertices of the old start and final state, too. -/
theorem mem_closureBetween_iff {s : State} :
    s ∈ (x.closureBetween start final).graph ↔
      s ∈ x.graph ∨ s = start ∨ s = final ∨ s = x.start ∨ s = x.final := by
  simp only [closureBetween, Graph.mem_addEdge]
  tauto

theorem mem_closureBetween (wf : x.WellFormed) {s : State} :
    s ∈ (x.closureBetween start final).graph ↔ s ∈ x.graph ∨ s = start ∨ s = final := by
  have hOld : s = x.start ∨ s = x.final → s ∈ x.graph := by
    rintro (rfl | rfl)
    · exact wf.start_mem
    · exact wf.final_mem
  rw [mem_closureBetween_iff]
  tauto

theorem wellFormed_closureBetween (wf : x.WellFormed) :
    (x.closureBetween start final).WellFormed where
  start_mem := (mem_closureBetween wf).mpr (Or.inr (Or.inl rfl))
  final_mem := (mem_closureBetween wf).mpr (Or.inr (Or.inr rfl))
  target_mem s l t h := by
    rw [mem_closureBetween wf]
    rcases joins_closureBetween.mp h with hEdge | ⟨-, ⟨-, rfl | rfl⟩ | ⟨-, rfl | rfl⟩⟩
    · exact Or.inl (wf.target_mem s l t hEdge)
    · exact Or.inl wf.start_mem
    · exact Or.inr (Or.inr rfl)
    · exact Or.inr (Or.inr rfl)
    · exact Or.inl wf.start_mem
  symbol_mem s a t h := by
    rcases joins_closureBetween.mp h with hEdge | ⟨hLabel, -⟩
    · exact wf.symbol_mem s a t hEdge
    · cases hLabel

/-- Nothing leaves the new final state. -/
theorem no_edge_closureBetween (wf : x.WellFormed) (hFinal : final ∉ x.graph)
    (hNe : start ≠ final) (l : Label σ) (t : State) :
    ¬ (x.closureBetween start final).graph.Joins final l t := by
  intro h
  rcases joins_closureBetween.mp h with hEdge | ⟨-, ⟨hEq, -⟩ | ⟨hEq, -⟩⟩
  · exact hFinal (Graph.mem_of_joins hEdge)
  · exact hNe hEq.symm
  · exact hFinal (hEq ▸ wf.final_mem)

/-- Nothing leads into the new start state. -/
theorem no_entry_closureBetween (wf : x.WellFormed) (hStart : start ∉ x.graph)
    (hNe : start ≠ final) (s : State) (l : Label σ) :
    ¬ (x.closureBetween start final).graph.Joins s l start := by
  intro h
  rcases joins_closureBetween.mp h with hEdge | ⟨-, ⟨-, rfl | rfl⟩ | ⟨-, rfl | rfl⟩⟩
  · exact hStart (wf.target_mem s l start hEdge)
  · exact hStart wf.start_mem
  · exact hNe rfl
  · exact hNe rfl
  · exact hStart wf.start_mem

/-- A path from inside the operand to the new final state goes on to the old final
state and then spells words of the operand. -/
theorem leave_closureBetween (wf : x.WellFormed) (hStart : start ∉ x.graph)
    (hFinal : final ∉ x.graph) (hNe : start ≠ final) {s : State} (hMem : s ∈ x.graph)
    {word : List σ} (path : (x.closureBetween start final).graph.Path s word final) :
    ∃ v w, word = v ++ w ∧ x.graph.Path s v x.final ∧ w ∈ x.language∗ := by
  refine path.leave (· ∈ x.graph) x.final (· ∈ x.language∗) hFinal (fun s l t hs h => ?_) hMem
  rcases joins_closureBetween.mp h with hEdge | ⟨rfl, ⟨rfl, -⟩ | ⟨rfl, hTarget⟩⟩
  · exact Or.inl ⟨hEdge, wf.target_mem s l t hEdge⟩
  · exact False.elim (hStart hs)
  · refine Or.inr ⟨rfl, fun word rest hAgain => ?_⟩
    change word ∈ x.language∗
    rcases hTarget with rfl | rfl
    · rw [rest.eq_nil_of_no_edge (no_edge_closureBetween wf hFinal hNe)]
      exact Language.nil_mem_kstar _
    · obtain ⟨v, w, rfl, hv, hw⟩ := hAgain wf.start_mem
      exact append_mem_kstar (mem_language.mpr hv) hw

theorem kstar_le_after_final (x : Fragment σ) (start final : State) :
    x.language∗ ≤ {word | (x.closureBetween start final).graph.Path x.final word final} := by
  refine kstar_le_of_mul_le_right ?_ ?_
  · intro word hWord
    rw [(Language.mem_one word).mp hWord]
    exact .silent (joins_closureBetween.mpr (Or.inr ⟨rfl, Or.inr ⟨rfl, Or.inl rfl⟩⟩)) (.nil final)
  · intro word hWord
    obtain ⟨v, hv, w, hw, rfl⟩ := Language.mem_mul.mp hWord
    refine .silent (joins_closureBetween.mpr (Or.inr ⟨rfl, Or.inr ⟨rfl, Or.inr rfl⟩⟩)) ?_
    have hOnce : (x.closureBetween start final).graph.Path x.start v x.final :=
      Graph.Path.mono hv fun s l t h => joins_closureBetween.mpr (Or.inl h)
    exact hOnce.trans hw

/-- The closure between two new states accepts any number of words of the operand
one after another. -/
theorem language_closureBetween (wf : x.WellFormed) (hStart : start ∉ x.graph)
    (hFinal : final ∉ x.graph) (hNe : start ≠ final) :
    (x.closureBetween start final).language = x.language∗ := by
  have hEnd : ∀ l t, ¬ (x.closureBetween start final).graph.Joins final l t :=
    no_edge_closureBetween wf hFinal hNe
  ext word
  constructor
  · intro hWord
    obtain ⟨l, t, rest, rfl, edge, path⟩ := (mem_language.mp hWord).exists_first hNe
    rcases joins_closureBetween.mp edge with hOld | ⟨rfl, ⟨-, rfl | rfl⟩ | ⟨hEq, -⟩⟩
    · exact False.elim (hStart (Graph.mem_of_joins hOld))
    · obtain ⟨v, w, rfl, hv, hw⟩ := leave_closureBetween wf hStart hFinal hNe wf.start_mem path
      rw [Label.word_epsilon, List.nil_append]
      exact append_mem_kstar (mem_language.mpr hv) hw
    · rw [path.eq_nil_of_no_edge hEnd, List.append_nil, Label.word_epsilon]
      exact Language.nil_mem_kstar x.language
    · have hStartFinal : start = x.final := hEq
      exact False.elim (hStart (hStartFinal ▸ wf.final_mem))
  · intro h
    rw [← one_add_mul_kstar, Language.mem_add] at h
    rcases h with hOne | hMul
    · rw [(Language.mem_one word).mp hOne]
      exact .silent (joins_closureBetween.mpr (Or.inr ⟨rfl, Or.inl ⟨rfl, Or.inr rfl⟩⟩))
        (.nil final)
    · obtain ⟨v, hv, w, hw, rfl⟩ := Language.mem_mul.mp hMul
      refine .silent (joins_closureBetween.mpr (Or.inr ⟨rfl, Or.inl ⟨rfl, Or.inl rfl⟩⟩)) ?_
      exact Graph.Path.trans
        (Graph.Path.mono hv fun s l t h => joins_closureBetween.mpr (Or.inl h))
        (kstar_le_after_final x start final hw)

end Closure

/-- Two fragments in one graph, with the start and final state of the first. -/
def merged (x y : Fragment σ) : Fragment σ :=
  { x with
    graph := x.graph.absorb y.graph
    alphabet := x.alphabet.union y.alphabet }

/-- Two fragments have no state in common. -/
def Apart (x y : Fragment σ) : Prop := ∀ s ∈ x.graph, s ∉ y.graph

variable {x y : Fragment σ}

theorem Apart.ne (hApart : x.Apart y) {s t : State} (hs : s ∈ x.graph) (ht : t ∈ y.graph) :
    s ≠ t :=
  fun hEq => hApart s hs (hEq ▸ ht)

theorem merge_eq_ok (hSession : x.session = y.session) (hApart : x.Apart y) :
    x.merge y = .ok (x.merged y) := by
  have hFind : (y.graph.vertices.find? fun s => decide (s ∈ x.graph)) = none := by
    rw [List.find?_eq_none]
    intro s hs hShared
    exact hApart s (of_decide_eq_true hShared) (Graph.mem_vertices.mp hs)
  rw [merge, if_neg (not_not.mpr hSession), hFind]
  rfl

/-- Merging succeeds only with fragments of one session that share no state. -/
theorem of_merge_eq_ok {z : Fragment σ} (h : x.merge y = .ok z) :
    x.session = y.session ∧ x.Apart y ∧ z = x.merged y := by
  unfold merge at h
  split at h
  next => cases h
  next hSession =>
    split at h
    next => cases h
    next hNone =>
      refine ⟨not_not.mp hSession, fun s hs hShared => ?_, (Except.ok.inj h).symm⟩
      have hFound := List.find?_eq_none.mp hNone s (Graph.mem_vertices.mpr hShared)
      exact hFound (decide_eq_true hs)

section Union

variable {start final : State}

/-- A union belongs to the session of its left operand. -/
theorem session_unionBetween (x y : Fragment σ) (start final : State) :
    ((x.merged y).unionBetween y start final).session = x.session := by
  simp only [unionBetween, merged]

theorem joins_unionBetween (hApart : x.Apart y) {s t : State} {l : Label σ} :
    ((x.merged y).unionBetween y start final).graph.Joins s l t ↔
      (x.graph.Joins s l t ∨ y.graph.Joins s l t) ∨ l = .epsilon ∧
        (s = start ∧ (t = x.start ∨ t = y.start) ∨ (s = x.final ∨ s = y.final) ∧ t = final) := by
  simp only [unionBetween, merged, Graph.joins_addEdge, Graph.joins_absorb hApart]
  tauto

/-- Adding the edges makes vertices of the old start and final states, too. -/
theorem mem_unionBetween_iff {s : State} :
    s ∈ ((x.merged y).unionBetween y start final).graph ↔
      (s ∈ x.graph ∨ s ∈ y.graph) ∨ (s = start ∨ s = final) ∨
        (s = x.start ∨ s = x.final) ∨ s = y.start ∨ s = y.final := by
  simp only [unionBetween, merged, Graph.mem_addEdge, Graph.mem_absorb]
  tauto

theorem mem_unionBetween (wfx : x.WellFormed) (wfy : y.WellFormed) {s : State} :
    s ∈ ((x.merged y).unionBetween y start final).graph ↔
      (s ∈ x.graph ∨ s ∈ y.graph) ∨ s = start ∨ s = final := by
  have hLeft : s = x.start ∨ s = x.final → s ∈ x.graph := by
    rintro (rfl | rfl)
    · exact wfx.start_mem
    · exact wfx.final_mem
  have hRight : s = y.start ∨ s = y.final → s ∈ y.graph := by
    rintro (rfl | rfl)
    · exact wfy.start_mem
    · exact wfy.final_mem
  rw [mem_unionBetween_iff]
  tauto

theorem wellFormed_unionBetween (wfx : x.WellFormed) (wfy : y.WellFormed) (hApart : x.Apart y) :
    ((x.merged y).unionBetween y start final).WellFormed where
  start_mem := (mem_unionBetween wfx wfy).mpr (Or.inr (Or.inl rfl))
  final_mem := (mem_unionBetween wfx wfy).mpr (Or.inr (Or.inr rfl))
  target_mem s l t h := by
    rw [mem_unionBetween wfx wfy]
    rcases (joins_unionBetween hApart).mp h with
      (hEdge | hEdge) | ⟨-, ⟨-, rfl | rfl⟩ | ⟨-, rfl⟩⟩
    · exact Or.inl (Or.inl (wfx.target_mem s l t hEdge))
    · exact Or.inl (Or.inr (wfy.target_mem s l t hEdge))
    · exact Or.inl (Or.inl wfx.start_mem)
    · exact Or.inl (Or.inr wfy.start_mem)
    · exact Or.inr (Or.inr rfl)
  symbol_mem s a t h := by
    refine SortedSet.mem_union.mpr ?_
    rcases (joins_unionBetween hApart).mp h with (hEdge | hEdge) | ⟨hLabel, -⟩
    · exact Or.inr (wfx.symbol_mem s a t hEdge)
    · exact Or.inl (wfy.symbol_mem s a t hEdge)
    · cases hLabel

theorem no_entry_unionBetween (wfx : x.WellFormed) (wfy : y.WellFormed) (hApart : x.Apart y)
    (hStart : start ∉ x.graph ∧ start ∉ y.graph) (hNe : start ≠ final) (s : State)
    (l : Label σ) : ¬ ((x.merged y).unionBetween y start final).graph.Joins s l start := by
  intro h
  rcases (joins_unionBetween hApart).mp h with (hEdge | hEdge) | ⟨-, ⟨-, rfl | rfl⟩ | ⟨-, rfl⟩⟩
  · exact hStart.1 (wfx.target_mem s l start hEdge)
  · exact hStart.2 (wfy.target_mem s l start hEdge)
  · exact hStart.1 wfx.start_mem
  · exact hStart.2 wfy.start_mem
  · exact hNe rfl

/-- Nothing leaves the new final state. -/
theorem no_edge_unionBetween (wfx : x.WellFormed) (wfy : y.WellFormed) (hApart : x.Apart y)
    (hFinal : final ∉ x.graph ∧ final ∉ y.graph) (hNe : start ≠ final) (l : Label σ) (t : State) :
    ¬ ((x.merged y).unionBetween y start final).graph.Joins final l t := by
  intro h
  rcases (joins_unionBetween hApart).mp h with (hEdge | hEdge) | ⟨-, ⟨hEq, -⟩ | ⟨hEq | hEq, -⟩⟩
  · exact hFinal.1 (Graph.mem_of_joins hEdge)
  · exact hFinal.2 (Graph.mem_of_joins hEdge)
  · exact hNe hEq.symm
  · exact hFinal.1 (hEq ▸ wfx.final_mem)
  · exact hFinal.2 (hEq ▸ wfy.final_mem)

/-- In a graph that contains a fragment, and where the fragment can only be left
from its final state to a dead end, the paths from its start to the dead end spell
its words. -/
theorem path_iff_of_exit {g : Graph State (Label σ)} (wf : x.WellFormed)
    (hFinal : final ∉ x.graph) (hEnd : ∀ l t, ¬ g.Joins final l t)
    (hEdges : ∀ s l t, s ∈ x.graph →
      (g.Joins s l t ↔ x.graph.Joins s l t ∨ s = x.final ∧ l = .epsilon ∧ t = final))
    (word : List σ) : g.Path x.start word final ↔ word ∈ x.language := by
  constructor
  · intro path
    have hLeave := path.leave (h := x.graph) (· ∈ x.graph) x.final (· = []) hFinal
      (fun s l t hs h => ?_) wf.start_mem
    · obtain ⟨v, w, rfl, hv, rfl⟩ := hLeave
      rwa [List.append_nil]
    · rcases (hEdges s l t hs).mp h with hEdge | ⟨rfl, rfl, rfl⟩
      · exact Or.inl ⟨hEdge, wf.target_mem s l t hEdge⟩
      · exact Or.inr ⟨rfl, fun word rest _ => rest.eq_nil_of_no_edge hEnd⟩
  · intro h
    have hInner := Graph.Path.mono h fun s l t hEdge =>
      (hEdges s l t (Graph.mem_of_joins hEdge)).mpr (Or.inl hEdge)
    have hExit := (hEdges x.final .epsilon final wf.final_mem).mpr (Or.inr ⟨rfl, rfl, rfl⟩)
    have path := hInner.trans (.silent hExit (.nil final))
    rwa [List.append_nil] at path

/-- The union between two new states accepts the words of either operand. -/
theorem language_unionBetween (wfx : x.WellFormed) (wfy : y.WellFormed) (hApart : x.Apart y)
    (hStart : start ∉ x.graph ∧ start ∉ y.graph) (hFinal : final ∉ x.graph ∧ final ∉ y.graph)
    (hNe : start ≠ final) :
    ((x.merged y).unionBetween y start final).language = x.language + y.language := by
  have hJoins (s : State) (l : Label σ) (t : State) :
      ((x.merged y).unionBetween y start final).graph.Joins s l t ↔ _ := joins_unionBetween hApart
  have hEnd : ∀ l t, ¬ ((x.merged y).unionBetween y start final).graph.Joins final l t :=
    no_edge_unionBetween wfx wfy hApart hFinal hNe
  -- seen from a state of one operand, only the edges of that operand and its exit remain
  have hLeft := path_iff_of_exit wfx hFinal.1 hEnd fun s l t hs => by
      have hNoEdge : ¬ y.graph.Joins s l t := fun h => hApart s hs (Graph.mem_of_joins h)
      have hNoStart : s ≠ start := fun h => hStart.1 (h ▸ hs)
      have hNoFinal : s ≠ y.final := hApart.ne hs wfy.final_mem
      rw [hJoins]
      simp [hNoEdge, hNoStart, hNoFinal, and_left_comm]
  have hRight := path_iff_of_exit wfy hFinal.2 hEnd fun s l t hs => by
      have hNoEdge : ¬ x.graph.Joins s l t := fun h => hApart s (Graph.mem_of_joins h) hs
      have hNoStart : s ≠ start := fun h => hStart.2 (h ▸ hs)
      have hNoFinal : s ≠ x.final := (hApart.ne wfx.final_mem hs).symm
      rw [hJoins]
      simp [hNoEdge, hNoStart, hNoFinal, and_left_comm]
  ext word
  rw [Language.mem_add, ← hLeft, ← hRight]
  constructor
  · intro hWord
    obtain ⟨l, t, rest, rfl, edge, path⟩ := (mem_language.mp hWord).exists_first hNe
    rcases (hJoins start l t).mp edge with
      (hOld | hOld) | ⟨rfl, ⟨-, rfl | rfl⟩ | ⟨rfl | rfl, -⟩⟩
    · exact False.elim (hStart.1 (Graph.mem_of_joins hOld))
    · exact False.elim (hStart.2 (Graph.mem_of_joins hOld))
    · exact Or.inl path
    · exact Or.inr path
    · exact False.elim (hStart.1 wfx.final_mem)
    · exact False.elim (hStart.2 wfy.final_mem)
  · intro hEither
    rcases hEither with path | path
    · exact .silent ((hJoins ..).mpr (Or.inr ⟨rfl, Or.inl ⟨rfl, Or.inl rfl⟩⟩)) path
    · exact .silent ((hJoins ..).mpr (Or.inr ⟨rfl, Or.inl ⟨rfl, Or.inr rfl⟩⟩)) path

end Union

end FiniteAutomata.Fragment
