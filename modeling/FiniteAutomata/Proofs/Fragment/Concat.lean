import FiniteAutomata.Proofs.Fragment.Combine

/-! What concatenation does to the language of a fragment. The operands may be any
well-formed fragments, but concatenation drops the right start state. The result is well
formed exactly if that state can be missed: it is not final, and nothing leads into it. Then
the paths through the result are a path of the left operand and one of the right behind it. -/
namespace FiniteAutomata.Fragment

variable {σ : Type} [Symbol σ] {x y : Fragment σ}

/-- The concatenation of two fragments without a common state. -/
def concatenated (x y : Fragment σ) : Fragment σ :=
  { x.merged y with
    graph := ((x.merged y).graph.addArrows x.final ((x.merged y).graph.arrows y.start)).remove
      y.start
    final := y.final }

theorem concat_eq_ok (hSession : x.session = y.session) (hApart : x.Apart y) :
    x.concat y = .ok (x.concatenated y) :=
  Outcome.bind_of_ok _ (merge_eq_ok hSession hApart)

theorem concat_eq_ok_iff {z : Fragment σ} :
    x.concat y = .ok z ↔ x.session = y.session ∧ x.Apart y ∧ z = x.concatenated y := by
  constructor
  · intro h
    obtain ⟨both, hMerge, hRest⟩ := Outcome.bind_eq_ok_iff.mp h
    obtain ⟨hSession, hApart, rfl⟩ := of_merge_eq_ok hMerge
    exact ⟨hSession, hApart, (Except.ok.inj hRest).symm⟩
  · rintro ⟨hSession, hApart, rfl⟩
    exact concat_eq_ok hSession hApart

theorem joins_concatenated (hApart : x.Apart y) (hStart : y.start ∈ y.graph) {s t : State}
    {l : Label σ} :
    (x.concatenated y).graph.Joins s l t ↔ s ≠ y.start ∧
      ((x.graph.Joins s l t ∨ y.graph.Joins s l t) ∨ s = x.final ∧ y.graph.Joins y.start l t) := by
  simp only [concatenated, merged, Graph.joins_remove, Graph.joins_addArrows,
    Graph.joins_absorb hApart, Graph.arrows_absorb_right hStart]
  rfl

/-- The edges of the left operand stay. -/
theorem joins_concatenated_left (hApart : x.Apart y) (hStart : y.start ∈ y.graph) {s t : State}
    {l : Label σ} (hEdge : x.graph.Joins s l t) : (x.concatenated y).graph.Joins s l t :=
  (joins_concatenated hApart hStart).mpr
    ⟨hApart.ne (Graph.mem_of_joins hEdge) hStart, Or.inl (Or.inl hEdge)⟩

/-- An edge of the right operand stays, or it is copied to the left final state if it begins
at the dropped one. Either way an edge leads where it led. -/
theorem exists_joins_concatenated (hApart : x.Apart y) (hStart : y.start ∈ y.graph)
    {s t : State} {l : Label σ} (hEdge : y.graph.Joins s l t)
    (hFirst : s = y.start → x.final ≠ y.start) :
    ∃ p, (x.concatenated y).graph.Joins p l t := by
  by_cases hDropped : s = y.start
  · exact ⟨x.final, (joins_concatenated hApart hStart).mpr
      ⟨hFirst hDropped, Or.inr ⟨rfl, hDropped ▸ hEdge⟩⟩⟩
  · exact ⟨s, (joins_concatenated hApart hStart).mpr ⟨hDropped, Or.inl (Or.inr hEdge)⟩⟩

/-- Besides the vertices of the operands, apart from the right start state, there are the
ends of the edges that come in its place. -/
theorem mem_concatenated_iff (hStart : y.start ∈ y.graph) {s : State} :
    s ∈ (x.concatenated y).graph ↔ s ≠ y.start ∧ ((s ∈ x.graph ∨ s ∈ y.graph) ∨
      (∃ l t, y.graph.Joins y.start l t ∧ (s = x.final ∨ s = t))) := by
  simp only [concatenated, merged, Graph.mem_remove, Graph.mem_addArrows, Graph.mem_absorb,
    Graph.arrows_absorb_right hStart]
  refine and_congr_right fun _ => or_congr_right ?_
  constructor
  · rintro (⟨rfl, hEdges⟩ | ⟨a, ha, rfl⟩)
    · obtain ⟨a, ha⟩ := List.exists_mem_of_ne_nil _ hEdges
      exact ⟨a.weight, a.target, ha, Or.inl rfl⟩
    · exact ⟨a.weight, a.target, ha, Or.inr rfl⟩
  · rintro ⟨l, t, hEdge, rfl | rfl⟩
    · exact Or.inl ⟨rfl, List.ne_nil_of_mem hEdge⟩
    · exact Or.inr ⟨⟨s, l⟩, hEdge, rfl⟩

theorem mem_concatenated (wfx : x.WellFormed) (wfy : y.WellFormed) {s : State} :
    s ∈ (x.concatenated y).graph ↔ s ≠ y.start ∧ (s ∈ x.graph ∨ s ∈ y.graph) := by
  rw [mem_concatenated_iff wfy.start_mem]
  refine and_congr_right fun _ => or_iff_left_of_imp ?_
  rintro ⟨l, t, hEdge, rfl | rfl⟩
  · exact Or.inl wfx.final_mem
  · exact Or.inr (wfy.target_mem y.start l s hEdge)

theorem no_entry_concatenated (wfx : x.WellFormed) (wfy : y.WellFormed) (hApart : x.Apart y)
    (hEntry : ∀ s l, ¬ x.graph.Joins s l x.start) (s : State) (l : Label σ) :
    ¬ (x.concatenated y).graph.Joins s l x.start := by
  intro h
  rcases ((joins_concatenated hApart wfy.start_mem).mp h).2 with (hEdge | hEdge) | ⟨-, hEdge⟩
  · exact hEntry s l hEdge
  · exact hApart x.start wfx.start_mem (wfy.target_mem s l _ hEdge)
  · exact hApart x.start wfx.start_mem (wfy.target_mem y.start l _ hEdge)

/-- The paths of the left operand stay. -/
theorem path_concatenated_left (wfy : y.WellFormed) (hApart : x.Apart y) {s t : State}
    {word : List σ} (path : x.graph.Path s word t) : (x.concatenated y).graph.Path s word t :=
  path.mono fun _ _ _ hEdge => joins_concatenated_left hApart wfy.start_mem hEdge

/-- If nothing leads into the right start state, the paths of the right operand stay behind
it. -/
theorem path_concatenated_right (wfy : y.WellFormed) (hApart : x.Apart y)
    (hEntry : ∀ s l, ¬ y.graph.Joins s l y.start) {s t : State} (hs : s ≠ y.start)
    {word : List σ} (path : y.graph.Path s word t) : (x.concatenated y).graph.Path s word t := by
  have hStay : ∀ s l t, s ≠ y.start → y.graph.Joins s l t →
      (x.concatenated y).graph.Joins s l t ∧ t ≠ y.start := fun s l t hs hEdge =>
    ⟨(joins_concatenated hApart wfy.start_mem).mpr ⟨hs, Or.inl (Or.inr hEdge)⟩,
      fun hEq => hEntry s l (hEq ▸ hEdge)⟩
  exact (path.restrict hStay hs).1

/-- In place of the right start state the left final state begins the paths of the right
operand. -/
theorem path_concatenated_bridge (wfx : x.WellFormed) (wfy : y.WellFormed) (hApart : x.Apart y)
    (hEntry : ∀ s l, ¬ y.graph.Joins s l y.start) {t : State} (ht : t ≠ y.start)
    {word : List σ} (path : y.graph.Path y.start word t) :
    (x.concatenated y).graph.Path x.final word t := by
  obtain ⟨l, u, rest, rfl, edge, path⟩ := path.exists_first ht.symm
  have hNe : x.final ≠ y.start := hApart.ne wfx.final_mem wfy.start_mem
  have hBridge := (joins_concatenated hApart wfy.start_mem).mpr ⟨hNe, Or.inr ⟨rfl, edge⟩⟩
  have hu : u ≠ y.start := fun hEq => hEntry _ l (hEq ▸ edge)
  exact .step hBridge (path_concatenated_right wfy hApart hEntry hu path)

section Dropped

variable (hNe : y.start ≠ y.final) (hEntry : ∀ s l, ¬ y.graph.Joins s l y.start)
include hNe hEntry

/-- If nothing leads into the right start state, and it is not final, the state can
be dropped. -/
theorem wellFormed_concatenated (wfx : x.WellFormed) (wfy : y.WellFormed) (hApart : x.Apart y) :
    (x.concatenated y).WellFormed where
  start_mem := (mem_concatenated wfx wfy).mpr
    ⟨hApart.ne wfx.start_mem wfy.start_mem, Or.inl wfx.start_mem⟩
  final_mem := (mem_concatenated wfx wfy).mpr ⟨hNe.symm, Or.inr wfy.final_mem⟩
  target_mem s l t h := by
    have hRight : y.graph.Joins s l t ∨ y.graph.Joins y.start l t →
        t ≠ y.start ∧ (t ∈ x.graph ∨ t ∈ y.graph) := by
      intro hEither
      rcases hEither with hEdge | hEdge
      · exact ⟨fun hEq => hEntry s l (hEq ▸ hEdge), Or.inr (wfy.target_mem _ _ _ hEdge)⟩
      · exact ⟨fun hEq => hEntry y.start l (hEq ▸ hEdge), Or.inr (wfy.target_mem _ _ _ hEdge)⟩
    rw [mem_concatenated wfx wfy]
    rcases ((joins_concatenated hApart wfy.start_mem).mp h).2 with (hEdge | hEdge) | ⟨-, hEdge⟩
    · have ht := wfx.target_mem s l t hEdge
      exact ⟨hApart.ne ht wfy.start_mem, Or.inl ht⟩
    · exact hRight (Or.inl hEdge)
    · exact hRight (Or.inr hEdge)
  symbol_mem s a t h := by
    refine SortedSet.mem_union.mpr ?_
    rcases ((joins_concatenated hApart wfy.start_mem).mp h).2 with (hEdge | hEdge) | ⟨-, hEdge⟩
    · exact Or.inr (wfx.symbol_mem _ _ _ hEdge)
    · exact Or.inl (wfy.symbol_mem _ _ _ hEdge)
    · exact Or.inl (wfy.symbol_mem _ _ _ hEdge)

/-- The concatenation accepts the words of the left operand followed by words of
the right one. -/
theorem language_concatenated (wfx : x.WellFormed) (wfy : y.WellFormed) (hApart : x.Apart y) :
    (x.concatenated y).language = x.language * y.language := by
  have hJoins (s : State) (l : Label σ) (t : State) :
      (x.concatenated y).graph.Joins s l t ↔ _ := joins_concatenated hApart wfy.start_mem
  -- behind the dropped state the paths are those of the right operand
  have hRight : ∀ s l t, s ∈ y.graph ∧ s ≠ y.start → (x.concatenated y).graph.Joins s l t →
      y.graph.Joins s l t ∧ t ∈ y.graph ∧ t ≠ y.start := by
    intro s l t hBoth h
    obtain ⟨hs, -⟩ := hBoth
    rcases ((hJoins s l t).mp h).2 with (hEdge | hEdge) | ⟨rfl, -⟩
    · exact False.elim (hApart s (Graph.mem_of_joins hEdge) hs)
    · exact ⟨hEdge, wfy.target_mem s l t hEdge, fun hEq => hEntry s l (hEq ▸ hEdge)⟩
    · exact False.elim (hApart _ wfx.final_mem hs)
  ext word
  rw [Language.mem_mul]
  constructor
  · intro path
    have hLeave := path.leave (h := x.graph) (· ∈ x.graph) x.final
      (fun w => y.graph.Path y.start w y.final) (fun h => hApart _ h wfy.final_mem)
      (fun s l t hs h => ?_) wfx.start_mem
    · obtain ⟨v, w, rfl, hv, hw⟩ := hLeave
      exact ⟨v, hv, w, hw, rfl⟩
    · rcases ((hJoins s l t).mp h).2 with (hEdge | hEdge) | ⟨rfl, hEdge⟩
      · exact Or.inl ⟨hEdge, wfx.target_mem s l t hEdge⟩
      · exact False.elim (hApart s hs (Graph.mem_of_joins hEdge))
      · refine Or.inr ⟨rfl, fun word rest _ => .step hEdge ?_⟩
        exact (rest.restrict hRight
          ⟨wfy.target_mem _ l t hEdge, fun hEq => hEntry _ l (hEq ▸ hEdge)⟩).1
  · intro hSome
    obtain ⟨v, hv, w, hw, rfl⟩ := hSome
    exact (path_concatenated_left wfy hApart hv).trans
      (path_concatenated_bridge wfx wfy hApart hEntry hNe.symm hw)

end Dropped

/-- The right start state can be dropped only if nothing asks for it: an edge that leads to it
would be left without a target. -/
theorem wellFormed_concatenated_iff (wfx : x.WellFormed) (wfy : y.WellFormed)
    (hApart : x.Apart y) : (x.concatenated y).WellFormed ↔
      y.start ≠ y.final ∧ ∀ s l, ¬ y.graph.Joins s l y.start := by
  have hGone : y.start ∉ (x.concatenated y).graph := fun hMem =>
    ((mem_concatenated wfx wfy).mp hMem).1 rfl
  constructor
  · intro wf
    refine ⟨fun hEq => hGone (hEq ▸ wf.final_mem), fun s l hEdge => ?_⟩
    obtain ⟨p, hKept⟩ := exists_joins_concatenated hApart wfy.start_mem hEdge fun _ =>
      hApart.ne wfx.final_mem wfy.start_mem
    exact hGone (wf.target_mem p l y.start hKept)
  · rintro ⟨hNe, hEntry⟩
    exact wellFormed_concatenated hNe hEntry wfx wfy hApart

/-- Fragments of one session that share no state can be concatenated. The result passes its
check exactly if the right start state is not final and no edge leads to it. Whenever it
passes, the paths from its start to its final state spell a word of the left operand followed
by one of the right operand, whatever leads into or out of the ends of the left one. -/
theorem concat_validates_iff (hx : x.validate = .ok ()) (hy : y.validate = .ok ())
    (hSession : x.session = y.session) (hApart : x.Apart y) :
    ∃ z, x.concat y = .ok z ∧
      (z.validate = .ok () ↔ y.start ≠ y.final ∧ ∀ s l, ¬ y.graph.Joins s l y.start) ∧
      (z.validate = .ok () → ∀ word, z.graph.Path z.start word z.final ↔
        ∃ u v, word = u ++ v ∧ x.graph.Path x.start u x.final ∧
          y.graph.Path y.start v y.final) := by
  rw [validate_eq_ok_iff] at hx hy
  refine ⟨x.concatenated y, concat_eq_ok hSession hApart, ?_, fun hValid word => ?_⟩
  · rw [validate_eq_ok_iff, wellFormed_concatenated_iff hx hy hApart]
  · have wf := validate_eq_ok_iff.mp hValid
    obtain ⟨hNe, hEntry⟩ := (wellFormed_concatenated_iff hx hy hApart).mp wf
    rw [← mem_language, language_concatenated hNe hEntry hx hy hApart, Language.mem_mul]
    constructor
    · rintro ⟨u, hu, v, hv, rfl⟩
      exact ⟨u, v, rfl, hu, hv⟩
    · rintro ⟨u, v, rfl, hu, hv⟩
      exact ⟨u, hu, v, hv, rfl⟩

/-- A single state with a loop. -/
def ring : Fragment Char where
  session := 0
  graph := Graph.empty.addEdge 0 0 (.symbol 'a')
  start := 0
  final := 0
  alphabet := .ofList ['a']

/-- An edge to a final state with a loop. -/
def lasso : Fragment Char where
  session := 0
  graph := (Graph.empty.addEdge 1 2 (.symbol 'b')).addEdge 2 2 (.symbol 'c')
  start := 1
  final := 2
  alphabet := .ofList ['b', 'c']

/-- The ring may stand in front of the lasso, although its only state has a loop. The lasso
may not stand in front of the ring. -/
theorem concat_validates_iff_ring : ring.validate = .ok () ∧ lasso.validate = .ok () ∧
    (∃ z, ring.concat lasso = .ok z ∧ z.validate = .ok () ∧
      z.graph.Path z.start ['a', 'a', 'b', 'c'] z.final) ∧
    ∃ z, lasso.concat ring = .ok z ∧ z.validate ≠ .ok () := by
  have hRing : ring.validate = .ok () := by rfl
  have hLasso : lasso.validate = .ok () := by rfl
  have hApart : ∀ s ∈ ring.graph, s ∉ lasso.graph := by
    intro s hs
    have hZero : s = 0 := by simpa [ring, Graph.mem_addEdge, Graph.not_mem_empty] using hs
    rw [hZero]
    decide
  have hAhead : ∀ s l, ¬ lasso.graph.Joins s l 1 := by
    intro s l
    simp [lasso, Graph.joins_addEdge, Graph.not_joins_empty]
  obtain ⟨z, hConcat, hIff, hPaths⟩ := concat_validates_iff hRing hLasso rfl hApart
  obtain ⟨r, hOther, hIff', -⟩ :=
    concat_validates_iff hLasso hRing rfl fun s hs hShared => hApart s hShared hs
  have hValid := hIff.mpr ⟨by decide, hAhead⟩
  refine ⟨hRing, hLasso, ⟨z, hConcat, hValid, (hPaths hValid _).mpr ?_⟩, r, hOther, fun h => ?_⟩
  · have hLoop : ring.graph.Joins 0 (.symbol 'a') 0 := List.mem_cons_self
    have hEdge : lasso.graph.Joins 1 (.symbol 'b') 2 := List.mem_cons_self
    have hTurn : lasso.graph.Joins 2 (.symbol 'c') 2 := List.mem_cons_self
    exact ⟨['a', 'a'], ['b', 'c'], rfl, .read hLoop (.read hLoop (.nil 0)),
      .read hEdge (.read hTurn (.nil 2))⟩
  · exact (hIff'.mp h).1 rfl

end FiniteAutomata.Fragment
