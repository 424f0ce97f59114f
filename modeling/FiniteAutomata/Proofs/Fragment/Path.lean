import FiniteAutomata.Fragment.Basic
import FiniteAutomata.Proofs.Graph
import Mathlib.Computability.Language
import Mathlib.Order.CompletePartialOrder

/-! Paths through a fragment and the words that they spell. The language of a
fragment consists of the words on the paths from its start to its final state.
A fragment passes `validate` exactly when it is well formed. -/
namespace FiniteAutomata

variable {σ : Type}

/-- The word that a label spells: its symbol, or nothing. -/
def Label.word (l : Label σ) : List σ := l.symbol?.toList

@[simp]
theorem Label.word_epsilon : (epsilon : Label σ).word = [] := rfl

/-- A path that spells the given word. Edges with the empty label spell nothing. -/
inductive Graph.Path (g : Graph State (Label σ)) : State → List σ → State → Prop where
  | nil (s : State) : Path g s [] s
  | step {s t u : State} {l : Label σ} {word : List σ}
      (first : g.Joins s l t) (rest : Path g t word u) : Path g s (l.word ++ word) u

namespace Graph.Path

variable {g h : Graph State (Label σ)}

theorem silent {s t u : State} {word : List σ} (first : g.Joins s .epsilon t)
    (rest : Path g t word u) : Path g s word u :=
  step first rest

theorem read {s t u : State} {a : σ} {word : List σ} (first : g.Joins s (.symbol a) t)
    (rest : Path g t word u) : Path g s (a :: word) u :=
  step first rest

theorem trans {s t u : State} {first second : List σ} (left : Path g s first t)
    (right : Path g t second u) : Path g s (first ++ second) u := by
  induction left with
  | nil => exact right
  | step edge _ ih =>
      rw [List.append_assoc]
      exact step edge (ih right)

/-- A renaming that keeps the edges keeps the paths. -/
theorem map {f : State → State} {s t : State} {word : List σ} (path : Path g s word t)
    (hEdges : ∀ s l t, g.Joins s l t → h.Joins (f s) l (f t)) : Path h (f s) word (f t) := by
  induction path with
  | nil => exact nil _
  | step edge _ ih => exact step (hEdges _ _ _ edge) ih

/-- A path survives in every graph that has its edges. -/
theorem mono {s t : State} {word : List σ} (path : Path g s word t)
    (hEdges : ∀ s l t, g.Joins s l t → h.Joins s l t) : Path h s word t :=
  path.map hEdges

/-- A path from a set of states that no edge leaves keeps to the edges inside. -/
theorem restrict {inside : State → Prop} {s t : State} {word : List σ} (path : Path g s word t)
    (hEdges : ∀ s l t, inside s → g.Joins s l t → h.Joins s l t ∧ inside t) (hStart : inside s) :
    Path h s word t ∧ inside t := by
  induction path with
  | nil => exact ⟨nil _, hStart⟩
  | step edge _ ih =>
      obtain ⟨hEdge, hNext⟩ := hEdges _ _ _ hStart edge
      obtain ⟨rest, hEnd⟩ := ih hNext
      exact ⟨step hEdge rest, hEnd⟩

/-- Nothing but the empty path leaves a state without edges. -/
theorem eq_nil_of_no_edge {s t : State} {word : List σ} (path : Path g s word t)
    (hNone : ∀ l u, ¬ g.Joins s l u) : word = [] := by
  cases path with
  | nil => rfl
  | step edge _ => exact False.elim (hNone _ _ edge)

/-- A path between different states begins with an edge. -/
theorem exists_first {s u : State} {word : List σ} (path : Path g s word u) (hNe : s ≠ u) :
    ∃ l t rest, word = l.word ++ rest ∧ g.Joins s l t ∧ Path g t rest u := by
  cases path with
  | nil => exact False.elim (hNe rfl)
  | step edge rest => exact ⟨_, _, _, rfl, edge, rest⟩

/-- A path out of a part `h` of the graph follows edges of the part up to its
`exit`. What it spells from there on has any property `Rest` that every step out
of the exit establishes; a step that leads back into the part may use the
property of what is spelled when the part is left again. -/
theorem leave (inside : State → Prop) (exit : State) (Rest : List σ → Prop) {s last : State}
    {word : List σ} (path : Path g s word last) (hLast : ¬ inside last)
    (hEdges : ∀ s l t, inside s → g.Joins s l t → (h.Joins s l t ∧ inside t) ∨
      s = exit ∧ ∀ word, Path g t word last →
        (inside t → ∃ v w, word = v ++ w ∧ Path h t v exit ∧ Rest w) → Rest (l.word ++ word))
    (hStart : inside s) : ∃ v w, word = v ++ w ∧ Path h s v exit ∧ Rest w := by
  induction path with
  | nil => exact False.elim (hLast hStart)
  | @step s t u l word edge path ih =>
      rcases hEdges s l t hStart edge with ⟨hEdge, hNext⟩ | ⟨rfl, hRest⟩
      · obtain ⟨v, w, rfl, hInner, hOuter⟩ := ih hLast hEdges hNext
        exact ⟨l.word ++ v, w, (List.append_assoc ..).symm, step hEdge hInner, hOuter⟩
      · exact ⟨[], l.word ++ word, rfl, nil s, hRest word path (ih hLast hEdges)⟩

/-- A path that spells nothing is a sequence of edges with the empty label. -/
theorem nil_iff {s t : State} :
    Path g s [] t ↔ Relation.ReflTransGen (fun a b => g.Joins a .epsilon b) s t := by
  constructor
  · intro path
    generalize hWord : ([] : List σ) = word at path
    induction path with
    | nil => exact .refl
    | @step s t u l word edge _ ih =>
        obtain ⟨hLabel, hRest⟩ := List.append_eq_nil_iff.mp hWord.symm
        cases l with
        | epsilon => exact .head edge (ih hRest.symm)
        | symbol a => cases hLabel
  · intro steps
    induction steps using Relation.ReflTransGen.head_induction_on with
    | refl => exact nil t
    | head edge _ ih => exact silent edge ih

/-- A path that spells a longer word reads the last symbol on one of its edges. -/
theorem append_singleton_iff {s u : State} {word : List σ} {a : σ} :
    Path g s (word ++ [a]) u ↔
      ∃ p q, Path g s word p ∧ g.Joins p (.symbol a) q ∧ Path g q [] u := by
  constructor
  · intro path
    generalize hWord : word ++ [a] = whole at path
    induction path generalizing word with
    | nil => cases (List.append_eq_nil_iff.mp hWord).2
    | @step s t u l rest edge path ih =>
        cases l with
        | epsilon =>
            obtain ⟨p, q, hBefore, hEdge, hAfter⟩ := ih hWord
            exact ⟨p, q, silent edge hBefore, hEdge, hAfter⟩
        | symbol b =>
            cases word with
            | nil =>
                obtain ⟨rfl, rfl⟩ := List.cons.inj hWord
                exact ⟨s, t, nil s, edge, path⟩
            | cons c word =>
                obtain ⟨rfl, hRest⟩ := List.cons.inj hWord
                obtain ⟨p, q, hBefore, hEdge, hAfter⟩ := ih hRest
                exact ⟨p, q, read edge hBefore, hEdge, hAfter⟩
  · intro h
    obtain ⟨p, q, hBefore, hEdge, hAfter⟩ := h
    exact hBefore.trans (read hEdge hAfter)

/-- A path that spells a word reads its first symbol on one of its edges. -/
theorem cons_iff {s u : State} {a : σ} {word : List σ} :
    Path g s (a :: word) u ↔
      ∃ p q, Path g s [] p ∧ g.Joins p (.symbol a) q ∧ Path g q word u := by
  constructor
  · intro path
    generalize hWord : a :: word = whole at path
    induction path with
    | nil => cases hWord
    | @step s t u l rest edge path ih =>
        cases l with
        | epsilon =>
            obtain ⟨p, q, hBefore, hEdge, hAfter⟩ := ih hWord
            exact ⟨p, q, silent edge hBefore, hEdge, hAfter⟩
        | symbol b =>
            obtain ⟨rfl, rfl⟩ := List.cons.inj hWord
            exact ⟨s, t, nil s, edge, path⟩
  · intro h
    obtain ⟨p, q, hBefore, hEdge, hAfter⟩ := h
    exact hBefore.trans (read hEdge hAfter)

end Graph.Path

namespace Fragment

variable [Symbol σ]

/-- The words that the paths from the start to the final state spell. -/
def language (x : Fragment σ) : Language σ := {word | x.graph.Path x.start word x.final}

theorem mem_language {x : Fragment σ} {word : List σ} :
    word ∈ x.language ↔ x.graph.Path x.start word x.final := Iff.rfl

/-- A fragment whose start and final state are vertices, whose edges lead to
vertices, and whose symbols are declared. -/
structure WellFormed (x : Fragment σ) : Prop where
  start_mem : x.start ∈ x.graph
  final_mem : x.final ∈ x.graph
  target_mem : ∀ s l t, x.graph.Joins s l t → t ∈ x.graph
  symbol_mem : ∀ s a t, x.graph.Joins s (.symbol a) t → a ∈ x.alphabet

theorem edgeFault?_eq_none_iff {x : Fragment σ} {e : Edge State (Label σ)} :
    x.edgeFault? e = none ↔
      e.target ∈ x.graph ∧ ∀ a, e.weight = .symbol a → a ∈ x.alphabet := by
  obtain ⟨s, t, l⟩ := e
  unfold edgeFault?
  by_cases hTarget : t ∈ x.graph
  · cases l with
    | epsilon => simp [hTarget]
    | symbol a => by_cases hSymbol : a ∈ x.alphabet <;> simp [hTarget, hSymbol]
  · simp [hTarget]

/-- The check of a fragment succeeds exactly on the well-formed ones. -/
theorem validate_eq_ok_iff {x : Fragment σ} : x.validate = .ok () ↔ x.WellFormed := by
  have hFault : x.validate = .ok () ↔ x.fault? = none := by
    unfold validate
    cases x.fault? <;> simp
  rw [hFault]
  unfold fault?
  by_cases hStart : x.start ∈ x.graph
  · by_cases hFinal : x.final ∈ x.graph
    · simp only [hStart, hFinal, not_true_eq_false, if_false, List.findSome?_eq_none_iff,
        edgeFault?_eq_none_iff, Graph.mem_edges_iff]
      constructor
      · intro h
        exact ⟨hStart, hFinal, fun s l t hEdge => (h ⟨s, t, l⟩ hEdge).1,
          fun s a t hEdge => (h ⟨s, t, .symbol a⟩ hEdge).2 a rfl⟩
      · intro h e hEdge
        obtain ⟨s, t, l⟩ := e
        refine ⟨h.target_mem s l t hEdge, ?_⟩
        rintro a rfl
        exact h.symbol_mem s a t hEdge
    · simp only [hStart, hFinal, not_true_eq_false, not_false_eq_true, if_false, if_true,
        reduceCtorEq, false_iff]
      exact fun h => hFinal h.final_mem
  · simp only [hStart, not_false_eq_true, if_true, reduceCtorEq, false_iff]
    exact fun h => hStart h.start_mem

theorem WellFormed.mem_of_path {x : Fragment σ} (h : x.WellFormed) {s t : State}
    {word : List σ} (path : x.graph.Path s word t) (hStart : s ∈ x.graph) : t ∈ x.graph :=
  (path.restrict (fun s l t _ hEdge => ⟨hEdge, h.target_mem s l t hEdge⟩) hStart).2

end Fragment

end FiniteAutomata
