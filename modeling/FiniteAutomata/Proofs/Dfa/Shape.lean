import FiniteAutomata.Proofs.Dfa.Subset
import Mathlib.Data.Set.Function

/-! The subset construction sees only the shape of what can be reached. Fragments whose
reachable states correspond have the same automaton, down to the numbers of its states;
it depends neither on the numbers of the vertices nor on the order and the repetition of
edges, on vertices out of reach, or on symbols that no edge reads. -/
namespace FiniteAutomata

namespace SortedSet

variable {α : Type} [Ord α]

/-- Every element of one set has a partner in the other. -/
def Covered (R : α → α → Prop) (s t : SortedSet α) : Prop := ∀ a ∈ s, ∃ b ∈ t, R a b

/-- Every element of either set has a partner in the other. -/
def Related (R : α → α → Prop) (s t : SortedSet α) : Prop :=
  s.Covered R t ∧ t.Covered (flip R) s

theorem Related.symm {R : α → α → Prop} {s t : SortedSet α} (h : s.Related R t) :
    t.Related (flip R) s :=
  ⟨h.2, h.1⟩

variable [Std.TransOrd α]

theorem Related.ne_empty {R : α → α → Prop} {s t : SortedSet α} (h : s.Related R t)
    (hs : s ≠ ∅) : t ≠ ∅ := by
  rintro rfl
  refine hs (eq_empty_iff.mpr fun a ha => ?_)
  obtain ⟨b, hb, -⟩ := h.1 a ha
  exact not_mem_empty hb

/-- If no element has two partners, a set is related to one set only. -/
theorem Related.eq_of_rightUnique {R : α → α → Prop} {s t u : SortedSet α}
    (hR : Relator.RightUnique R) (ht : s.Related R t) (hu : s.Related R u) : t = u := by
  refine SortedSet.ext fun b => ⟨fun hb => ?_, fun hb => ?_⟩
  · obtain ⟨a, ha, hPair⟩ := ht.2 b hb
    obtain ⟨c, hc, hOther⟩ := hu.1 a ha
    exact hR hOther hPair ▸ hc
  · obtain ⟨a, ha, hPair⟩ := hu.2 b hb
    obtain ⟨c, hc, hOther⟩ := ht.1 a ha
    exact hR hOther hPair ▸ hc

/-- What a function makes of the elements of a set. -/
def image (f : α → α) (s : SortedSet α) : SortedSet α := ofList (s.toList.map f)

theorem mem_image [Std.LawfulEqOrd α] {f : α → α} {s : SortedSet α} {b : α} :
    b ∈ s.image f ↔ ∃ a ∈ s, f a = b := by
  rw [image, mem_ofList, List.mem_map]
  rfl

end SortedSet

variable {σ : Type} [Symbol σ]

namespace Fragment

/-- Some path leads from the start to the state. -/
def Reachable (x : Fragment σ) (s : State) : Prop := ∃ word, x.graph.Path x.start word s

theorem Reachable.step {x : Fragment σ} {p q : State} {l : Label σ} (h : x.Reachable p)
    (hEdge : x.graph.Joins p l q) : x.Reachable q := by
  obtain ⟨word, path⟩ := h
  exact ⟨_, path.trans (.step hEdge (.nil q))⟩

/-- What can be reached stays in a set that holds the start and that no edge leaves. -/
theorem Reachable.inside {x : Fragment σ} {s : State} (h : x.Reachable s) (inside : State → Prop)
    (hEdges : ∀ p l q, inside p → x.graph.Joins p l q → inside q) (hStart : inside x.start) :
    inside s := by
  obtain ⟨word, path⟩ := h
  exact (path.restrict (fun p l q hp hEdge => ⟨hEdge, hEdges p l q hp hEdge⟩) hStart).2

/-- States of two fragments put in pairs. The starts are a pair, an edge from either state
of a pair has one with the same label from the other to a pair, the final states belong
together, and no state is in two pairs. -/
structure Alike (x y : Fragment σ) (R : State → State → Prop) : Prop where
  start : R x.start y.start
  forth : ∀ p q l p', R p q → x.graph.Joins p l p' → ∃ q', y.graph.Joins q l q' ∧ R p' q'
  back : ∀ p q l q', R p q → y.graph.Joins q l q' → ∃ p', x.graph.Joins p l p' ∧ R p' q'
  final : ∀ p q, R p q → (p = x.final ↔ q = y.final)
  unique : Relator.BiUnique R

namespace Alike

variable {x y : Fragment σ} {R : State → State → Prop} {s t : StateSet}

theorem symm (h : Alike x y R) : Alike y x (flip R) where
  start := h.start
  forth q p l q' hPair hEdge := h.back p q l q' hPair hEdge
  back q p l p' hPair hEdge := h.forth p q l p' hPair hEdge
  final q p hPair := (h.final p q hPair).symm
  unique := ⟨fun _ _ _ hst hut => h.unique.2 hst hut, h.unique.1.flip⟩

/-- A path from one state of a pair has one from the other that spells the same word. -/
theorem exists_path (h : Alike x y R) {p q p' : State} {word : List σ}
    (path : x.graph.Path p word p') (hPair : R p q) : ∃ q', y.graph.Path q word q' ∧ R p' q' := by
  induction path generalizing q with
  | nil => exact ⟨q, .nil q, hPair⟩
  | step edge _ ih =>
      obtain ⟨k, hEdge, hNext⟩ := h.forth _ q _ _ hPair edge
      obtain ⟨q', path', hEnd⟩ := ih hNext
      exact ⟨q', .step hEdge path', hEnd⟩

theorem covered_initial (h : Alike x y R) (hs : x.initial = .ok s) (ht : y.initial = .ok t) :
    s.Covered R t := by
  intro p hp
  obtain ⟨q, path, hPair⟩ := h.exists_path ((mem_initial_iff hs).mp hp) h.start
  exact ⟨q, (mem_initial_iff ht).mpr path, hPair⟩

theorem related_initial (h : Alike x y R) (hs : x.initial = .ok s) (ht : y.initial = .ok t) :
    s.Related R t :=
  ⟨h.covered_initial hs ht, h.symm.covered_initial ht hs⟩

theorem covered_step (h : Alike x y R) {a : σ} {s' t' : StateSet} (hCovered : s.Covered R t)
    (hs : x.step s a = .ok s') (ht : y.step t a = .ok t') : s'.Covered R t' := by
  intro p' hp'
  obtain ⟨p, hp, k, hEdge, path⟩ := (mem_step_iff hs).mp hp'
  obtain ⟨q, hq, hPair⟩ := hCovered p hp
  obtain ⟨m, hEdge', hNext⟩ := h.forth p q _ k hPair hEdge
  obtain ⟨q', path', hEnd⟩ := h.exists_path path hNext
  exact ⟨q', (mem_step_iff ht).mpr ⟨q, hq, m, hEdge', path'⟩, hEnd⟩

/-- Steps over the same symbol lead related sets to related sets. -/
theorem related_step (h : Alike x y R) {a : σ} {s' t' : StateSet} (hRelated : s.Related R t)
    (hs : x.step s a = .ok s') (ht : y.step t a = .ok t') : s'.Related R t' :=
  ⟨h.covered_step hRelated.1 hs ht, h.symm.covered_step hRelated.2 ht hs⟩

theorem final_mem_of_mem (h : Alike x y R) (hRelated : s.Related R t) (hFinal : x.final ∈ s) :
    y.final ∈ t := by
  obtain ⟨q, hq, hPair⟩ := hRelated.1 x.final hFinal
  exact (h.final x.final q hPair).mp rfl ▸ hq

theorem final_mem_iff (h : Alike x y R) (hRelated : s.Related R t) :
    x.final ∈ s ↔ y.final ∈ t :=
  ⟨h.final_mem_of_mem hRelated, h.symm.final_mem_of_mem hRelated.symm⟩

end Alike

/-- A bijection between what can be reached that keeps the start, the edges and the final
state puts the states in pairs. -/
theorem alike_of_bijOn {x y : Fragment σ} {f : State → State}
    (hBij : Set.BijOn f {s | x.Reachable s} {s | y.Reachable s}) (hStart : f x.start = y.start)
    (hEdges : ∀ p q l, x.Reachable p → x.Reachable q →
      (x.graph.Joins p l q ↔ y.graph.Joins (f p) l (f q)))
    (hFinal : ∀ p, x.Reachable p → (p = x.final ↔ f p = y.final)) :
    Alike x y fun p q => x.Reachable p ∧ f p = q where
  start := ⟨⟨[], .nil x.start⟩, hStart⟩
  forth p q l p' hPair hEdge := by
    obtain ⟨hReached, rfl⟩ := hPair
    have hNext := hReached.step hEdge
    exact ⟨f p', (hEdges p p' l hReached hNext).mp hEdge, hNext, rfl⟩
  back p q l q' hPair hEdge := by
    obtain ⟨hReached, rfl⟩ := hPair
    have hTarget : y.Reachable (f p) := hBij.mapsTo hReached
    obtain ⟨p', hNext, rfl⟩ := hBij.surjOn (hTarget.step hEdge)
    exact ⟨p', (hEdges p p' l hReached hNext).mpr hEdge, hNext, rfl⟩
  final p q hPair := hPair.2 ▸ hFinal p hPair.1
  unique := by
    constructor
    · intro p p' q h h'
      exact hBij.injOn h.1 h'.1 (h.2.trans h'.2.symm)
    · intro p q q' h h'
      exact h.2.symm.trans h'.2

end Fragment

namespace Dfa

section Lockstep

variable {x y : Fragment σ} {d e : Dfa σ} {R : State → State → Prop} {i j : State}

/-- The two states stand for related sets. -/
def Paired (R : State → State → Prop) (d e : Dfa σ) (i j : State) : Prop :=
  ∃ s t, d.members? i = some s ∧ e.members? j = some t ∧ s.Related R t

theorem Paired.symm (h : Paired R d e i j) : Paired (flip R) e d j i := by
  obtain ⟨s, t, hs, ht, hRelated⟩ := h
  exact ⟨t, s, ht, hs, hRelated.symm⟩

/-- A transition of one state of a pair has one of the other for the same symbol. -/
theorem Paired.exists_joins (hAlike : x.Alike y R) (hd : Simulates x d) (he : Simulates y e)
    (wf : y.WellFormed) (hPair : Paired R d e i j) {a : σ} {i' : State}
    (hEdge : d.graph.Joins i a i') : ∃ j', e.graph.Joins j a j' ∧ Paired R d e i' j' := by
  obtain ⟨s, t, hs, ht, hRelated⟩ := hPair
  obtain ⟨-, _, s', hs', hStep, hTarget⟩ := (hd.joins_iff i a i').mp hEdge
  cases hs.symm.trans hs'
  obtain ⟨t', hStep'⟩ := wf.exists_step (he.inside t (mem_states_of_members? ht)) a
  have hRelated' := hAlike.related_step hRelated hStep hStep'
  have hNonempty : t' ≠ ∅ := hRelated'.ne_empty fun hEmpty =>
    hd.nonempty (hEmpty ▸ mem_states_of_members? hTarget)
  obtain ⟨j', hEdge', hj'⟩ := he.exists_joins wf ht hStep' hNonempty
  exact ⟨j', hEdge', s', t', hTarget, hj', hRelated'⟩

/-- No state is paired with two, as it stands for one set and no set has two states. -/
theorem Paired.eq (hNodup : e.states.Nodup) (hR : Relator.RightUnique R) {k : State}
    (hj : Paired R d e i j) (hk : Paired R d e i k) : j = k := by
  obtain ⟨s, t, hs, ht, hRelated⟩ := hj
  obtain ⟨_, u, hs', hu, hRelated'⟩ := hk
  cases hs.symm.trans hs'
  cases hRelated.eq_of_rightUnique hR hRelated'
  have hIndex := (idxOf?_eq_some_iff hNodup).mpr ht
  exact Option.some.inj (hIndex.symm.trans ((idxOf?_eq_some_iff hNodup).mpr hu))

/-- The automata of fragments that are alike run in lockstep. -/
theorem matching_of_alike (hAlike : x.Alike y R) (hx : x.WellFormed) (hy : y.WellFormed)
    (hd : Simulates x d ∧ d.Numbered) (he : Simulates y e ∧ e.Numbered) :
    Matching d e (Paired R d e) where
  left := ⟨hd.1.wellFormed, hd.2⟩
  right := ⟨he.1.wellFormed, he.2⟩
  start := by
    obtain ⟨s, hs, hFirst⟩ := hd.1.first
    obtain ⟨t, ht, hFirst'⟩ := he.1.first
    exact ⟨s, t, hFirst, hFirst', hAlike.related_initial hs ht⟩
  inside i j hPair := by
    obtain ⟨s, t, hs, ht, -⟩ := hPair
    exact ⟨lt_size_of_members? hs, lt_size_of_members? ht⟩
  forth i j a i' hPair hEdge := hPair.exists_joins hAlike hd.1 he.1 hy hEdge
  back i j a j' hPair hEdge := by
    obtain ⟨i', hNext, hPair'⟩ := hPair.symm.exists_joins hAlike.symm he.1 hd.1 hx hEdge
    exact ⟨i', hNext, hPair'.symm⟩
  unique := by
    constructor
    · intro i k j hi hk
      exact Paired.eq hd.1.nodup hAlike.symm.unique.2 hi.symm hk.symm
    · intro i j k hj hk
      exact Paired.eq he.1.nodup hAlike.unique.2 hj hk

/-- Such automata have the same accepting states. -/
theorem Matching.accepting_eq (hPairs : Matching d e (Paired R d e)) (hAlike : x.Alike y R)
    (hd : Simulates x d) (he : Simulates y e) : d.accepting = e.accepting := by
  refine SortedSet.ext fun i => ?_
  rw [hd.accepting_iff, he.accepting_iff]
  by_cases hi : i < d.size
  · obtain ⟨s, t, hs, ht, hRelated⟩ := hPairs.self hi
    simp only [hs, ht, Option.some.injEq, exists_eq_left', hAlike.final_mem_iff hRelated]
  · refine iff_of_false ?_ ?_
    · exact fun ⟨s, hs, _⟩ => hi (lt_size_of_members? hs)
    · exact fun ⟨t, ht, _⟩ => hi (hPairs.size_eq ▸ lt_size_of_members? ht)

end Lockstep

/-- If the reachable states of two well-formed fragments correspond, then so do the
automata: they have equally many states, the same graph and the same accepting states,
and states with the same number stand for sets that correspond. -/
theorem determinize_eq_of_bijOn {x y : Fragment σ} {f : State → State}
    (hx : x.validate = .ok ()) (hy : y.validate = .ok ())
    (hBij : Set.BijOn f {s | x.Reachable s} {s | y.Reachable s}) (hStart : f x.start = y.start)
    (hEdges : ∀ p q l, x.Reachable p → x.Reachable q →
      (x.graph.Joins p l q ↔ y.graph.Joins (f p) l (f q)))
    (hFinal : ∀ p, x.Reachable p → (p = x.final ↔ f p = y.final)) :
    ∃ d e, x.determinize = .ok d ∧ y.determinize = .ok e ∧ d.size = e.size ∧
      d.graph = e.graph ∧ d.accepting = e.accepting ∧
      ∀ i, e.members? i = (d.members? i).map (SortedSet.image f) := by
  have wfx := Fragment.validate_eq_ok_iff.mp hx
  have wfy := Fragment.validate_eq_ok_iff.mp hy
  obtain ⟨d, hd⟩ := exists_ofFragment wfx
  obtain ⟨e, he⟩ := exists_ofFragment wfy
  have hAlike := Fragment.alike_of_bijOn hBij hStart hEdges hFinal
  have hPairs := matching_of_alike hAlike wfx wfy (simulates_of_ofFragment hd)
    (simulates_of_ofFragment he)
  refine ⟨d, e, hd, he, hPairs.size_eq, hPairs.graph_eq, hPairs.accepting_eq hAlike
    (simulates_of_ofFragment hd).1 (simulates_of_ofFragment he).1, fun i => ?_⟩
  by_cases hi : i < d.size
  · obtain ⟨s, t, hs, ht, hForth, hBack⟩ := hPairs.self hi
    rw [hs, ht, Option.map_some]
    refine congrArg some (SortedSet.ext fun q => ?_)
    rw [SortedSet.mem_image]
    constructor
    · intro hq
      obtain ⟨p, hp, -, hEq⟩ := hBack q hq
      exact ⟨p, hp, hEq⟩
    · intro hq
      obtain ⟨p, hp, rfl⟩ := hq
      obtain ⟨q, hq, -, rfl⟩ := hForth p hp
      exact hq
  · have hBeyond : e.size ≤ i := hPairs.size_eq ▸ Nat.le_of_not_lt hi
    rw [members?, members?, List.getElem?_eq_none hBeyond,
      List.getElem?_eq_none (Nat.le_of_not_lt hi), Option.map_none]

/-- The fragment `looped` with other numbers, one edge twice, a vertex out of reach and a
symbol that is never read. -/
def relabelled : Fragment Char where
  session := 4
  graph := ((((Graph.empty.addEdge 6 6 (.symbol 'a')).addEdge 6 7 .epsilon).addEdge 3 6
    .epsilon).addEdge 7 6 .epsilon).addEdge 7 6 .epsilon
  start := 7
  final := 7
  alphabet := .ofList ['a', 'c']

theorem joins_looped {p q : State} {l : Label Char} : looped.graph.Joins p l q ↔
    p = 0 ∧ l = .epsilon ∧ q = 1 ∨ p = 1 ∧ (l = .epsilon ∧ q = 0 ∨ l = .symbol 'a' ∧ q = 1) := by
  simp only [looped, Graph.joins_addEdge, Graph.not_joins_empty, false_or]
  grind

theorem joins_relabelled {p q : State} {l : Label Char} : relabelled.graph.Joins p l q ↔
    p = 7 ∧ l = .epsilon ∧ q = 6 ∨ p = 6 ∧ (l = .epsilon ∧ q = 7 ∨ l = .symbol 'a' ∧ q = 6) ∨
      p = 3 ∧ l = .epsilon ∧ q = 6 := by
  simp only [relabelled, Graph.joins_addEdge, Graph.not_joins_empty, false_or]
  grind

theorem reachable_looped {s : State} : looped.Reachable s ↔ s = 0 ∨ s = 1 := by
  have hStart : looped.Reachable 0 := ⟨[], .nil 0⟩
  constructor
  · intro h
    refine h.inside (fun s => s = 0 ∨ s = 1) (fun p l q _ hEdge => ?_) (Or.inl rfl)
    rcases joins_looped.mp hEdge with ⟨-, -, hq⟩ | ⟨-, ⟨-, hq⟩ | ⟨-, hq⟩⟩
    · exact Or.inr hq
    · exact Or.inl hq
    · exact Or.inr hq
  · rintro (rfl | rfl)
    · exact hStart
    · exact hStart.step (joins_looped.mpr (Or.inl ⟨rfl, rfl, rfl⟩))

theorem reachable_relabelled {s : State} : relabelled.Reachable s ↔ s = 7 ∨ s = 6 := by
  have hStart : relabelled.Reachable 7 := ⟨[], .nil 7⟩
  constructor
  · intro h
    refine h.inside (fun s => s = 7 ∨ s = 6) (fun p l q _ hEdge => ?_) (Or.inl rfl)
    rcases joins_relabelled.mp hEdge with ⟨-, -, hq⟩ | ⟨-, ⟨-, hq⟩ | ⟨-, hq⟩⟩ | ⟨-, -, hq⟩
    · exact Or.inr hq
    · exact Or.inl hq
    · exact Or.inr hq
    · exact Or.inr hq
  · rintro (rfl | rfl)
    · exact hStart
    · exact hStart.step (joins_relabelled.mpr (Or.inl ⟨rfl, rfl, rfl⟩))

theorem determinize_eq_of_bijOn_looped :
    ∃ d e, looped.determinize = .ok d ∧ relabelled.determinize = .ok e ∧ d.size = e.size ∧
      d.graph = e.graph ∧ d.accepting = e.accepting ∧
      ∀ i, e.members? i = (d.members? i).map (SortedSet.image fun s => 7 - s) := by
  refine determinize_eq_of_bijOn (by rfl) (by rfl) ?_ rfl ?_ ?_
  · refine ⟨fun s hs => ?_, fun s hs t ht hEq => ?_, fun s hs => ?_⟩
    · rcases reachable_looped.mp hs with rfl | rfl <;> exact reachable_relabelled.mpr (by simp)
    · rcases reachable_looped.mp hs with rfl | rfl <;>
        rcases reachable_looped.mp ht with rfl | rfl <;> simp_all
    · rcases reachable_relabelled.mp hs with rfl | rfl
      · exact ⟨0, reachable_looped.mpr (Or.inl rfl), rfl⟩
      · exact ⟨1, reachable_looped.mpr (Or.inr rfl), rfl⟩
  · intro p q l hp hq
    rw [joins_looped, joins_relabelled]
    rcases reachable_looped.mp hp with rfl | rfl <;>
      rcases reachable_looped.mp hq with rfl | rfl <;> simp
  · intro p hp
    rcases reachable_looped.mp hp with rfl | rfl <;> simp [looped, relabelled]

end Dfa

end FiniteAutomata
