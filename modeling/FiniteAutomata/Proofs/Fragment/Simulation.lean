import FiniteAutomata.Fragment.Simulation
import FiniteAutomata.Proofs.Fragment.Path
import FiniteAutomata.Proofs.Ordered
import FiniteAutomata.Proofs.Outcome
import FiniteAutomata.Proofs.Search

/-! The simulation follows the paths of a fragment. Whatever the simulation answers
after a word is the set of the states that the paths spelling it lead to. There is no
answer exactly if one of the paths, on the way or at its end, comes to a state that is no
vertex; then the fault names such a state. A well-formed fragment always gets an answer,
so it accepts exactly its language. -/
namespace FiniteAutomata.Fragment

variable {σ : Type} [Symbol σ] {x : Fragment σ}

theorem targetsOf_of_mem {s : State} (p : Label σ → Bool) (h : s ∈ x.graph) :
    x.targetsOf p s = .ok (((x.graph.arrows s).filter fun a => p a.weight).map Arrow.target) := by
  simp only [targetsOf, arrowsOf, Graph.arrows?_of_mem h]
  rfl

/-- The edges that the simulation follows are those whose label it asks for. -/
theorem follows_targetsOf {p : Label σ → Bool} {s t : State} :
    Search.Follows (x.targetsOf p) s t ↔ ∃ l, p l = true ∧ x.graph.Joins s l t := by
  constructor
  · intro h
    obtain ⟨targets, hTargets, hMem⟩ := h
    obtain ⟨arrows, hRow, rfl⟩ := targetsOf_ok hTargets
    obtain ⟨a, ha, rfl⟩ := List.mem_map.mp hMem
    obtain ⟨hArrow, hLabel⟩ := List.mem_filter.mp ha
    exact ⟨a.weight, hLabel, Graph.joins_of_arrows? hRow hArrow⟩
  · intro h
    obtain ⟨l, hLabel, hEdge⟩ := h
    exact ⟨_, targetsOf_of_mem p (Graph.mem_of_joins hEdge),
      List.mem_map.mpr ⟨⟨t, l⟩, List.mem_filter.mpr ⟨hEdge, hLabel⟩, rfl⟩⟩

/-- A state is refused exactly if it is no vertex, and the refusal names it. -/
theorem targetsOf_eq_error_iff {p : Label σ → Bool} {s : State} {f : Fault σ} :
    x.targetsOf p s = .error f ↔ s ∉ x.graph ∧ f = .unknownState s := by
  by_cases hMem : s ∈ x.graph
  · simp [targetsOf_of_mem p hMem, hMem]
  · have hRefused : x.targetsOf p s = .error (.unknownState s) := by
      simp only [targetsOf, arrowsOf, Graph.arrows?_of_not_mem hMem]
      rfl
    simp [hRefused, hMem, eq_comm]

section Closure

theorem follows_isEpsilon {s t : State} :
    Search.Follows (x.targetsOf Label.isEpsilon) s t ↔ x.graph.Joins s .epsilon t := by
  rw [follows_targetsOf]
  constructor
  · intro h
    obtain ⟨l, hLabel, hEdge⟩ := h
    cases l with
    | epsilon => exact hEdge
    | symbol a => cases hLabel
  · exact fun hEdge => ⟨.epsilon, rfl, hEdge⟩

theorem reached_isEpsilon {states : StateSet} {t : State} :
    Search.Reached (x.targetsOf Label.isEpsilon) states t ↔
      ∃ s ∈ states, x.graph.Path s [] t := by
  have hFollows : Search.Follows (x.targetsOf Label.isEpsilon) =
      fun a b => x.graph.Joins a .epsilon b := by
    funext a b
    exact propext follows_isEpsilon
  simp only [Search.Reached, hFollows, Graph.Path.nil_iff]

/-- The closure of a set consists of what can be reached without reading. -/
theorem mem_epsilonClosure_iff {states closure : StateSet}
    (h : x.epsilonClosure states = .ok closure) {t : State} :
    t ∈ closure ↔ ∃ s ∈ states, x.graph.Path s [] t :=
  (Search.mem_reach_iff h).trans reached_isEpsilon

/-- A closure fails only at a state outside the graph that can be reached, and names it. -/
theorem exists_of_epsilonClosure_error {states : StateSet} {f : Fault σ}
    (h : x.epsilonClosure states = .error f) :
    ∃ s ∈ states, ∃ t, x.graph.Path s [] t ∧ t ∉ x.graph ∧ f = .unknownState t := by
  obtain ⟨t, hReached, hRefused⟩ := Search.exists_reached_of_reach_error h
  obtain ⟨s, hs, path⟩ := reached_isEpsilon.mp hReached
  exact ⟨s, hs, t, path, targetsOf_eq_error_iff.mp hRefused⟩

theorem exists_epsilonClosure {states : StateSet}
    (hInside : ∀ s ∈ states, ∀ t, x.graph.Path s [] t → t ∈ x.graph) :
    ∃ closure, x.epsilonClosure states = .ok closure := by
  apply Search.exists_reach_ok
  intro t ht
  obtain ⟨s, hs, path⟩ := reached_isEpsilon.mp ht
  exact ⟨_, targetsOf_of_mem _ (hInside s hs t path)⟩

/-- What can be reached from a closure without reading belongs to it. -/
theorem mem_epsilonClosure_of_path {states closure : StateSet}
    (h : x.epsilonClosure states = .ok closure) {s t : State} (hs : s ∈ closure)
    (path : x.graph.Path s [] t) : t ∈ closure := by
  obtain ⟨p, hp, before⟩ := (mem_epsilonClosure_iff h).mp hs
  exact (mem_epsilonClosure_iff h).mpr ⟨p, hp, before.trans path⟩

/-- Nothing is added to a closure. -/
theorem epsilonClosure_closure {states closure : StateSet}
    (h : x.epsilonClosure states = .ok closure) : x.epsilonClosure closure = .ok closure := by
  obtain ⟨again, hAgain⟩ := exists_epsilonClosure fun s hs t path =>
    mem_of_mem_epsilonClosure h t (mem_epsilonClosure_of_path h hs path)
  rw [hAgain, Except.ok.injEq]
  refine SortedSet.ext fun t => (mem_epsilonClosure_iff hAgain).trans ?_
  constructor
  · rintro ⟨s, hs, path⟩
    exact mem_epsilonClosure_of_path h hs path
  · exact fun ht => ⟨t, ht, .nil t⟩

/-- Fewer states have a closure, too, and a smaller one. -/
theorem exists_epsilonClosure_of_subset {states fewer closure : StateSet}
    (h : x.epsilonClosure states = .ok closure) (hFewer : ∀ s ∈ fewer, s ∈ states) :
    ∃ part, x.epsilonClosure fewer = .ok part ∧ ∀ t ∈ part, t ∈ closure := by
  have hReached : ∀ s ∈ fewer, ∀ t, x.graph.Path s [] t → t ∈ closure := fun s hs t path =>
    (mem_epsilonClosure_iff h).mpr ⟨s, hFewer s hs, path⟩
  obtain ⟨part, hPart⟩ := exists_epsilonClosure fun s hs t path =>
    mem_of_mem_epsilonClosure h t (hReached s hs t path)
  refine ⟨part, hPart, fun t ht => ?_⟩
  obtain ⟨s, hs, path⟩ := (mem_epsilonClosure_iff hPart).mp ht
  exact hReached s hs t path

/-- Edges that read nothing lead to the state from a state of the set. -/
def SilentlyReached (x : Fragment σ) (states : StateSet) (t : State) : Prop :=
  ∃ s ∈ states, Relation.ReflTransGen (fun a b => x.graph.Joins a .epsilon b) s t

theorem silentlyReached_iff {states : StateSet} {t : State} :
    x.SilentlyReached states t ↔ ∃ s ∈ states, x.graph.Path s [] t := by
  simp only [SilentlyReached, Graph.Path.nil_iff]

/-- The search for a closure always comes to an end, whatever cycles there are. It fails
exactly if a state outside the graph can be reached, and names such a state. Otherwise it
finds exactly what can be reached: that contains the set it starts from, it is its own
closure, and it grows with the set. -/
theorem epsilonClosure_finds_reached (x : Fragment σ) (states : StateSet) :
    ((∃ f, x.epsilonClosure states = .error f) ↔
      ∃ t, x.SilentlyReached states t ∧ t ∉ x.graph) ∧
    (∀ f, x.epsilonClosure states = .error f →
      ∃ t, x.SilentlyReached states t ∧ t ∉ x.graph ∧ f = .unknownState t) ∧
    ((∀ t, x.SilentlyReached states t → t ∈ x.graph) →
      ∃ closure, x.epsilonClosure states = .ok closure ∧
        (∀ t, t ∈ closure ↔ x.SilentlyReached states t) ∧
        (∀ s ∈ states, s ∈ closure) ∧ x.epsilonClosure closure = .ok closure ∧
        ∀ fewer : StateSet, (∀ s ∈ fewer, s ∈ states) →
          ∃ part, x.epsilonClosure fewer = .ok part ∧ ∀ t ∈ part, t ∈ closure) := by
  simp only [silentlyReached_iff]
  have hNamed : ∀ f, x.epsilonClosure states = .error f →
      ∃ t, (∃ s ∈ states, x.graph.Path s [] t) ∧ t ∉ x.graph ∧ f = .unknownState t := by
    intro f hError
    obtain ⟨s, hs, t, path, hOut, hName⟩ := exists_of_epsilonClosure_error hError
    exact ⟨t, ⟨s, hs, path⟩, hOut, hName⟩
  refine ⟨⟨?_, ?_⟩, hNamed, ?_⟩
  · rintro ⟨f, hError⟩
    obtain ⟨t, hReached, hOut, -⟩ := hNamed f hError
    exact ⟨t, hReached, hOut⟩
  · rintro ⟨t, hReached, hOut⟩
    cases hClosure : x.epsilonClosure states with
    | error f => exact ⟨f, rfl⟩
    | ok closure =>
        have ht := (mem_epsilonClosure_iff hClosure).mpr hReached
        exact False.elim (hOut (mem_of_mem_epsilonClosure hClosure t ht))
  · intro hInside
    obtain ⟨closure, hClosure⟩ := exists_epsilonClosure fun s hs t path => hInside t ⟨s, hs, path⟩
    exact ⟨closure, hClosure, fun t => mem_epsilonClosure_iff hClosure,
      fun s hs => (mem_epsilonClosure_iff hClosure).mpr ⟨s, hs, .nil s⟩,
      epsilonClosure_closure hClosure,
      fun fewer hFewer => exists_epsilonClosure_of_subset hClosure hFewer⟩

end Closure

section Run

theorem mem_move_iff {states moved : StateSet} {a : σ} (h : x.move states a = .ok moved)
    {t : State} : t ∈ moved ↔ ∃ s ∈ states, x.graph.Joins s (.symbol a) t := by
  obtain ⟨found, hFound, hMoved⟩ := Outcome.bind_eq_ok_iff.mp h
  cases hMoved
  rw [SortedSet.mem_ofList, Outcome.mem_flatten_of_mapM hFound]
  refine exists_congr fun s => and_congr_right fun _ => ?_
  refine follows_targetsOf.trans ?_
  constructor
  · intro hSome
    obtain ⟨l, hLabel, hEdge⟩ := hSome
    rw [beq_iff_eq] at hLabel
    exact hLabel ▸ hEdge
  · exact fun hEdge => ⟨.symbol a, beq_self_eq_true _, hEdge⟩

theorem exists_move {states : StateSet} (hStates : ∀ s ∈ states, s ∈ x.graph) (a : σ) :
    ∃ moved, x.move states a = .ok moved := by
  obtain ⟨found, hFound⟩ := Outcome.exists_mapM_ok (l := states.toList)
    (f := x.targetsOf (· == .symbol a)) fun s hs => ⟨_, targetsOf_of_mem _ (hStates s hs)⟩
  exact ⟨_, Outcome.bind_of_ok _ hFound⟩

/-- A step leads where one edge with the symbol and edges without a symbol lead. -/
theorem mem_step_iff {states after : StateSet} {a : σ} (h : x.step states a = .ok after)
    {t : State} :
    t ∈ after ↔ ∃ p ∈ states, ∃ q, x.graph.Joins p (.symbol a) q ∧ x.graph.Path q [] t := by
  obtain ⟨moved, hMoved, hAfter⟩ := Outcome.bind_eq_ok_iff.mp h
  rw [mem_epsilonClosure_iff hAfter]
  simp only [mem_move_iff hMoved]
  constructor
  · intro hSome
    obtain ⟨q, ⟨p, hp, hEdge⟩, path⟩ := hSome
    exact ⟨p, hp, q, hEdge, path⟩
  · intro hSome
    obtain ⟨p, hp, q, hEdge, path⟩ := hSome
    exact ⟨q, ⟨p, hp, hEdge⟩, path⟩

theorem step_empty {a : σ} {after : StateSet} (h : x.step ∅ a = .ok after) : after = ∅ := by
  refine SortedSet.eq_empty_iff.mpr fun t ht => ?_
  obtain ⟨p, hp, -⟩ := (mem_step_iff h).mp ht
  exact SortedSet.not_mem_empty hp

theorem mem_initial_iff {states : StateSet} (h : x.initial = .ok states) {t : State} :
    t ∈ states ↔ x.graph.Path x.start [] t := by
  rw [mem_epsilonClosure_iff h]
  constructor
  · intro hSome
    obtain ⟨s, hs, path⟩ := hSome
    exact SortedSet.mem_singleton.mp hs ▸ path
  · exact fun path => ⟨x.start, SortedSet.mem_singleton.mpr rfl, path⟩

/-- The states after a word, read to its end. -/
def run (x : Fragment σ) (word : List σ) : Except (Fault σ) StateSet := do
  word.foldlM x.step (← x.initial)

theorem run_nil (x : Fragment σ) : x.run [] = x.initial := by
  unfold run
  cases x.initial <;> rfl

theorem run_append (x : Fragment σ) (word rest : List σ) :
    x.run (word ++ rest) = x.run word >>= fun states => rest.foldlM x.step states := by
  unfold run
  rw [bind_assoc]
  simp only [List.foldlM_append]

theorem run_append_singleton (x : Fragment σ) (word : List σ) (a : σ) :
    x.run (word ++ [a]) = x.run word >>= fun states => x.step states a := by
  rw [run_append]
  simp only [List.foldlM_cons, List.foldlM_nil, bind_pure]

/-- After a word the simulation is in the states that the paths spelling it lead
to. -/
theorem mem_run_iff {word : List σ} {states : StateSet} (h : x.run word = .ok states) {t : State} :
    t ∈ states ↔ x.graph.Path x.start word t := by
  induction word using List.reverseRecOn generalizing states t with
  | nil => exact mem_initial_iff (x.run_nil ▸ h)
  | append_singleton word a ih =>
      rw [run_append_singleton] at h
      obtain ⟨before, hBefore, hStep⟩ := Outcome.bind_eq_ok_iff.mp h
      rw [mem_step_iff hStep, Graph.Path.append_singleton_iff]
      simp only [ih hBefore]
      exact exists_congr fun p => exists_and_left.symm

theorem mem_of_mem_run {word : List σ} {states : StateSet} (h : x.run word = .ok states) :
    ∀ t ∈ states, t ∈ x.graph := by
  cases word using List.reverseRecOn with
  | nil => exact mem_of_mem_epsilonClosure (x.run_nil ▸ h)
  | append_singleton word a =>
      rw [run_append_singleton] at h
      obtain ⟨before, -, hStep⟩ := Outcome.bind_eq_ok_iff.mp h
      obtain ⟨moved, -, hAfter⟩ := Outcome.bind_eq_ok_iff.mp hStep
      exact mem_of_mem_epsilonClosure hAfter

/-- A step from vertices fails only at a state outside the graph, and names it. -/
theorem exists_of_step_error {states : StateSet} {a : σ} {f : Fault σ}
    (hStates : ∀ s ∈ states, s ∈ x.graph) (h : x.step states a = .error f) :
    ∃ p ∈ states, ∃ q, x.graph.Joins p (.symbol a) q ∧
      ∃ t, x.graph.Path q [] t ∧ t ∉ x.graph ∧ f = .unknownState t := by
  obtain ⟨moved, hMoved⟩ := exists_move hStates a
  rw [step, Outcome.bind_of_ok _ hMoved] at h
  obtain ⟨q, hq, t, path, hOut⟩ := exists_of_epsilonClosure_error h
  obtain ⟨p, hp, hEdge⟩ := (mem_move_iff hMoved).mp hq
  exact ⟨p, hp, q, hEdge, t, path, hOut⟩

/-- A path from the start state that spells the word ends in a state that is no vertex. -/
def Strays (x : Fragment σ) (word : List σ) : Prop :=
  ∃ t, x.graph.Path x.start word t ∧ t ∉ x.graph

/-- A run fails only where a path that spells a first part of the word strays, and names the
state at its end. -/
theorem exists_of_run_error {word : List σ} {f : Fault σ} (h : x.run word = .error f) :
    ∃ u, u <+: word ∧ ∃ t, x.graph.Path x.start u t ∧ t ∉ x.graph ∧ f = .unknownState t := by
  induction word using List.reverseRecOn with
  | nil =>
      rw [run_nil] at h
      obtain ⟨s, hs, t, path, hOut⟩ := exists_of_epsilonClosure_error h
      exact ⟨[], List.prefix_rfl, t, SortedSet.mem_singleton.mp hs ▸ path, hOut⟩
  | append_singleton word a ih =>
      rw [run_append_singleton] at h
      cases hRun : x.run word with
      | error g =>
          rw [hRun] at h
          obtain ⟨u, hu, hOut⟩ := ih (hRun.trans h)
          exact ⟨u, hu.trans (List.prefix_append word [a]), hOut⟩
      | ok states =>
          rw [Outcome.bind_of_ok _ hRun] at h
          obtain ⟨p, hp, q, hEdge, t, path, hOut⟩ := exists_of_step_error (mem_of_mem_run hRun) h
          have hBefore := (mem_run_iff hRun).mp hp
          exact ⟨word ++ [a], List.prefix_rfl, t,
            Graph.Path.append_singleton_iff.mpr ⟨p, q, hBefore, hEdge, path⟩, hOut⟩

/-- No first part of a word that has a run strays. -/
theorem not_strays_of_run {word u : List σ} {states : StateSet} (h : x.run word = .ok states)
    (hu : u <+: word) : ¬ x.Strays u := by
  rintro ⟨t, path, hOut⟩
  obtain ⟨rest, rfl⟩ := hu
  rw [run_append] at h
  obtain ⟨before, hBefore, -⟩ := Outcome.bind_eq_ok_iff.mp h
  exact hOut (mem_of_mem_run hBefore t ((mem_run_iff hBefore).mpr path))

theorem exists_run {word : List σ} (h : ∀ u, u <+: word → ¬ x.Strays u) :
    ∃ states, x.run word = .ok states := by
  cases hRun : x.run word with
  | ok states => exact ⟨states, rfl⟩
  | error f =>
      obtain ⟨u, hu, t, path, hOut, -⟩ := exists_of_run_error hRun
      exact False.elim (h u hu ⟨t, path, hOut⟩)

theorem step_empty_eq (x : Fragment σ) (a : σ) : x.step ∅ a = .ok ∅ := by
  have hNone : ∀ s ∈ (∅ : StateSet), s ∈ x.graph := fun s hs =>
    False.elim (SortedSet.not_mem_empty hs)
  cases hStep : x.step ∅ a with
  | ok after => rw [step_empty hStep]
  | error f =>
      obtain ⟨p, hp, -⟩ := exists_of_step_error hNone hStep
      exact False.elim (SortedSet.not_mem_empty hp)

theorem foldlM_step_empty (x : Fragment σ) (word : List σ) :
    word.foldlM x.step ∅ = .ok ∅ := by
  induction word with
  | nil => rfl
  | cons a word ih => rw [List.foldlM_cons, Outcome.bind_of_ok _ (x.step_empty_eq a), ih]

theorem run_append_of_empty {word : List σ} (h : x.run word = .ok ∅) (rest : List σ) :
    x.run (word ++ rest) = .ok ∅ := by
  rw [run_append, Outcome.bind_of_ok _ h, foldlM_step_empty]

/-- What is left unread would not change anything. -/
theorem follow_eq_foldlM (x : Fragment σ) (word : List σ) (states : StateSet) :
    x.follow word states = word.foldlM x.step states := by
  induction word generalizing states with
  | nil => rfl
  | cons a word ih =>
      rw [follow]
      split
      next hEmpty => rw [SortedSet.isEmpty_iff.mp hEmpty, foldlM_step_empty]
      next => simp only [List.foldlM_cons, ih]

theorem accepts_eq_bind (x : Fragment σ) (word : List σ) :
    x.accepts word = x.run word >>= fun states => pure (decide (x.final ∈ states)) := by
  simp only [accepts, run, follow_eq_foldlM, bind_assoc]

theorem accepts_of_run {word : List σ} {states : StateSet} (h : x.run word = .ok states) :
    x.accepts word = .ok (decide (x.final ∈ states)) := by
  rw [accepts_eq_bind, Outcome.bind_of_ok _ h]
  rfl

theorem accepts_eq_error_iff {word : List σ} {f : Fault σ} :
    x.accepts word = .error f ↔ x.run word = .error f := by
  cases hRun : x.run word with
  | ok states => simp [accepts_of_run hRun]
  | error g =>
      have hAccepts : x.accepts word = .error g := by
        rw [accepts_eq_bind, hRun]
        rfl
      rw [hAccepts, Except.error.injEq, Except.error.injEq]

/-- The simulation fails on a word exactly if a path from the start state that spells a first
part of it ends outside the graph, and the fault names the end of such a path. Otherwise the
answer says whether a path that spells the word leads to the final state. Once there is
nowhere to go, whatever follows is not accepted. -/
theorem accepts_follows_paths (x : Fragment σ) (word : List σ) :
    ((∃ f, x.accepts word = .error f) ↔ ∃ u, u <+: word ∧ x.Strays u) ∧
    (∀ f, x.accepts word = .error f → ∃ u, u <+: word ∧
      ∃ t, x.graph.Path x.start u t ∧ t ∉ x.graph ∧ f = .unknownState t) ∧
    ((∀ u, u <+: word → ¬ x.Strays u) → ∃ b, x.accepts word = .ok b ∧
      (b = true ↔ x.graph.Path x.start word x.final)) ∧
    (x.run word = .ok ∅ → ∀ rest, x.accepts (word ++ rest) = .ok false) := by
  refine ⟨⟨?_, ?_⟩, fun f hError => exists_of_run_error (accepts_eq_error_iff.mp hError), ?_, ?_⟩
  · rintro ⟨f, hError⟩
    obtain ⟨u, hu, t, path, hOut, -⟩ := exists_of_run_error (accepts_eq_error_iff.mp hError)
    exact ⟨u, hu, t, path, hOut⟩
  · rintro ⟨u, hu, hStrays⟩
    cases hRun : x.run word with
    | error f => exact ⟨f, accepts_eq_error_iff.mpr hRun⟩
    | ok states => exact False.elim (not_strays_of_run hRun hu hStrays)
  · intro hInside
    obtain ⟨states, hRun⟩ := exists_run hInside
    refine ⟨decide (x.final ∈ states), accepts_of_run hRun, ?_⟩
    rw [decide_eq_true_iff, mem_run_iff hRun]
  · intro hEmpty rest
    rw [accepts_of_run (run_append_of_empty hEmpty rest), decide_eq_false SortedSet.not_mem_empty]

end Run

namespace WellFormed

theorem exists_step (wf : x.WellFormed) {states : StateSet}
    (hStates : ∀ s ∈ states, s ∈ x.graph) (a : σ) : ∃ after, x.step states a = .ok after := by
  cases hStep : x.step states a with
  | ok after => exact ⟨after, rfl⟩
  | error f =>
      obtain ⟨p, -, q, hEdge, t, path, hOut, -⟩ := exists_of_step_error hStates hStep
      exact False.elim (hOut (wf.mem_of_path path (wf.target_mem p _ q hEdge)))

theorem exists_run (wf : x.WellFormed) (word : List σ) : ∃ states, x.run word = .ok states := by
  refine Fragment.exists_run fun u _ hStrays => ?_
  obtain ⟨t, path, hOut⟩ := hStrays
  exact hOut (wf.mem_of_path path wf.start_mem)

theorem exists_initial (wf : x.WellFormed) : ∃ states, x.initial = .ok states :=
  x.run_nil ▸ wf.exists_run []

/-- A symbol outside the alphabet leads nowhere. -/
theorem step_eq_empty (wf : x.WellFormed) {a : σ} {before after : StateSet}
    (ha : a ∉ x.alphabet) (h : x.step before a = .ok after) : after = ∅ := by
  refine SortedSet.ext fun t => iff_of_false (fun ht => ?_) SortedSet.not_mem_empty
  obtain ⟨p, -, q, hEdge, -⟩ := (mem_step_iff h).mp ht
  exact ha (wf.symbol_mem p a q hEdge)

/-- A well-formed fragment gives an answer for every word, and the answer says
whether the word is in its language. -/
theorem accepts_eq (wf : x.WellFormed) (word : List σ) :
    ∃ b, x.accepts word = .ok b ∧ (b = true ↔ word ∈ x.language) := by
  obtain ⟨states, hStates⟩ := wf.exists_run word
  refine ⟨decide (x.final ∈ states), accepts_of_run hStates, ?_⟩
  rw [decide_eq_true_iff, mem_run_iff hStates, mem_language]

theorem accepts_eq_true_iff (wf : x.WellFormed) {word : List σ} :
    x.accepts word = .ok true ↔ word ∈ x.language := by
  obtain ⟨b, hAnswer, hMem⟩ := wf.accepts_eq word
  rw [hAnswer, Except.ok.injEq, hMem]

end WellFormed

end FiniteAutomata.Fragment
