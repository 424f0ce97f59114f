import FiniteAutomata.Proofs.Dfa.Tracks
import FiniteAutomata.Proofs.Ordered

/-! The subset construction follows the simulation. It completes one state after
another until every step has been tried; then a run of the automaton ends in the state
of the set that the simulation ends in. -/
namespace FiniteAutomata.Dfa

variable {σ : Type} [Symbol σ]

section Construction

variable {x : Fragment σ} {limit : Option Nat} {d e : Dfa σ} {s : State} {a : σ}
  {members : StateSet}

/-- Trying a symbol changes nothing if it leads nowhere; otherwise it leads over a new
edge to the state that is registered for the set. -/
theorem follow_cases (h : follow x limit s members d a = .ok e) :
    ∃ targets, x.step members a = .ok targets ∧ (targets = ∅ ∧ e = d ∨
      targets ≠ ∅ ∧ ∃ t d', d.register limit x.final targets = .ok (t, d') ∧
        e = { d' with graph := d'.graph.addEdge s t a }) := by
  obtain ⟨targets, hStep, hRest⟩ := Outcome.bind_eq_ok_iff.mp h
  refine ⟨targets, hStep, ?_⟩
  split at hRest
  next hEmpty =>
    cases hRest
    exact Or.inl ⟨SortedSet.isEmpty_iff.mp hEmpty, rfl⟩
  next hNonempty =>
    obtain ⟨⟨t, d'⟩, hRegister, hEdge⟩ := Outcome.bind_eq_ok_iff.mp hRest
    cases hEdge
    exact Or.inr ⟨fun hEmpty => hNonempty (SortedSet.isEmpty_iff.mpr hEmpty), t, d', hRegister, rfl⟩

theorem exists_follow (wf : x.WellFormed) (hInside : ∀ v ∈ members, v ∈ x.graph) (d : Dfa σ)
    (s : State) (a : σ) : ∃ e, Dfa.follow x none s members d a = .ok e := by
  obtain ⟨targets, hStep⟩ := wf.exists_step hInside a
  unfold Dfa.follow
  rw [Outcome.bind_of_ok _ hStep]
  split
  next => exact ⟨d, rfl⟩
  next =>
    obtain ⟨⟨t, d'⟩, hRegister⟩ := exists_register x.final d targets
    exact ⟨_, Outcome.bind_of_ok _ hRegister⟩

/-- Trying a symbol keeps the states that are there. -/
theorem members?_of_follow (hNodup : d.states.Nodup) (h : follow x limit s members d a = .ok e)
    {i : State} {m : StateSet} (hi : d.members? i = some m) : e.members? i = some m := by
  obtain ⟨targets, -, ⟨-, rfl⟩ | ⟨-, t, d', hRegister, rfl⟩⟩ := follow_cases h
  · exact hi
  · rcases register_cases x.final hNodup hRegister with ⟨rfl, -⟩ | ⟨-, -, rfl⟩
    · exact hi
    · exact (members?_addState_of_lt x.final (lt_size_of_members? hi)).trans hi

/-- One more symbol is tried for the state `s`. -/
theorem Tracks.follow {tried : State → σ → Prop} (h : Tracks x tried d) (hNumbered : d.Numbered)
    (hSource : d.members? s = some members)
    (hBefore : ∀ i b, tried i b → i < s ∨ i = s ∧ compare b a = .lt)
    (hFollow : follow x limit s members d a = .ok e) :
    Tracks x (fun i b => tried i b ∨ i = s ∧ b = a) e ∧ e.Numbered := by
  obtain ⟨targets, hStep, hCase⟩ := follow_cases hFollow
  have hs := lt_size_of_members? hSource
  have hLast : ∀ b, tried s b → compare b a = .lt := fun b hb =>
    (hBefore s b hb).elim (fun hLt => False.elim (Nat.lt_irrefl s hLt)) And.right
  have hTriedBy : ∀ i b k, d.graph.Joins i b k → TriedBy i b s a := fun i b k hEdge =>
    (hBefore i b ((h.joins_iff i b k).mp hEdge).1).imp_right fun hSame =>
      ⟨hSame.1, by rw [hSame.2]; rfl⟩
  have hBelow : ∀ i b k, d.graph.Joins i b k → k < d.size := fun i b k hEdge =>
    (h.lt_size_of_joins hEdge).2
  rcases hCase with ⟨rfl, rfl⟩ | ⟨hNonempty, t, d', hRegister, rfl⟩
  · exact ⟨h.skip hSource hStep, hNumbered⟩
  · rcases register_cases x.final h.nodup hRegister with ⟨rfl, hTarget⟩ | ⟨hNew, rfl, rfl⟩
    -- the set has a state already
    · refine ⟨h.connect hSource hStep hTarget hLast, ?_⟩
      exact hNumbered.addEdge (Or.inl rfl) hs hBelow hTriedBy fun i b k => Graph.joins_addEdge
    -- the set gets a state behind all others, which no earlier edge leads to
    · have hInside : ∀ v ∈ targets, v ∈ x.graph := fun v hv =>
        Graph.mem_vertices.mp (mem_vertices_of_step hStep v hv)
      have hTried : ∀ i b, tried i b → i < d.size := fun i b hb =>
        (hBefore i b hb).elim (fun hLt => Nat.lt_trans hLt hs) fun hSame => hSame.1 ▸ hs
      have grown := h.addState hNew hNonempty hInside hTried
      have hTarget : (d.addState x.final targets).members? d.size = some targets := by
        rw [members?_addState, if_pos rfl]
      have hSource' : (d.addState x.final targets).members? s = some members :=
        (members?_addState_of_lt x.final hs).trans hSource
      refine ⟨grown.connect hSource' hStep hTarget hLast, ?_⟩
      refine hNumbered.addEdge (Or.inr ⟨size_addState x.final, rfl⟩) hs hBelow hTriedBy ?_
      intro i b k
      exact Graph.joins_addEdge.trans (or_congr_left (joins_addState x.final))

/-- Trying the remaining symbols completes the state `s`. -/
theorem Tracks.complete {done rest : List σ} (hSplit : x.alphabet.toList = done ++ rest)
    (h : Tracks x (Tried x s done) d) (hNumbered : d.Numbered)
    (hSource : d.members? s = some members)
    (hRun : rest.foldlM (Dfa.follow x limit s members) d = .ok e) :
    Tracks x (Tried x s x.alphabet.toList) e ∧ e.Numbered := by
  induction rest generalizing done d with
  | nil =>
      cases hRun
      rw [hSplit, List.append_nil]
      exact ⟨h, hNumbered⟩
  | cons b rest ih =>
      rw [List.foldlM_cons] at hRun
      obtain ⟨d', hFirst, hRest⟩ := Outcome.bind_eq_ok_iff.mp hRun
      have hBefore : ∀ i c, Tried x s done i c → i < s ∨ i = s ∧ compare c b = .lt := by
        intro i c hEither
        rcases hEither with ⟨hLt, -⟩ | ⟨hEq, hc⟩
        · exact Or.inl hLt
        · have hSorted := x.alphabet.sorted
          rw [hSplit] at hSorted
          have hLt := (List.pairwise_append.mp hSorted).2.2 c hc b List.mem_cons_self
          exact Or.inr ⟨hEq, hLt⟩
      obtain ⟨h', hNumbered'⟩ := h.follow hNumbered hSource hBefore hFirst
      rw [← tried_append] at h'
      refine ih ?_ h' hNumbered' (members?_of_follow h.nodup hFirst hSource) hRest
      rw [hSplit, List.append_assoc, List.singleton_append]

/-- Once there is no state left to complete, every step has been tried. -/
theorem Tracks.done (h : Tracks x (Tried x s []) d) (hs : d.size ≤ s) : Simulates x d where
  __ := h
  joins_iff i b t := by
    rw [h.joins_iff]
    refine ⟨fun ⟨hTried, hStep⟩ => ⟨?_, hStep⟩, fun ⟨hb, m, n, hSource, hStep⟩ =>
      ⟨Or.inl ⟨Nat.lt_of_lt_of_le (lt_size_of_members? hSource) hs, hb⟩, m, n, hSource, hStep⟩⟩
    exact hTried.elim And.right fun hNone => nomatch hNone.2
  registered i b m n hb hSource :=
    h.registered i b m n (Or.inl ⟨Nat.lt_of_lt_of_le (lt_size_of_members? hSource) hs, hb⟩) hSource

/-- Completing one state after another ends when every step has been tried. -/
theorem Tracks.explore (h : Tracks x (Tried x s []) d) (hNumbered : d.Numbered)
    (hRun : Dfa.explore x limit d s = .ok e) : Simulates x e ∧ e.Numbered := by
  fun_induction Dfa.explore x limit d s with
  | case1 d s hNone =>
      cases hRun
      exact ⟨h.done (List.getElem?_eq_none_iff.mp hNone), hNumbered⟩
  | case2 => cases hRun
  | case3 d s members hSource d' hComplete _ _ ih =>
      obtain ⟨h', hNumbered'⟩ := h.complete (List.nil_append _).symm hNumbered hSource hComplete
      rw [← tried_succ] at h'
      exact ih h' hNumbered' hRun

theorem Tracks.exists_explore (wf : x.WellFormed) (h : Tracks x (Tried x s []) d)
    (hNumbered : d.Numbered) : ∃ e, Dfa.explore x none d s = .ok e := by
  fun_induction Dfa.explore x none d s with
  | case1 d s _ => exact ⟨d, rfl⟩
  | case2 d s members hSource f hError =>
      have hInside := h.inside members (mem_states_of_members? hSource)
      obtain ⟨e, hComplete⟩ := Outcome.exists_foldlM_ok (f := Dfa.follow x none s members)
        (l := x.alphabet.toList) (fun a _ d => exists_follow wf hInside d s a) d
      cases hComplete.symm.trans hError
  | case3 d s members hSource d' hComplete _ _ ih =>
      obtain ⟨h', hNumbered'⟩ := h.complete (List.nil_append _).symm hNumbered hSource hComplete
      rw [← tried_succ] at h'
      exact ih h' hNumbered'

/-- A start state alone tracks the simulation before anything is tried. -/
theorem tracks_start (hInitial : x.initial = .ok members) (hNonempty : members ≠ ∅)
    (hInside : ∀ v ∈ members, v ∈ x.graph) :
    Tracks x (Tried x State.first []) ((empty x.alphabet).addState x.final members) where
  ids := rfl
  alphabet_eq := rfl
  nodup := List.nodup_singleton members
  nonempty hMem := hNonempty (List.mem_singleton.mp hMem).symm
  inside m hm := List.mem_singleton.mp hm ▸ hInside
  first := ⟨members, hInitial, rfl⟩
  accepting_iff i := by
    rw [mem_accepting_addState, members?_addState]
    split
    next hEq => simp [hEq, empty]
    next hNe =>
      refine iff_of_false ?_ ?_
      · exact fun hOld => hOld.elim SortedSet.not_mem_empty fun hLast => hNe hLast.1
      · intro h
        obtain ⟨m, hm, -⟩ := h
        exact Nat.not_lt_zero i (lt_size_of_members? hm)
  mem_graph i := by
    rw [size_addState, addState, Graph.mem_addVertex]
    exact (or_iff_left (Graph.not_mem_empty i)).trans Nat.lt_one_iff.symm
  ascending i := by
    rw [arrows_addState]
    exact List.Pairwise.nil
  joins_iff i a t := by
    rw [joins_addState]
    constructor
    · intro hEdge
      cases hEdge
    · intro h
      obtain ⟨⟨hLt, -⟩ | ⟨-, hMem⟩, -⟩ := h
      · exact False.elim (Nat.not_lt_zero i hLt)
      · cases hMem
  registered i a source targets hTried := by
    rcases hTried with ⟨hLt, -⟩ | ⟨-, hMem⟩
    · exact False.elim (Nat.not_lt_zero i hLt)
    · cases hMem

/-- The construction begins with a state for the set before anything is read. -/
theorem ofFragment_eq (wf : x.WellFormed) :
    ∃ d : Dfa σ, Tracks x (Tried x State.first []) d ∧ d.Numbered ∧
      ∀ limit, ofFragment limit x = (empty x.alphabet).checkRoom limit >>= fun _ =>
        Dfa.explore x limit d State.first := by
  obtain ⟨members, hInitial⟩ := wf.exists_initial
  have hMem : ∀ {v}, v ∈ members ↔ x.graph.Path x.start [] v := Fragment.mem_initial_iff hInitial
  have hNonempty : members ≠ ∅ := by
    rintro rfl
    exact SortedSet.not_mem_empty (hMem.mpr (Graph.Path.nil x.start))
  have hInside : ∀ v ∈ members, v ∈ x.graph := fun v hv =>
    wf.mem_of_path (hMem.mp hv) wf.start_mem
  refine ⟨_, tracks_start hInitial hNonempty hInside, ?_, fun limit => ?_⟩
  · intro j hPos hLt
    rw [size_addState] at hLt
    exact False.elim (Nat.not_lt_of_le (Nat.le_of_lt_succ hLt) hPos)
  · rw [ofFragment, Fragment.validate_eq_ok_iff.mpr wf, hInitial]
    change register limit x.final (empty x.alphabet) members >>= _ = _
    rw [register]
    cases (empty x.alphabet).checkRoom limit <;> rfl

/-- An automaton that is made for a fragment tracks all steps of the simulation. -/
theorem simulates_of_ofFragment (h : ofFragment limit x = .ok d) : Simulates x d ∧ d.Numbered := by
  obtain ⟨⟨⟩, hValid, -⟩ := Outcome.bind_eq_ok_iff.mp h
  obtain ⟨start, hStart, hNumbered, hEq⟩ := ofFragment_eq (Fragment.validate_eq_ok_iff.mp hValid)
  rw [hEq] at h
  obtain ⟨⟨⟩, -, hExplore⟩ := Outcome.bind_eq_ok_iff.mp h
  exact hStart.explore hNumbered hExplore

/-- Without a limit every well-formed fragment gets its automaton. -/
theorem exists_ofFragment (wf : x.WellFormed) : ∃ d, ofFragment none x = .ok d := by
  obtain ⟨start, hStart, hNumbered, hEq⟩ := ofFragment_eq wf
  rw [hEq]
  exact hStart.exists_explore wf hNumbered

end Construction

section Run

variable {x : Fragment σ} {d : Dfa σ}

theorem Simulates.wellFormed (h : Simulates x d) : d.WellFormed where
  ids := h.ids
  size_pos := by
    obtain ⟨members, -, hFirst⟩ := h.first
    exact lt_size_of_members? hFirst
  mem_graph := h.mem_graph
  target_lt i a t hEdge := (h.lt_size_of_joins hEdge).2
  symbol_mem i a t hEdge := by
    rw [h.alphabet_eq]
    exact ((h.joins_iff i a t).mp hEdge).1
  ascending := h.ascending
  accepting_lt i hi := by
    obtain ⟨members, hMembers, -⟩ := (h.accepting_iff i).mp hi
    exact lt_size_of_members? hMembers

theorem Simulates.idxOf?_empty (h : Simulates x d) : d.states.idxOf? ∅ = none :=
  List.idxOf?_eq_none_iff.mpr h.nonempty

/-- If the simulation steps to any state at all, an edge leads to the state of the set. -/
theorem Simulates.exists_joins (h : Simulates x d) (wf : x.WellFormed) {s : State} {a : σ}
    {members targets : StateSet} (hSource : d.members? s = some members)
    (hStep : x.step members a = .ok targets) (hNonempty : targets ≠ ∅) :
    ∃ t, d.graph.Joins s a t ∧ d.members? t = some targets := by
  -- a step over a symbol outside the alphabet was never tried, but it leads nowhere
  have ha : a ∈ x.alphabet :=
    Decidable.byContradiction fun hNew => hNonempty (wf.step_eq_empty hNew hStep)
  obtain ⟨t, ht⟩ :=
    List.getElem?_of_mem (h.registered s a members targets ha hSource hStep hNonempty)
  exact ⟨t, (h.joins_iff s a t).mpr ⟨ha, members, targets, hSource, hStep, ht⟩, ht⟩

/-- The transition of a state leads to the state of the set that the simulation steps
to, if the set has one. -/
theorem Simulates.transition_eq (h : Simulates x d) (wf : x.WellFormed) {s : State} {a : σ}
    {members targets : StateSet} (hSource : d.members? s = some members)
    (hStep : x.step members a = .ok targets) :
    d.transition s a = d.states.idxOf? targets := by
  ext t
  rw [h.wellFormed.transition_eq_some_iff, h.joins_iff, idxOf?_eq_some_iff h.nodup]
  constructor
  · intro hSome
    obtain ⟨-, source, found, hOther, hFound, hTarget⟩ := hSome
    cases hSource.symm.trans hOther
    cases hStep.symm.trans hFound
    exact hTarget
  · intro hTarget
    refine ⟨Decidable.byContradiction fun ha => ?_, members, targets, hSource, hStep, hTarget⟩
    rw [wf.step_eq_empty ha hStep] at hTarget
    exact h.nonempty (mem_states_of_members? hTarget)

/-- The run on a word ends in the state of the set that the simulation ends in, and a
set without a state is empty. -/
theorem Simulates.runFrom_eq (h : Simulates x d) (wf : x.WellFormed) {word : List σ}
    {states : StateSet} (hRun : x.run word = .ok states) :
    d.runFrom d.start word = d.states.idxOf? states ∧ (states = ∅ ∨ states ∈ d.states) := by
  induction word using List.reverseRecOn generalizing states with
  | nil =>
      rw [Fragment.run_nil] at hRun
      obtain ⟨members, hInitial, hFirst⟩ := h.first
      cases hRun.symm.trans hInitial
      rw [(idxOf?_eq_some_iff h.nodup).mpr hFirst]
      exact ⟨rfl, Or.inr (mem_states_of_members? hFirst)⟩
  | append_singleton word a ih =>
      rw [Fragment.run_append_singleton] at hRun
      obtain ⟨before, hBefore, hStep⟩ := Outcome.bind_eq_ok_iff.mp hRun
      obtain ⟨hPrefix, hCase⟩ := ih hBefore
      rw [runFrom_append_singleton, hPrefix]
      rcases hCase with rfl | hMem
      · rw [Fragment.step_empty hStep, h.idxOf?_empty]
        exact ⟨rfl, Or.inl rfl⟩
      · obtain ⟨i, hi⟩ := List.getElem?_of_mem hMem
        rw [(idxOf?_eq_some_iff h.nodup).mpr hi, Option.bind_some, h.transition_eq wf hi hStep]
        refine ⟨rfl, Classical.or_iff_not_imp_left.mpr fun hNonempty => ?_⟩
        obtain ⟨t, -, ht⟩ := h.exists_joins wf hi hStep hNonempty
        exact mem_states_of_members? ht

theorem Simulates.isAccepting_eq (h : Simulates x d) {s : State} {members : StateSet}
    (hs : d.members? s = some members) : d.isAccepting s = decide (x.final ∈ members) := by
  rw [isAccepting, decide_eq_decide, h.accepting_iff, hs]
  simp

/-- The automaton and the fragment accept the same words. -/
theorem Simulates.accepts_eq (h : Simulates x d) (wf : x.WellFormed) (word : List σ) :
    x.accepts word = .ok (d.accepts word) := by
  obtain ⟨states, hStates⟩ := wf.exists_run word
  obtain ⟨hRun, hCase⟩ := h.runFrom_eq wf hStates
  rw [Fragment.accepts_of_run hStates, accepts, acceptsFrom, hRun]
  apply congrArg Except.ok
  rcases hCase with rfl | hMem
  · rw [h.idxOf?_empty, decide_eq_false SortedSet.not_mem_empty]
  · obtain ⟨i, hi⟩ := List.getElem?_of_mem hMem
    rw [(idxOf?_eq_some_iff h.nodup).mpr hi]
    exact (h.isAccepting_eq hi).symm

/-- The subset construction never fails on a well-formed fragment, and the automaton
accepts what the fragment accepts. A word leads the automaton anywhere exactly if it
leads the simulation to some state, and then to the state that stands for the set. -/
theorem determinize_follows_run (hValid : x.validate = .ok ()) :
    ∃ d, x.determinize = .ok d ∧ ∀ word, x.accepts word = .ok (d.accepts word) ∧
      ∃ states, x.run word = .ok states ∧
        ((∃ s, d.runFrom d.start word = some s) ↔ states ≠ ∅) ∧
        ∀ s, d.runFrom d.start word = some s → d.members? s = some states := by
  have wf := Fragment.validate_eq_ok_iff.mp hValid
  obtain ⟨d, hd⟩ := exists_ofFragment wf
  have h := (simulates_of_ofFragment hd).1
  refine ⟨d, hd, fun word => ⟨h.accepts_eq wf word, ?_⟩⟩
  obtain ⟨states, hStates⟩ := wf.exists_run word
  obtain ⟨hRun, hCase⟩ := h.runFrom_eq wf hStates
  refine ⟨states, hStates, ?_, ?_⟩
  · rw [hRun, ← Option.isSome_iff_exists, List.isSome_idxOf?]
    constructor
    · intro hMem hEmpty
      exact h.nonempty (hEmpty ▸ hMem)
    · exact fun hNonempty => hCase.resolve_left hNonempty
  · intro s hs
    rw [hRun] at hs
    exact (idxOf?_eq_some_iff h.nodup).mp hs

/-- A fragment whose start state is final, with a silent cycle and a loop. -/
def looped : Fragment Char where
  session := 0
  graph := ((Graph.empty.addEdge 0 1 .epsilon).addEdge 1 0 .epsilon).addEdge 1 1 (.symbol 'a')
  start := 0
  final := 0
  alphabet := .ofList ['a', 'b']

theorem determinize_follows_run_looped :
    looped.validate = .ok () ∧ ∃ d, looped.determinize = .ok d ∧
      looped.accepts ['a', 'a'] = .ok (d.accepts ['a', 'a']) ∧
      looped.accepts ['a', 'b'] = .ok (d.accepts ['a', 'b']) := by
  have hValid : looped.validate = .ok () := by rfl
  obtain ⟨d, hd, hWords⟩ := determinize_follows_run hValid
  exact ⟨hValid, d, hd, (hWords ['a', 'a']).1, (hWords ['a', 'b']).1⟩

end Run

end FiniteAutomata.Dfa
