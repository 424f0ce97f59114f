import FiniteAutomata.Proofs.Dfa.Minimize

/-! What the states of an automaton stand for. The set of a state holds the states of the
fragment from which the words are spelled that the state accepts; this is so for the subset
construction and stays so when states are grouped, which is why groups never stand for the
same set. -/
namespace FiniteAutomata.Dfa

variable {σ : Type} [Symbol σ] {x : Fragment σ} {d : Dfa σ}

section Subset

variable {i : State} {a : σ} {members targets : StateSet}

/-- The set of a state is closed under edges that read nothing. -/
theorem Simulates.mem_of_silent (h : Simulates x d) (hNumbered : d.Numbered)
    (hi : d.members? i = some members) {p q : State} (hp : p ∈ members)
    (path : x.graph.Path p [] q) : q ∈ members := by
  rcases Nat.eq_zero_or_pos i with rfl | hPos
  · obtain ⟨first, hInitial, hFirst⟩ := h.first
    cases hi.symm.trans hFirst
    rw [Fragment.mem_initial_iff hInitial] at hp ⊢
    exact hp.trans path
  · obtain ⟨j, a, -, hEdge, -⟩ := hNumbered i hPos (lt_size_of_members? hi)
    obtain ⟨-, source, found, -, hStep, hTarget⟩ := (h.joins_iff j a i).mp hEdge
    cases hi.symm.trans hTarget
    rw [Fragment.mem_step_iff hStep] at hp ⊢
    obtain ⟨s, hs, k, hRead, before⟩ := hp
    exact ⟨s, hs, k, hRead, before.trans path⟩

/-- A transition is missing if the simulation steps to no state; otherwise it leads to the
state of the set that the simulation steps to. -/
theorem Simulates.transition_cases (h : Simulates x d) (wf : x.WellFormed)
    (hi : d.members? i = some members) (hStep : x.step members a = .ok targets) :
    targets = ∅ ∧ d.transition i a = none ∨
      ∃ t, d.transition i a = some t ∧ d.members? t = some targets := by
  by_cases hEmpty : targets = ∅
  · rw [h.transition_eq wf hi hStep]
    exact Or.inl ⟨hEmpty, hEmpty ▸ h.idxOf?_empty⟩
  · obtain ⟨t, hEdge, ht⟩ := h.exists_joins wf hi hStep hEmpty
    exact Or.inr ⟨t, h.wellFormed.transition_eq_some_iff.mpr hEdge, ht⟩

/-- Reading a symbol first, the words spelled from a set are those spelled from the set that
the simulation steps to. -/
theorem Simulates.exists_path_cons_iff (h : Simulates x d) (hNumbered : d.Numbered)
    (hi : d.members? i = some members) (hStep : x.step members a = .ok targets)
    {word : List σ} {t : State} :
    (∃ p ∈ members, x.graph.Path p (a :: word) t) ↔ ∃ q ∈ targets, x.graph.Path q word t := by
  simp only [Graph.Path.cons_iff, Fragment.mem_step_iff hStep]
  constructor
  · rintro ⟨p, hp, r, q, before, hRead, after⟩
    exact ⟨q, ⟨r, h.mem_of_silent hNumbered hi hp before, q, hRead, .nil q⟩, after⟩
  · rintro ⟨q, ⟨p, hp, r, hRead, before⟩, after⟩
    exact ⟨p, hp, p, r, .nil p, hRead, before.trans after⟩

/-- A state accepts the words that are spelled from a state of the fragment in its set. -/
theorem Simulates.acceptsFrom_iff (h : Simulates x d) (hNumbered : d.Numbered)
    (wf : x.WellFormed) (hi : d.members? i = some members) (word : List σ) :
    d.acceptsFrom i word = true ↔ ∃ p ∈ members, x.graph.Path p word x.final := by
  induction word generalizing i members with
  | nil =>
      rw [acceptsFrom_nil, h.isAccepting_eq hi, decide_eq_true_iff]
      constructor
      · exact fun hFinal => ⟨x.final, hFinal, .nil x.final⟩
      · rintro ⟨p, hp, path⟩
        exact h.mem_of_silent hNumbered hi hp path
  | cons a word ih =>
      obtain ⟨targets, hStep⟩ := wf.exists_step (h.inside members (mem_states_of_members? hi)) a
      rw [acceptsFrom_cons, h.exists_path_cons_iff hNumbered hi hStep]
      rcases h.transition_cases wf hi hStep with ⟨rfl, hNone⟩ | ⟨t, hNext, ht⟩
      · simp [hNone]
      · rw [hNext, Option.any_some]
        exact ih ht

end Subset

section Groups

variable {p : Partition} {i : State} {members : StateSet}

theorem exists_members? (h : i < d.size) : ∃ members, d.members? i = some members :=
  ⟨_, List.getElem?_eq_getElem h⟩

/-- A group stands for what its states stand for. -/
theorem exists_members?_quotient (d : Dfa σ) (live : StateSet) {g : List State}
    (hg : p[i]? = some g) :
    ∃ members, (d.quotient live p).members? i = some members ∧
      ∀ v, v ∈ members ↔ ∃ s ∈ g, ∃ m, d.members? s = some m ∧ v ∈ m := by
  have hFound : (d.quotient live p).members? i =
      some (SortedSet.ofList (g.flatMap fun s => ((d.members? s).getD ∅).toList)) := by
    rw [members?, states, quotient, List.getElem?_map, List.getElem?_mapIdx, hg]
    rfl
  refine ⟨_, hFound, fun v => ?_⟩
  rw [SortedSet.mem_ofList, List.mem_flatMap]
  refine exists_congr fun s => and_congr_right fun _ => ?_
  cases d.members? s <;> simp

/-- The set of a group, taken apart. -/
theorem mem_members?_quotient {live : StateSet}
    (hi : (d.quotient live p).members? i = some members) :
    ∃ g, p[i]? = some g ∧ ∀ v, v ∈ members ↔ ∃ s ∈ g, ∃ m, d.members? s = some m ∧ v ∈ m := by
  have hLt : i < p.length := size_quotient (d := d) live ▸ lt_size_of_members? hi
  obtain ⟨found, hFound, hMem⟩ := exists_members?_quotient d live (List.getElem?_eq_getElem hLt)
  cases hi.symm.trans hFound
  exact ⟨_, List.getElem?_eq_getElem hLt, hMem⟩

/-- The states of a group are kept, and the group accepts what they accept. -/
theorem Partition.Exact.of_mem_group (hExact : p.Exact d) (wf : d.WellFormed) {g : List State}
    (hg : p[i]? = some g) {s : State} (hs : s ∈ g) :
    s < d.size ∧ (d.quotient d.live p).acceptsFrom i = d.acceptsFrom s := by
  have hKept : s ∈ d.kept d.live :=
    hExact.mem_flatten_iff.mp (List.mem_flatten_of_mem (List.mem_of_getElem? hg) hs)
  have hSame := acceptsFrom_quotient hExact wf hKept
  rw [groupOf_eq hExact.nodup hg hs] at hSame
  exact ⟨wf.lt_size_of_mem_kept hKept, hSame⟩

/-- A group has a state, and what its set holds the group's set holds. -/
theorem Partition.Exact.exists_members_subset (hExact : p.Exact d) (wf : d.WellFormed)
    (hi : (d.quotient d.live p).members? i = some members) :
    ∃ s m, d.members? s = some m ∧ (∀ v ∈ m, v ∈ members) ∧
      (d.quotient d.live p).acceptsFrom i = d.acceptsFrom s := by
  obtain ⟨g, hg, hMem⟩ := mem_members?_quotient hi
  have hHead := headD_mem (hExact.nonempty g (List.mem_of_getElem? hg))
  obtain ⟨hLt, hSame⟩ := hExact.of_mem_group wf hg hHead
  obtain ⟨m, hm⟩ := exists_members? hLt
  exact ⟨_, m, hm, fun v hv => (hMem v).mpr ⟨_, hHead, m, hm, hv⟩, hSame⟩

/-- What the set of a group holds the set of one of its states holds. -/
theorem Partition.Exact.exists_members_of_mem (hExact : p.Exact d) (wf : d.WellFormed)
    (hi : (d.quotient d.live p).members? i = some members) {v : State} (hv : v ∈ members) :
    ∃ s m, d.members? s = some m ∧ v ∈ m ∧ (∀ w ∈ m, w ∈ members) ∧
      (d.quotient d.live p).acceptsFrom i = d.acceptsFrom s := by
  obtain ⟨g, hg, hMem⟩ := mem_members?_quotient hi
  obtain ⟨s, hs, m, hm, hIn⟩ := (hMem v).mp hv
  exact ⟨s, m, hm, hIn, fun w hw => (hMem w).mpr ⟨s, hs, m, hm, hw⟩,
    (hExact.of_mem_group wf hg hs).2⟩

/-- The set of a group is closed under edges that read nothing. -/
theorem Partition.Exact.mem_of_silent_quotient (hExact : p.Exact d) (h : Simulates x d)
    (hNumbered : d.Numbered) (hi : (d.quotient d.live p).members? i = some members)
    {v w : State} (hv : v ∈ members) (path : x.graph.Path v [] w) : w ∈ members := by
  obtain ⟨s, m, hm, hIn, hSubset, -⟩ := hExact.exists_members_of_mem h.wellFormed hi hv
  exact hSubset w (h.mem_of_silent hNumbered hm hIn path)

/-- A group accepts the words that are spelled from a state of the fragment in its set. -/
theorem Partition.Exact.acceptsFrom_quotient_iff (hExact : p.Exact d) (h : Simulates x d)
    (hNumbered : d.Numbered) (wf : x.WellFormed)
    (hi : (d.quotient d.live p).members? i = some members) (word : List σ) :
    (d.quotient d.live p).acceptsFrom i word = true ↔
      ∃ v ∈ members, x.graph.Path v word x.final := by
  constructor
  · intro hAccepts
    obtain ⟨s, m, hm, hSubset, hSame⟩ := hExact.exists_members_subset h.wellFormed hi
    rw [hSame, h.acceptsFrom_iff hNumbered wf hm] at hAccepts
    obtain ⟨v, hv, path⟩ := hAccepts
    exact ⟨v, hSubset v hv, path⟩
  · rintro ⟨v, hv, path⟩
    obtain ⟨s, m, hm, hIn, -, hSame⟩ := hExact.exists_members_of_mem h.wellFormed hi hv
    rw [hSame, h.acceptsFrom_iff hNumbered wf hm]
    exact ⟨v, hIn, path⟩

end Groups

section Represented

/-- The vertices of the graph are the numbers of the states. -/
theorem WellFormed.vertices_eq (wf : d.WellFormed) : d.graph.vertices = List.range d.size := by
  apply Graph.vertices_eq_of_ascending
  · exact List.pairwise_lt_range.imp fun hLt => Nat.compare_eq_lt.mpr hLt
  · exact fun s => (wf.mem_graph s).trans List.mem_range.symm

/-- An automaton whose states, numbered from 0 on, are the vertices of its graph and stand
for different nonempty sets of vertices of a fragment, each closed under edges that read
nothing. -/
structure Represents (d : Dfa σ) (x : Fragment σ) : Prop extends WellFormed d where
  numbered : ∀ i : Nat, d.numberedStates[i]? = (d.members? i).map fun members => (i, members)
  vertices_eq : d.graph.vertices = List.range d.size
  alphabet_eq : d.alphabet = x.alphabet
  nodup : d.states.Nodup
  nonempty : ∅ ∉ d.states
  inside : ∀ members ∈ d.states, ∀ v ∈ members, v ∈ x.graph
  closed : ∀ members ∈ d.states, ∀ v ∈ members, ∀ w, x.graph.Joins v .epsilon w → w ∈ members
  accepting_iff : ∀ i, i ∈ d.accepting ↔ ∃ members, d.members? i = some members ∧ x.final ∈ members

/-- The subset construction gives such an automaton. -/
theorem Simulates.represents (h : Simulates x d) (hNumbered : d.Numbered) : d.Represents x where
  toWellFormed := h.wellFormed
  numbered := h.wellFormed.getElem?_numberedStates
  vertices_eq := h.wellFormed.vertices_eq
  alphabet_eq := h.alphabet_eq
  nodup := h.nodup
  nonempty := h.nonempty
  inside := h.inside
  closed members hMem v hv w hEdge := by
    obtain ⟨i, hi⟩ := List.getElem?_of_mem hMem
    exact h.mem_of_silent hNumbered hi hv (.silent hEdge (.nil w))
  accepting_iff := h.accepting_iff

/-- Grouping the states keeps all this. Two groups never stand for the same set, since then
they would accept the same words. -/
theorem Partition.Exact.represents_quotient {p : Partition} (hExact : p.Exact d)
    (h : Simulates x d) (hNumbered : d.Numbered) (wf : x.WellFormed) :
    (d.quotient d.live p).Represents x where
  toWellFormed := wellFormed_quotient hExact h.wellFormed
  numbered := (wellFormed_quotient hExact h.wellFormed).getElem?_numberedStates
  vertices_eq := (wellFormed_quotient hExact h.wellFormed).vertices_eq
  alphabet_eq := h.alphabet_eq
  nodup := by
    apply List.nodup_iff_getElem?_ne_getElem?.mpr
    intro i j hij hj hEq
    have hi := hij.trans hj
    obtain ⟨members, hMembers⟩ := exists_members? (d := d.quotient d.live p) hi
    have hOther : (d.quotient d.live p).members? j = some members :=
      hEq.symm.trans hMembers
    apply Nat.ne_of_lt hij
    apply (canonical_quotient hExact h.wellFormed hNumbered).distinct i j hi hj
    funext word
    rw [Bool.eq_iff_iff, hExact.acceptsFrom_quotient_iff h hNumbered wf hMembers,
      hExact.acceptsFrom_quotient_iff h hNumbered wf hOther]
  nonempty hMem := by
    obtain ⟨i, hi⟩ := List.getElem?_of_mem hMem
    obtain ⟨s, m, hm, hSubset, -⟩ := hExact.exists_members_subset h.wellFormed hi
    apply h.nonempty
    have hEmpty : m = ∅ := SortedSet.eq_empty_iff.mpr fun v hv =>
      SortedSet.not_mem_empty (hSubset v hv)
    exact hEmpty ▸ mem_states_of_members? hm
  inside members hMem v hv := by
    obtain ⟨i, hi⟩ := List.getElem?_of_mem hMem
    obtain ⟨s, m, hm, hIn, -⟩ := hExact.exists_members_of_mem h.wellFormed hi hv
    exact h.inside m (mem_states_of_members? hm) v hIn
  closed members hMem v hv w hEdge := by
    obtain ⟨i, hi⟩ := List.getElem?_of_mem hMem
    exact hExact.mem_of_silent_quotient h hNumbered hi hv (.silent hEdge (.nil w))
  accepting_iff i := by
    have hWords : i ∈ (d.quotient d.live p).accepting ↔
        (d.quotient d.live p).acceptsFrom i [] = true := decide_eq_true_iff.symm
    constructor
    · intro hAccepting
      obtain ⟨members, hi⟩ :=
        exists_members? ((wellFormed_quotient hExact h.wellFormed).accepting_lt i hAccepting)
      rw [hWords, hExact.acceptsFrom_quotient_iff h hNumbered wf hi] at hAccepting
      obtain ⟨v, hv, path⟩ := hAccepting
      exact ⟨members, hi, hExact.mem_of_silent_quotient h hNumbered hi hv path⟩
    · rintro ⟨members, hi, hFinal⟩
      rw [hWords, hExact.acceptsFrom_quotient_iff h hNumbered wf hi]
      exact ⟨x.final, hFinal, .nil x.final⟩

/-- The states of the automaton of a fragment stand for different sets of its vertices. The
first stands for the set before anything is read, and every other is where a step of the
simulation leads; no state stands for the empty set, so a step that leads nowhere has no
edge. The states of the minimal automaton stand for different sets as well. -/
theorem determinize_represents (hx : x.validate = .ok ()) :
    ∃ d, x.determinize = .ok d ∧ d.Represents x ∧ d.minimize.Represents x ∧
      (∃ members, x.epsilonClosure (.singleton x.start) = .ok members ∧
        d.members? d.start = some members) ∧
      ∀ i members a, d.members? i = some members → ∃ moved targets,
        x.move members a = .ok moved ∧ x.epsilonClosure moved = .ok targets ∧
          (d.transition i a = none ↔ targets = ∅) ∧
          ∀ t, d.transition i a = some t ↔ d.members? t = some targets := by
  have wf := Fragment.validate_eq_ok_iff.mp hx
  obtain ⟨d, hd⟩ := exists_ofFragment wf
  obtain ⟨h, hNumbered⟩ := simulates_of_ofFragment hd
  have hMinimal : d.minimize.Represents x :=
    (exact_refine h.wellFormed _).represents_quotient h hNumbered wf
  refine ⟨d, hd, h.represents hNumbered, hMinimal, h.first, fun i members a hi => ?_⟩
  obtain ⟨targets, hStep⟩ := wf.exists_step (h.inside members (mem_states_of_members? hi)) a
  obtain ⟨moved, hMove, hClosure⟩ := Outcome.bind_eq_ok_iff.mp hStep
  refine ⟨moved, targets, hMove, hClosure, ?_, fun t => ?_⟩
  · rcases h.transition_cases wf hi hStep with ⟨rfl, hNone⟩ | ⟨t, hNext, ht⟩
    · exact iff_of_true hNone rfl
    · refine iff_of_false (by simp [hNext]) ?_
      rintro rfl
      exact h.nonempty (mem_states_of_members? ht)
  · rw [h.transition_eq wf hi hStep]
    exact idxOf?_eq_some_iff h.nodup

/-- Both vertices of `looped` are silently connected, so their set is all there is. -/
theorem determinize_represents_looped :
    looped.validate = .ok () ∧ ∃ d, looped.determinize = .ok d ∧ d.Represents looped ∧
      d.members? 0 = some (.ofList [0, 1]) ∧ d.transition 0 'a' = some 0 ∧
      d.transition 0 'b' = none := by
  have hValid : looped.validate = .ok () := by rfl
  obtain ⟨d, hd, h, -, ⟨members, hClosure, hFirst⟩, hSteps⟩ := determinize_represents hValid
  have hBoth : looped.epsilonClosure (.singleton looped.start) = .ok (.ofList [0, 1]) := by
    decide +kernel
  cases hClosure.symm.trans hBoth
  obtain ⟨moved, targets, hMove, hTargets, -, hNext⟩ := hSteps 0 _ 'a' hFirst
  have hMoved : looped.move (.ofList [0, 1]) 'a' = .ok (.singleton 1) := by decide +kernel
  cases hMove.symm.trans hMoved
  have hSame : looped.epsilonClosure (.singleton 1) = .ok (.ofList [0, 1]) := by decide +kernel
  cases hTargets.symm.trans hSame
  obtain ⟨moved, targets, hMove, hTargets, hNone, -⟩ := hSteps 0 _ 'b' hFirst
  have hNowhere : looped.move (.ofList [0, 1]) 'b' = .ok ∅ := by decide +kernel
  cases hMove.symm.trans hNowhere
  have hEmpty : looped.epsilonClosure ∅ = .ok ∅ := by decide +kernel
  cases hTargets.symm.trans hEmpty
  exact ⟨hValid, d, hd, h, hFirst, (hNext 0).mpr hFirst, hNone.mpr rfl⟩

end Represented

end FiniteAutomata.Dfa
