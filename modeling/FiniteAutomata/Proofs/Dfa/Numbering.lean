import FiniteAutomata.Proofs.Dfa.Automaton

/-! Numbering states in the order in which they are found. If every state has an
edge that leads to it before any edge leads to a later state, then the numbers
depend on the words alone: two such automata without superfluous states that accept
the same words are equal, number by number. -/
namespace FiniteAutomata.Dfa

variable {σ : Type} [Symbol σ]

/-- Whether the edge that leaves `s` with `a` is tried no later than the one that
leaves `t` with `b`. -/
def TriedBy (s : State) (a : σ) (t : State) (b : σ) : Prop :=
  s < t ∨ s = t ∧ (compare a b).isLE

theorem triedBy_refl (s : State) (a : σ) : TriedBy s a s a :=
  Or.inr ⟨rfl, Std.ReflCmp.isLE_rfl⟩

theorem TriedBy.antisymm {s t : State} {a b : σ} (h : TriedBy s a t b) (h' : TriedBy t b s a) :
    s = t ∧ a = b := by
  rcases h with hLt | ⟨rfl, hLe⟩
  · rcases h' with hGt | ⟨rfl, -⟩
    · exact False.elim (Nat.lt_asymm hLt hGt)
    · exact False.elim (Nat.lt_irrefl _ hLt)
  · rcases h' with hGt | ⟨-, hGe⟩
    · exact False.elim (Nat.lt_irrefl _ hGt)
    · exact ⟨rfl, Std.LawfulEqCmp.compare_eq_iff_eq.mp (Std.OrientedCmp.isLE_antisymm hLe hGe)⟩

/-- The states are numbered in the order in which they are found: to every state but
the start an edge leads from a smaller one, and it is tried no later than any edge
to the state itself or to a later one. -/
def Numbered (d : Dfa σ) : Prop :=
  ∀ j : State, d.start < j → j < d.size → ∃ i a, i < j ∧ d.graph.Joins i a j ∧
    ∀ s b t, j ≤ t → d.graph.Joins s b t → TriedBy i a s b

/-- Every state of a numbered automaton is reached by some word. -/
theorem Numbered.exists_runFrom {d : Dfa σ} (hd : d.Numbered) (wf : d.WellFormed) {s : State}
    (hs : s < d.size) : ∃ word, d.runFrom d.start word = some s := by
  induction s using Nat.strongRecOn with
  | ind s ih =>
      rcases Nat.eq_zero_or_pos s with rfl | hPos
      · exact ⟨[], rfl⟩
      · obtain ⟨i, a, hLt, hEdge, -⟩ := hd s hPos hs
        obtain ⟨word, hWord⟩ := ih i hLt (Nat.lt_trans hLt hs)
        refine ⟨word ++ [a], ?_⟩
        rw [runFrom_append_singleton, hWord, Option.bind_some]
        exact wf.transition_eq_some_iff.mpr hEdge

/-- One more edge that is tried last keeps the numbering, whether it leads to an old
state or to a new one behind all others. -/
theorem Numbered.addEdge {d e : Dfa σ} {s t : State} {a : σ} (hd : d.Numbered)
    (hSize : e.size = d.size ∨ e.size = d.size + 1 ∧ t = d.size) (hs : s < d.size)
    (hBelow : ∀ i b k, d.graph.Joins i b k → k < d.size)
    (hLast : ∀ i b k, d.graph.Joins i b k → TriedBy i b s a)
    (hJoins : ∀ i b k, e.graph.Joins i b k ↔ d.graph.Joins i b k ∨ i = s ∧ b = a ∧ k = t) :
    e.Numbered := by
  intro j hPos hLt
  by_cases hOld : j < d.size
  · obtain ⟨i, b, hSource, hEdge, hFirst⟩ := hd j hPos hOld
    refine ⟨i, b, hSource, (hJoins i b j).mpr (Or.inl hEdge), fun u c k hk hLater => ?_⟩
    rcases (hJoins u c k).mp hLater with hLater | ⟨rfl, rfl, rfl⟩
    · exact hFirst u c k hk hLater
    · exact hLast i b j hEdge
  · obtain ⟨hGrown, rfl⟩ : e.size = d.size + 1 ∧ t = d.size :=
      hSize.resolve_left fun hSame => hOld (hSame ▸ hLt)
    rw [hGrown] at hLt
    have hNew : j = d.size := Nat.le_antisymm (Nat.le_of_lt_succ hLt) (Nat.le_of_not_lt hOld)
    subst hNew
    refine ⟨s, a, hs, (hJoins s a d.size).mpr (Or.inr ⟨rfl, rfl, rfl⟩), fun u c k hk hLater => ?_⟩
    rcases (hJoins u c k).mp hLater with hLater | ⟨rfl, rfl, -⟩
    · exact False.elim (Nat.lt_irrefl _ (Nat.lt_of_lt_of_le (hBelow u c k hLater) hk))
    · exact triedBy_refl u c

/-- Two numbered automata whose states are put in pairs. The starts are a pair, a step
from either state of a pair has a step from the other one to a pair, and no state is in
two pairs. -/
structure Matching (d e : Dfa σ) (R : State → State → Prop) : Prop where
  left : d.WellFormed ∧ d.Numbered
  right : e.WellFormed ∧ e.Numbered
  start : R d.start e.start
  inside : ∀ s t, R s t → s < d.size ∧ t < e.size
  forth : ∀ s t a s', R s t → d.graph.Joins s a s' → ∃ t', e.graph.Joins t a t' ∧ R s' t'
  back : ∀ s t a t', R s t → e.graph.Joins t a t' → ∃ s', d.graph.Joins s a s' ∧ R s' t'
  unique : Relator.BiUnique R

namespace Matching

variable {d e : Dfa σ} {R : State → State → Prop}

theorem symm (h : Matching d e R) : Matching e d (flip R) where
  left := h.right
  right := h.left
  start := h.start
  inside s t hPair := (h.inside t s hPair).symm
  forth s t a s' hPair hEdge := h.back t s a s' hPair hEdge
  back s t a t' hPair hEdge := h.forth t s a t' hPair hEdge
  unique := ⟨fun _ _ _ hst hut => h.unique.2 hst hut, h.unique.1.flip⟩

/-- Every state has a partner. -/
theorem exists_partner (h : Matching d e R) {s : State} (hs : s < d.size) : ∃ t, R s t := by
  induction s using Nat.strongRecOn with
  | ind s ih =>
      rcases Nat.eq_zero_or_pos s with rfl | hPos
      · exact ⟨e.start, h.start⟩
      · obtain ⟨i, a, hLt, hEdge, -⟩ := h.left.2 s hPos hs
        obtain ⟨t, hPair⟩ := ih i hLt (Nat.lt_trans hLt hs)
        obtain ⟨t', -, hPair'⟩ := h.forth i t a s hPair hEdge
        exact ⟨t', hPair'⟩

/-- As long as smaller states are their own partners, an edge from one of them to a state
has one to its partner beside it. -/
theorem joins_partner (h : Matching d e R) {n i s t : State} {a : σ}
    (hOwn : ∀ m < n, ∀ t, R m t → t = m) (hi : i < n) (hEdge : d.graph.Joins i a s)
    (hPair : R s t) : e.graph.Joins i a t := by
  obtain ⟨k, hSource⟩ := h.exists_partner (h.left.1.lt_size_of_joins hEdge)
  obtain ⟨t', hNext, hTarget⟩ := h.forth i k a s hSource hEdge
  rwa [hOwn i hi k hSource, h.unique.2 hTarget hPair] at hNext

/-- As long as smaller states are their own partners, no state has a greater one.
Otherwise both automata would find the state and its partner over the same edge. -/
theorem not_lt_partner (h : Matching d e R) {n k : State}
    (hLeft : ∀ m < n, ∀ t, R m t → t = m) (hRight : ∀ m < n, ∀ s, R s m → s = m)
    (hPair : R n k) : ¬ n < k := by
  intro hLt
  obtain ⟨hn, hk⟩ := h.inside n k hPair
  have hn' : n < e.size := Nat.lt_trans hLt hk
  have hNe : ¬ R n n := fun hSelf => Nat.ne_of_lt hLt (h.unique.2 hSelf hPair)
  have hPos : d.start < n := by
    apply Nat.pos_of_ne_zero
    intro hZero
    subst hZero
    exact hNe h.start
  obtain ⟨j, hPartner⟩ := h.symm.exists_partner hn'
  have hGreater : n < j := by
    rcases Nat.lt_trichotomy j n with hLess | rfl | hGreater
    · exact False.elim (Nat.ne_of_gt hLess (hLeft j hLess n hPartner))
    · exact False.elim (hNe hPartner)
    · exact hGreater
  -- `n` and its two partners: each automaton finds its own `n` before the partner of the
  -- other one's `n`, so the edges that find them cannot come apart
  obtain ⟨i, a, hi, hEdge, hFirst⟩ := h.left.2 n hPos hn
  obtain ⟨i', a', hi', hEdge', hFirst'⟩ := h.right.2 n hPos hn'
  have hOver : e.graph.Joins i a k := h.joins_partner hLeft hi hEdge hPair
  have hOver' : d.graph.Joins i' a' j := h.symm.joins_partner hRight hi' hEdge' hPartner
  obtain ⟨rfl, rfl⟩ := TriedBy.antisymm (hFirst i' a' j (Nat.le_of_lt hGreater) hOver')
    (hFirst' i a k (Nat.le_of_lt hLt) hOver)
  exact Nat.ne_of_lt hLt (h.right.1.joins_unique hEdge' hOver)

/-- Every state is its own partner. -/
theorem partner_eq (h : Matching d e R) (n : State) :
    (∀ t, R n t → t = n) ∧ ∀ s, R s n → s = n := by
  induction n using Nat.strongRecOn with
  | ind n ih =>
      constructor
      · intro t hPair
        rcases Nat.lt_trichotomy t n with hLess | hEq | hGreater
        · exact ((ih t hLess).2 n hPair).symm
        · exact hEq
        · exact False.elim (h.not_lt_partner (fun m hm => (ih m hm).1) (fun m hm => (ih m hm).2)
            hPair hGreater)
      · intro s hPair
        rcases Nat.lt_trichotomy s n with hLess | hEq | hGreater
        · exact ((ih s hLess).1 n hPair).symm
        · exact hEq
        · exact False.elim (h.symm.not_lt_partner (fun m hm => (ih m hm).2)
            (fun m hm => (ih m hm).1) hPair hGreater)

theorem self (h : Matching d e R) {s : State} (hs : s < d.size) : R s s := by
  obtain ⟨t, hPair⟩ := h.exists_partner hs
  exact (h.partner_eq s).1 t hPair ▸ hPair

theorem size_le (h : Matching d e R) : d.size ≤ e.size :=
  Nat.le_of_not_lt fun hLt => Nat.lt_irrefl e.size (h.inside e.size e.size (h.self hLt)).2

theorem size_eq (h : Matching d e R) : d.size = e.size := Nat.le_antisymm h.size_le h.symm.size_le

theorem joins_of_joins (h : Matching d e R) {s t : State} {a : σ} (hEdge : d.graph.Joins s a t) :
    e.graph.Joins s a t :=
  h.joins_partner (fun m _ => (h.partner_eq m).1) (Nat.lt_succ_self s) hEdge
    (h.self (h.left.1.target_lt s a t hEdge))

theorem graph_eq (h : Matching d e R) : d.graph = e.graph :=
  h.left.1.graph_eq h.right.1 h.size_eq fun _ _ _ => ⟨h.joins_of_joins, h.symm.joins_of_joins⟩

end Matching

/-- A well-formed automaton without superfluous states, numbered in the order in which
its states are found. -/
structure Canonical (d : Dfa σ) : Prop where
  wellFormed : d.WellFormed
  numbered : d.Numbered
  alive : ∀ s a t, d.graph.Joins s a t → d.Alive t
  distinct : ∀ s t, s < d.size → t < d.size → d.acceptsFrom s = d.acceptsFrom t → s = t

namespace Canonical

variable {d e : Dfa σ}

/-- All states but the start are alive. -/
theorem alive_of_pos (hd : d.Canonical) {s : State} (hPos : d.start < s) (hs : s < d.size) :
    d.Alive s := by
  obtain ⟨i, a, -, hEdge, -⟩ := hd.numbered s hPos hs
  exact hd.alive i a s hEdge

/-- Of two states that accept the same, both can read the same symbols. -/
theorem exists_joins (hd : d.Canonical) (he : e.Canonical) {s t s' : State} {a : σ}
    (hEq : d.acceptsFrom s = e.acceptsFrom t) (hEdge : d.graph.Joins s a s') :
    ∃ t', e.graph.Joins t a t' ∧ d.acceptsFrom s' = e.acceptsFrom t' := by
  obtain ⟨t', hNext, hSame⟩ := exists_transition_of_acceptsFrom_eq hEq
    (hd.wellFormed.transition_eq_some_iff.mpr hEdge) (hd.alive s a s' hEdge)
  exact ⟨t', he.wellFormed.transition_eq_some_iff.mp hNext, hSame⟩

/-- The states of canonical automata that accept the same are pairs. -/
theorem matching (hd : d.Canonical) (he : e.Canonical)
    (hStart : d.acceptsFrom d.start = e.acceptsFrom e.start) :
    Matching d e fun s t => s < d.size ∧ t < e.size ∧ d.acceptsFrom s = e.acceptsFrom t where
  left := ⟨hd.wellFormed, hd.numbered⟩
  right := ⟨he.wellFormed, he.numbered⟩
  start := ⟨hd.wellFormed.size_pos, he.wellFormed.size_pos, hStart⟩
  inside s t hPair := ⟨hPair.1, hPair.2.1⟩
  forth s t a s' hPair hEdge := by
    obtain ⟨t', hNext, hSame⟩ := exists_joins hd he hPair.2.2 hEdge
    exact ⟨t', hNext, hd.wellFormed.target_lt s a s' hEdge, he.wellFormed.target_lt t a t' hNext,
      hSame⟩
  back s t a t' hPair hEdge := by
    obtain ⟨s', hNext, hSame⟩ := exists_joins he hd hPair.2.2.symm hEdge
    exact ⟨s', hNext, hd.wellFormed.target_lt s a s' hNext, he.wellFormed.target_lt t a t' hEdge,
      hSame.symm⟩
  unique := by
    constructor
    · intro s s' t h h'
      exact hd.distinct s s' h.1 h'.1 (h.2.2.trans h'.2.2.symm)
    · intro s t t' h h'
      exact he.distinct t t' h.2.1 h'.2.1 (h.2.2.symm.trans h'.2.2)

/-- Two canonical automata that accept the same words have the same accepting states
and the same graph. -/
theorem eq_of_acceptsFrom_eq (hd : d.Canonical) (he : e.Canonical)
    (hStart : d.acceptsFrom d.start = e.acceptsFrom e.start) :
    d.accepting = e.accepting ∧ d.graph = e.graph := by
  have hPairs := hd.matching he hStart
  refine ⟨SortedSet.ext fun s => ?_, hPairs.graph_eq⟩
  by_cases hs : s < d.size
  · have hEnd := congrFun (hPairs.self hs).2.2 []
    rw [acceptsFrom_nil, acceptsFrom_nil] at hEnd
    exact decide_eq_decide.mp hEnd
  · exact iff_of_false (fun h => hs (hd.wellFormed.accepting_lt s h))
      fun h => hs (hPairs.size_eq ▸ he.wellFormed.accepting_lt s h)

end Canonical

end FiniteAutomata.Dfa
