import FiniteAutomata.Proofs.Dfa.Numbering
import FiniteAutomata.Proofs.Dfa.Refinement

/-! The automaton of the groups. Each group accepts what its states accept, so no two
groups accept the same words, and the groups are again numbered in the order in which
they are found. -/
namespace FiniteAutomata.Dfa

variable {σ : Type} [Symbol σ] {d : Dfa σ} {p : Partition}

namespace Partition

/-- The smallest member of a group, which speaks for all of them. -/
def leader (p : Partition) (i : Nat) : State := (p.getD i []).headD 0

theorem leader_eq {i : Nat} {g : List State} (h : p[i]? = some g) : p.leader i = g.headD 0 := by
  rw [leader, List.getD_eq_getElem?_getD, h, Option.getD_some]

namespace Exact

theorem groupOf_eq_iff (h : p.Exact d) {s t : State} (hs : s ∈ d.kept d.live)
    (ht : t ∈ d.kept d.live) : p.groupOf s = p.groupOf t ↔ d.acceptsFrom s = d.acceptsFrom t :=
  (h.toCovers.groupOf_eq_iff hs ht).trans (h.together_iff s hs t ht)

theorem groupOf_lt (h : p.Exact d) {s : State} (hs : s ∈ d.kept d.live) :
    p.groupOf s < p.length := by
  obtain ⟨g, hg, -⟩ := exists_mem_groupOf (h.mem_flatten_iff.mpr hs)
  exact (List.getElem?_eq_some_iff.mp hg).1

theorem exists_leader_mem (h : p.Exact d) {i : Nat} (hi : i < p.length) :
    ∃ g, p[i]? = some g ∧ p.leader i ∈ g := by
  have hg := List.getElem?_eq_getElem hi
  refine ⟨p[i], hg, ?_⟩
  rw [leader_eq hg]
  exact headD_mem (h.nonempty _ (List.getElem_mem hi))

theorem leader_mem_kept (h : p.Exact d) {i : Nat} (hi : i < p.length) :
    p.leader i ∈ d.kept d.live := by
  obtain ⟨g, hg, hMem⟩ := h.exists_leader_mem hi
  exact h.mem_flatten_iff.mp (List.mem_flatten.mpr ⟨g, List.mem_of_getElem? hg, hMem⟩)

theorem groupOf_leader (h : p.Exact d) {i : Nat} (hi : i < p.length) :
    p.groupOf (p.leader i) = i := by
  obtain ⟨g, hg, hMem⟩ := h.exists_leader_mem hi
  exact groupOf_eq h.nodup hg hMem

/-- The leader of a group accepts what its members accept. -/
theorem acceptsFrom_leader (h : p.Exact d) {s : State} (hs : s ∈ d.kept d.live) :
    d.acceptsFrom (p.leader (p.groupOf s)) = d.acceptsFrom s := by
  have hLt := h.groupOf_lt hs
  exact (h.groupOf_eq_iff (h.leader_mem_kept hLt) hs).mp (h.groupOf_leader hLt)

/-- The leader of a group is its smallest member. -/
theorem leader_le (h : p.Exact d) {s : State} (hs : s ∈ d.kept d.live) :
    p.leader (p.groupOf s) ≤ s := by
  obtain ⟨g, hg, hMem⟩ := exists_mem_groupOf (h.mem_flatten_iff.mpr hs)
  have hAscending := h.ascending g (List.mem_of_getElem? hg)
  rw [leader_eq hg]
  cases g with
  | nil => cases hMem
  | cons first rest =>
      cases List.mem_cons.mp hMem with
      | inl hEq => exact Nat.le_of_eq hEq.symm
      | inr hRest => exact Nat.le_of_lt ((List.pairwise_cons.mp hAscending).1 s hRest)

theorem leader_lt_leader (h : p.Exact d) {i j : Nat} (hij : i < j) (hj : j < p.length) :
    p.leader i < p.leader j := by
  have hi := Nat.lt_trans hij hj
  rw [leader_eq (List.getElem?_eq_getElem hi), leader_eq (List.getElem?_eq_getElem hj)]
  exact List.pairwise_iff_getElem.mp h.sorted i j hi hj hij

theorem leader_le_leader (h : p.Exact d) {i j : Nat} (hij : i ≤ j) (hj : j < p.length) :
    p.leader i ≤ p.leader j := by
  cases Nat.lt_or_eq_of_le hij with
  | inl hLt => exact Nat.le_of_lt (h.leader_lt_leader hLt hj)
  | inr hEq => exact Nat.le_of_eq (congrArg p.leader hEq)

/-- A group is found before the groups of greater leaders. -/
theorem groupOf_lt_of_lt_leader (h : p.Exact d) {s : State} (hs : s ∈ d.kept d.live) {j : Nat}
    (hLt : s < p.leader j) : p.groupOf s < j := by
  apply Nat.lt_of_not_le
  intro hGe
  have hLeader := h.leader_le_leader hGe (h.groupOf_lt hs)
  exact Nat.lt_irrefl s (Nat.lt_of_lt_of_le hLt (Nat.le_trans hLeader (h.leader_le hs)))

/-- The group of the start comes first. -/
theorem groupOf_start (h : p.Exact d) (wf : d.WellFormed) : p.groupOf d.start = 0 := by
  have hStart := wf.start_mem_kept
  apply Nat.eq_zero_of_not_pos
  intro hPos
  have hLt := h.leader_lt_leader hPos (h.groupOf_lt hStart)
  exact Nat.not_lt_zero _ (Nat.lt_of_lt_of_le hLt (h.leader_le hStart))

end Exact

end Partition

section Quotient

theorem size_quotient (live : StateSet) : (d.quotient live p).size = p.length := by
  rw [size, states, quotient, List.length_map, List.length_mapIdx]

/-- The groups are numbered by their positions. -/
theorem ids_quotient (live : StateSet) :
    (d.quotient live p).entries.map DfaState.id = List.range (d.quotient live p).size := by
  rw [size_quotient, quotient]
  apply List.ext_getElem?
  intro i
  rw [List.getElem?_map, List.getElem?_mapIdx, Option.map_map]
  by_cases hi : i < p.length
  · rw [List.getElem?_eq_getElem hi, List.getElem?_range hi]
    rfl
  · have hBeyond := Nat.le_of_not_lt hi
    rw [List.getElem?_eq_none hBeyond, List.getElem?_eq_none (by simpa using hBeyond)]
    rfl

theorem arrows_quotient (live : StateSet) {i : Nat} (hi : i < p.length) :
    (d.quotient live p).graph.arrows i =
      ((d.graph.arrows (p.leader i)).filter fun b => decide (b.target ∈ live)).map
        (Arrow.rename p.groupOf) := by
  apply Graph.arrows_eq_of_arrows?
  exact (Graph.arrows?_tabulate ..).trans (if_pos hi)

theorem mem_quotient (live : StateSet) {i : Nat} :
    i ∈ (d.quotient live p).graph ↔ i < p.length := by
  rw [Graph.mem_iff, quotient, Graph.arrows?_tabulate]
  split
  next h => simp [h]
  next h => simp [h]

/-- A group leads where its leader leads, as far as the target is live. -/
theorem joins_quotient_iff (wf : d.WellFormed) {i j : State} {a : σ} :
    (d.quotient d.live p).graph.Joins i a j ↔ i < p.length ∧
      ∃ t, d.liveTransition d.live (p.leader i) a = some t ∧ p.groupOf t = j := by
  constructor
  · intro hEdge
    have hi := (mem_quotient d.live).mp (Graph.mem_of_joins hEdge)
    rw [Graph.Joins, arrows_quotient d.live hi] at hEdge
    obtain ⟨b, hb, hEq⟩ := List.mem_map.mp hEdge
    obtain ⟨hMem, hLive⟩ := List.mem_filter.mp hb
    cases hEq
    have hNext : d.transition (p.leader i) b.weight = some b.target :=
      wf.transition_eq_some_iff.mpr hMem
    have hAlive := wf.mem_live_iff.mp (of_decide_eq_true hLive)
    exact ⟨hi, b.target, wf.liveTransition_eq_some_iff.mpr ⟨hNext, hAlive⟩, rfl⟩
  · intro h
    obtain ⟨hi, t, hNext, rfl⟩ := h
    obtain ⟨hEdge, hAlive⟩ := wf.liveTransition_eq_some_iff.mp hNext
    rw [Graph.Joins, arrows_quotient d.live hi]
    refine List.mem_map.mpr ⟨⟨t, a⟩, List.mem_filter.mpr ⟨?_, ?_⟩, rfl⟩
    · exact wf.transition_eq_some_iff.mp hEdge
    · exact decide_eq_true (wf.mem_live_iff.mpr hAlive)

theorem mem_accepting_quotient (h : p.Exact d) {i : State} :
    i ∈ (d.quotient d.live p).accepting ↔ i < p.length ∧ d.isAccepting (p.leader i) = true := by
  rw [quotient, SortedSet.mem_ofList, List.mem_filter, List.mem_range]
  apply and_congr_right
  intro hi
  obtain ⟨g, hg, hLeader⟩ := h.exists_leader_mem hi
  rw [List.getD_eq_getElem?_getD, hg, Option.getD_some, List.any_eq_true]
  constructor
  · intro hAny
    obtain ⟨s, hs, hAccepting⟩ := hAny
    have hMem : ∀ t ∈ g, t ∈ d.kept d.live := fun t ht =>
      h.mem_flatten_iff.mp (List.mem_flatten.mpr ⟨g, List.mem_of_getElem? hg, ht⟩)
    have hSame := (h.together_iff _ (hMem _ hLeader) s (hMem s hs)).mp
      ⟨g, List.mem_of_getElem? hg, hLeader, hs⟩
    rw [← acceptsFrom_nil, hSame]
    exact hAccepting
  · exact fun hAccepting => ⟨_, hLeader, hAccepting⟩

theorem wellFormed_quotient (h : p.Exact d) (wf : d.WellFormed) :
    (d.quotient d.live p).WellFormed where
  ids := ids_quotient d.live
  size_pos := by
    rw [size_quotient]
    exact Nat.zero_lt_of_lt (h.groupOf_lt wf.start_mem_kept)
  mem_graph i := by rw [mem_quotient, size_quotient]
  target_lt i a j hEdge := by
    obtain ⟨-, t, hNext, rfl⟩ := (joins_quotient_iff wf).mp hEdge
    rw [size_quotient]
    exact h.groupOf_lt (wf.mem_kept_of_liveTransition hNext)
  symbol_mem i a j hEdge := by
    obtain ⟨-, t, hNext, -⟩ := (joins_quotient_iff wf).mp hEdge
    have hOld := wf.transition_eq_some_iff.mp (wf.liveTransition_eq_some_iff.mp hNext).1
    exact wf.symbol_mem _ a t hOld
  ascending i := by
    by_cases hi : i < p.length
    · rw [arrows_quotient d.live hi]
      exact List.pairwise_map.mpr ((wf.ascending _).filter _)
    · have hNone : i ∉ (d.quotient d.live p).graph := fun hMem => hi ((mem_quotient d.live).mp hMem)
      rw [Graph.arrows, Graph.arrows?_of_not_mem hNone]
      exact List.Pairwise.nil
  accepting_lt i hi := by
    rw [size_quotient]
    exact ((mem_accepting_quotient h).mp hi).1

/-- A group leads into the groups that its states lead into. -/
theorem transition_quotient (h : p.Exact d) (wf : d.WellFormed) {s : State}
    (hs : s ∈ d.kept d.live) (a : σ) :
    (d.quotient d.live p).transition (p.groupOf s) a =
      (d.liveTransition d.live s a).map p.groupOf := by
  have hOwn : (d.quotient d.live p).transition (p.groupOf s) a =
      (d.liveTransition d.live (p.leader (p.groupOf s)) a).map p.groupOf := by
    ext j
    rw [(wellFormed_quotient h wf).transition_eq_some_iff, joins_quotient_iff wf,
      and_iff_right (h.groupOf_lt hs), Option.map_eq_some_iff]
  rw [hOwn]
  rcases wf.liveTransition_cases (h.acceptsFrom_leader hs) a with ⟨hLeft, hRight⟩ |
    ⟨t, u, hLeft, hRight, hSame⟩
  · rw [hLeft, hRight]
  · rw [hLeft, hRight, Option.map_some, Option.map_some]
    have hEq := (h.groupOf_eq_iff (wf.mem_kept_of_liveTransition hLeft)
      (wf.mem_kept_of_liveTransition hRight)).mpr hSame
    rw [hEq]

/-- A group accepts what its states accept. -/
theorem acceptsFrom_quotient (h : p.Exact d) (wf : d.WellFormed) {s : State}
    (hs : s ∈ d.kept d.live) :
    (d.quotient d.live p).acceptsFrom (p.groupOf s) = d.acceptsFrom s := by
  funext word
  induction word generalizing s with
  | nil =>
      rw [acceptsFrom_nil, ← h.acceptsFrom_leader hs, acceptsFrom_nil, Bool.eq_iff_iff, isAccepting,
        decide_eq_true_iff, mem_accepting_quotient h, and_iff_right (h.groupOf_lt hs)]
  | cons a word ih =>
      rw [acceptsFrom_cons, transition_quotient h wf hs, wf.acceptsFrom_cons_live]
      cases hNext : d.liveTransition d.live s a with
      | none => rfl
      | some t => exact ih (wf.mem_kept_of_liveTransition hNext)

/-- The leader of a group is the first of its states to be found, so the edge that finds
it also finds the group. -/
theorem numbered_quotient (h : p.Exact d) (wf : d.WellFormed) (hNumbered : d.Numbered) :
    (d.quotient d.live p).Numbered := by
  intro j hPos hLt
  rw [size_quotient] at hLt
  have hLeader : d.start < p.leader j :=
    Nat.lt_of_le_of_lt (Nat.zero_le _) (h.leader_lt_leader hPos hLt)
  have hAlive : d.Alive (p.leader j) :=
    (wf.mem_kept_iff.mp (h.leader_mem_kept hLt)).resolve_right (Nat.ne_of_gt hLeader)
  obtain ⟨s, a, hs, hEdge, hFirst⟩ := hNumbered _ hLeader (wf.lt_size_of_alive hAlive)
  have hNext := wf.transition_eq_some_iff.mpr hEdge
  have hSource : s ∈ d.kept d.live := wf.mem_kept_iff.mpr (Or.inl (hAlive.of_transition hNext))
  refine ⟨p.groupOf s, a, h.groupOf_lt_of_lt_leader hSource hs, ?_, ?_⟩
  · apply (wellFormed_quotient h wf).transition_eq_some_iff.mp
    rw [transition_quotient h wf hSource, wf.liveTransition_eq_some_iff.mpr ⟨hNext, hAlive⟩,
      Option.map_some, h.groupOf_leader hLt]
  · intro i b k hk hLater
    obtain ⟨hi, t, hOther, rfl⟩ := (joins_quotient_iff wf).mp hLater
    have ht := wf.mem_kept_of_liveTransition hOther
    have hLe : p.leader j ≤ t :=
      Nat.le_trans (h.leader_le_leader hk (h.groupOf_lt ht)) (h.leader_le ht)
    have hOld := wf.transition_eq_some_iff.mp (wf.liveTransition_eq_some_iff.mp hOther).1
    rcases hFirst _ b t hLe hOld with hLess | ⟨hEq, hSymbol⟩
    · exact Or.inl (h.groupOf_lt_of_lt_leader hSource hLess)
    · exact Or.inr ⟨hEq ▸ h.groupOf_leader hi, hSymbol⟩

/-- The automaton of the groups has no superfluous states. -/
theorem canonical_quotient (h : p.Exact d) (wf : d.WellFormed) (hNumbered : d.Numbered) :
    (d.quotient d.live p).Canonical where
  wellFormed := wellFormed_quotient h wf
  numbered := numbered_quotient h wf hNumbered
  alive i a j hEdge := by
    obtain ⟨-, t, hNext, rfl⟩ := (joins_quotient_iff wf).mp hEdge
    obtain ⟨word, hWord⟩ := (wf.liveTransition_eq_some_iff.mp hNext).2
    exact ⟨word, by rw [acceptsFrom_quotient h wf (wf.mem_kept_of_liveTransition hNext), hWord]⟩
  distinct i j hi hj hEq := by
    rw [size_quotient] at hi hj
    rw [← h.groupOf_leader hi, ← h.groupOf_leader hj] at hEq ⊢
    rw [acceptsFrom_quotient h wf (h.leader_mem_kept hi),
      acceptsFrom_quotient h wf (h.leader_mem_kept hj)] at hEq
    exact (h.groupOf_eq_iff (h.leader_mem_kept hi) (h.leader_mem_kept hj)).mpr hEq

end Quotient

end FiniteAutomata.Dfa
