import FiniteAutomata.Proofs.Dfa.Minimize

/-! The rounds of minimization. In every round the groups part the kept states, states that
accept the same words stay together, and a round that makes no more groups leaves all as they
are. Every other round makes at least one group more, so there are no more rounds than kept
states. -/
namespace FiniteAutomata.Dfa

variable {σ : Type} [Symbol σ] {d : Dfa σ}

/-- The partition after a number of rounds, in each of which all groups are split. -/
def partitionAfter (d : Dfa σ) : Nat → Partition
  | 0 => d.initialPartition d.live
  | n + 1 => split (Table.ofFunction d.size (d.liveTargets d.live)) (d.partitionAfter n)

namespace Partition.Covers

variable {p : Partition} {g k : List State} {s : State}

theorem length_le (h : p.Covers d) : p.length ≤ (d.kept d.live).length := by
  rw [← h.perm.length_eq]
  exact length_le_length_flatten h.nonempty

/-- Groups share no states. -/
theorem eq_of_mem (h : p.Covers d) (hg : g ∈ p) (hk : k ∈ p) (hs : s ∈ g) (hs' : s ∈ k) :
    g = k := by
  obtain ⟨i, hi⟩ := List.getElem?_of_mem hg
  obtain ⟨j, hj⟩ := List.getElem?_of_mem hk
  have hSame : i = j := (groupOf_eq h.nodup hi hs).symm.trans (groupOf_eq h.nodup hj hs')
  rw [hSame, hj] at hi
  exact (Option.some.inj hi).symm

theorem exists_group_iff (h : p.Covers d) (wf : d.WellFormed) :
    (∃ g ∈ p, s ∈ g) ↔ s ∈ d.live ∨ s = d.start := by
  rw [← List.mem_flatten, h.mem_flatten_iff, wf.mem_kept_iff, wf.mem_live_iff]

end Partition.Covers

/-- States that accept the same words are in one group. -/
theorem Partition.Coarse.eq_of_acceptsFrom_eq {p : Partition} {g k : List State} {s t : State}
    (h : p.Coarse d) (hg : g ∈ p) (hk : k ∈ p) (hs : s ∈ g) (ht : t ∈ k)
    (hWords : d.acceptsFrom s = d.acceptsFrom t) : g = k := by
  have hs' := h.mem_flatten_iff.mp (List.mem_flatten_of_mem hg hs)
  have ht' := h.mem_flatten_iff.mp (List.mem_flatten_of_mem hk ht)
  obtain ⟨m, hm, hsm, htm⟩ := h.together s hs' t ht' hWords
  calc g = m := h.eq_of_mem hg hm hs hsm
    _ = k := h.eq_of_mem hm hk htm ht

section Round

variable {p : Partition} {s t : State} {a : σ}

/-- Every group that a split makes lies inside an old one. -/
theorem exists_superset_of_mem_split {targets : Table (d.liveTargets d.live)} {g : List State}
    (hg : g ∈ split targets p) : ∃ k ∈ p, g ⊆ k := by
  rw [split_eq] at hg
  obtain ⟨k, hk, hClass⟩ := List.mem_flatMap.mp hg
  exact ⟨k, hk, (sublist_of_mem_classes hClass).subset⟩

theorem Partition.Covers.length_le_split (h : p.Covers d)
    (targets : Table (d.liveTargets d.live)) : p.length ≤ (Dfa.split targets p).length := by
  rw [split_eq]
  exact length_le_flatMap_classes _ h.nonempty

/-- States of one group of a stable partition lead into the same group or both nowhere. -/
theorem Partition.Stable.liveTransition_cases (hStable : p.Stable d) (h : p.Covers d)
    (wf : d.WellFormed) (hTogether : p.Together s t) (ha : a ∈ d.alphabet) :
    d.liveTransition d.live s a = none ∧ d.liveTransition d.live t a = none ∨
      ∃ k ∈ p, ∃ s' ∈ k, ∃ t' ∈ k,
        d.liveTransition d.live s a = some s' ∧ d.liveTransition d.live t a = some t' := by
  have hGroups := signature_eq_iff.mp (hStable s t hTogether) a ha
  cases hs : d.liveTransition d.live s a with
  | none =>
      rw [hs, Option.map_none] at hGroups
      exact Or.inl ⟨rfl, Option.map_eq_none_iff.mp hGroups.symm⟩
  | some s' =>
      rw [hs, Option.map_some] at hGroups
      obtain ⟨t', ht, hSame⟩ := Option.map_eq_some_iff.mp hGroups.symm
      have hs' := wf.mem_kept_of_liveTransition hs
      have ht' := wf.mem_kept_of_liveTransition ht
      obtain ⟨k, hk, hMem, hMem'⟩ := (h.groupOf_eq_iff hs' ht').mp hSame.symm
      exact Or.inr ⟨k, hk, s', hMem, t', hMem', rfl, ht⟩

end Round

theorem coarse_partitionAfter (wf : d.WellFormed) (n : Nat) : (d.partitionAfter n).Coarse d := by
  induction n with
  | zero => exact coarse_initialPartition wf
  | succ n ih => exact ih.split wf _

/-- The rounds that refining goes through from the partition after `m` rounds on: up to the last
one each makes more groups. -/
theorem exists_refine_eq (d : Dfa σ) (m : Nat) :
    ∃ n, m ≤ n ∧ refine (Table.ofFunction d.size (d.liveTargets d.live)) (d.partitionAfter m) =
        d.partitionAfter (n + 1) ∧
      (∀ k, m ≤ k → k < n → (d.partitionAfter k).length < (d.partitionAfter (k + 1)).length) ∧
      (d.partitionAfter (n + 1)).length ≤ (d.partitionAfter n).length := by
  -- The induction is on the rounds still to come, so the number of those already done varies.
  generalize hp : d.partitionAfter m = p
  fun_induction refine (Table.ofFunction d.size (d.liveTargets d.live)) p generalizing m with
  | case1 p finer hMore ih =>
      subst hp
      obtain ⟨n, hmn, hEnd, hGrows, hLast⟩ := ih (m + 1) rfl
      refine ⟨n, Nat.le_of_succ_le hmn, hEnd, ?_, hLast⟩
      intro k hmk hkn
      rcases Nat.eq_or_lt_of_le hmk with rfl | hLater
      · exact hMore
      · exact hGrows k hLater hkn
  | case2 p finer hLe =>
      subst hp
      exact ⟨m, Nat.le_refl m, rfl, fun k hmk hkm => absurd hmk (Nat.not_le_of_lt hkm),
        Nat.le_of_not_lt hLe⟩

/-- Rounds that each make more groups are fewer than the groups they make. -/
theorem lt_length_partitionAfter (wf : d.WellFormed) {n : Nat}
    (hGrows : ∀ k < n, (d.partitionAfter k).length < (d.partitionAfter (k + 1)).length) :
    n < (d.partitionAfter n).length := by
  induction n with
  | zero =>
      have hStart := (coarse_partitionAfter wf 0).mem_flatten_iff.mpr wf.start_mem_kept
      obtain ⟨g, hg, -⟩ := List.mem_flatten.mp hStart
      exact List.length_pos_of_mem hg
  | succ n ih =>
      have hBefore := ih fun k hk => hGrows k (Nat.lt_succ_of_lt hk)
      exact Nat.lt_of_le_of_lt hBefore (hGrows n (Nat.lt_succ_self n))

/-- Every round parts the live states and the start into nonempty groups without common states,
inside the groups of the round before. States that accept the same words stay together, and no
group mixes accepting states with others. A round that makes as many groups as there were makes
the same groups, from which every symbol leads into one group or nowhere. This happens after no
more rounds than there are kept states, and there minimization stops. -/
theorem rounds_part_kept (h : d.Constructed) :
    (∀ n, (∀ g ∈ d.partitionAfter n, g ≠ []) ∧
      (d.partitionAfter n).Pairwise List.Disjoint ∧
      (∀ s, (∃ g ∈ d.partitionAfter n, s ∈ g) ↔ s ∈ d.live ∨ s = d.start) ∧
      (∀ g ∈ d.partitionAfter (n + 1), ∃ k ∈ d.partitionAfter n, g ⊆ k) ∧
      (∀ g ∈ d.partitionAfter n, ∀ k ∈ d.partitionAfter n, ∀ s ∈ g, ∀ t ∈ k,
        (∀ word, d.acceptsFrom s word = d.acceptsFrom t word) → g = k) ∧
      (∀ g ∈ d.partitionAfter n, ∀ s ∈ g, ∀ t ∈ g, s ∈ d.accepting ↔ t ∈ d.accepting) ∧
      ((d.partitionAfter (n + 1)).length = (d.partitionAfter n).length →
        d.partitionAfter (n + 1) = d.partitionAfter n ∧
        ∀ g ∈ d.partitionAfter n, ∀ s ∈ g, ∀ t ∈ g, ∀ a ∈ d.alphabet,
          d.liveTransition d.live s a = none ∧ d.liveTransition d.live t a = none ∨
            ∃ k ∈ d.partitionAfter n, ∃ s' ∈ k, ∃ t' ∈ k,
              d.liveTransition d.live s a = some s' ∧
              d.liveTransition d.live t a = some t')) ∧
    ∃ n, n + 1 ≤ (d.kept d.live).length ∧
      (∀ k < n, (d.partitionAfter (k + 1)).length ≠ (d.partitionAfter k).length) ∧
      (d.partitionAfter (n + 1)).length = (d.partitionAfter n).length ∧
      d.minimize = d.quotient d.live (d.partitionAfter (n + 1)).sort := by
  have wf := h.wellFormed
  constructor
  · intro n
    have hCoarse := coarse_partitionAfter wf n
    refine ⟨hCoarse.nonempty, (List.nodup_flatten.mp hCoarse.nodup).2,
      fun s => hCoarse.exists_group_iff wf, fun g hg => exists_superset_of_mem_split hg, ?_, ?_, ?_⟩
    · intro g hg k hk s hs t ht hWords
      exact hCoarse.eq_of_acceptsFrom_eq hg hk hs ht (funext hWords)
    · intro g hg s hs t ht
      have hSame := hCoarse.accepting s t ⟨g, hg, hs, ht⟩
      exact decide_eq_decide.mp hSame
    · intro hLength
      have hSame : d.partitionAfter (n + 1) = d.partitionAfter n :=
        hCoarse.split_eq_self _ (Nat.le_of_eq hLength)
      have hStable : (d.partitionAfter (n + 1)).Stable d :=
        hCoarse.stable_split _ (Nat.le_of_eq hLength)
      rw [hSame] at hStable
      refine ⟨hSame, fun g hg s hs t ht a ha => ?_⟩
      exact hStable.liveTransition_cases hCoarse.toCovers wf ⟨g, hg, hs, ht⟩ ha
  · obtain ⟨n, -, hEnd, hGrows, hLast⟩ := exists_refine_eq d 0
    have hLess := lt_length_partitionAfter wf fun k hk => hGrows k (Nat.zero_le k) hk
    -- The round that finds nothing to split is counted too, hence one more than `n`.
    refine ⟨n, Nat.le_trans hLess (coarse_partitionAfter wf n).length_le, ?_, ?_, ?_⟩
    · exact fun k hk => Nat.ne_of_gt (hGrows k (Nat.zero_le k) hk)
    · exact Nat.le_antisymm hLast ((coarse_partitionAfter wf n).length_le_split _)
    · exact congrArg (fun p => d.quotient d.live p.sort) hEnd

/-- Three times `a` leads from 0 to the final state, and `b` leads away from it. -/
def ladder : Fragment Char where
  session := 0
  graph := (((Graph.empty.addEdge 0 1 (.symbol 'a')).addEdge 1 2 (.symbol 'a')).addEdge 2 3
    (.symbol 'a')).addEdge 0 4 (.symbol 'b')
  start := 0
  final := 3
  alphabet := .ofList ['a', 'b']

/-- The automaton of `ladder`. Nothing is accepted from its state 2. -/
def ladderAutomaton : Dfa Char where
  entries := [⟨0, .singleton 0⟩, ⟨1, .singleton 1⟩, ⟨2, .singleton 4⟩, ⟨3, .singleton 2⟩,
    ⟨4, .singleton 3⟩]
  accepting := .singleton 4
  alphabet := .ofList ['a', 'b']
  graph := (((Graph.empty.addEdge 0 1 'a').addEdge 0 2 'b').addEdge 1 3 'a').addEdge 3 4 'a'

/-- One state is split off in each of two rounds, and the third changes nothing. -/
theorem rounds_part_kept_ladder :
    ladderAutomaton.Constructed ∧ ladderAutomaton.partitionAfter 0 = [[0, 1, 3], [4]] ∧
      ladderAutomaton.partitionAfter 1 = [[0, 1], [3], [4]] ∧
      ladderAutomaton.partitionAfter 2 = [[0], [1], [3], [4]] ∧
      ladderAutomaton.partitionAfter 3 = ladderAutomaton.partitionAfter 2 ∧
      ∃ n, n + 1 ≤ 4 ∧ ladderAutomaton.minimize =
        ladderAutomaton.quotient ladderAutomaton.live
          (ladderAutomaton.partitionAfter (n + 1)).sort := by
  have hMade : ladder.determinize = .ok ladderAutomaton := by decide +kernel
  have hConstructed : ladderAutomaton.Constructed := .ofFragment hMade
  have hTwo : ladderAutomaton.partitionAfter 2 = [[0], [1], [3], [4]] := by decide +kernel
  have hKept : (ladderAutomaton.kept ladderAutomaton.live).length = 4 := by decide +kernel
  obtain ⟨hRounds, n, hn, -, -, hMinimize⟩ := rounds_part_kept hConstructed
  rw [hKept] at hn
  obtain ⟨-, -, -, -, -, -, hStop⟩ := hRounds 2
  exact ⟨hConstructed, by decide +kernel, by decide +kernel, hTwo, (hStop (by decide +kernel)).1,
    n, hn, hMinimize⟩

end FiniteAutomata.Dfa
