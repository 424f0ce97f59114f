import FiniteAutomata.Proofs.Dfa.Live
import FiniteAutomata.Proofs.Ordered

/-! Refining partitions ends with the states grouped by the words they accept. No split
ever parts two states that accept the same words, and a partition that a split leaves
as it is groups no others. -/
namespace FiniteAutomata.Dfa

variable {σ : Type} [Symbol σ] {d : Dfa σ}

namespace Partition

/-- Two states are in one group. -/
def Together (p : Partition) (s t : State) : Prop := ∃ g ∈ p, s ∈ g ∧ t ∈ g

section Lookup

variable {p : Partition} {s t : State}

/-- A state counts to a group that it is in, or to none if it is in none. -/
theorem groupAfter_cases (n k : Nat) (s : State) (p : Partition) :
    s ∉ p.flatten ∧ groupAfter n k s p = k ∨
      ∃ i g, p[i]? = some g ∧ s ∈ g ∧ groupAfter n k s p = n + i := by
  induction p generalizing n k with
  | nil => exact Or.inl ⟨List.not_mem_nil, rfl⟩
  | cons h rest ih =>
      rcases ih (n + 1) (if h.contains s then n else k) with ⟨hNone, hEq⟩ | ⟨i, g, hg, hs, hEq⟩
      · by_cases hHere : s ∈ h
        · refine Or.inr ⟨0, h, rfl, hHere, ?_⟩
          rw [groupAfter, hEq, if_pos (List.contains_iff_mem.mpr hHere), Nat.add_zero]
        · refine Or.inl ⟨?_, ?_⟩
          · rw [List.flatten_cons, List.mem_append, not_or]
            exact ⟨hHere, hNone⟩
          · rw [groupAfter, hEq, if_neg fun h' => hHere (List.contains_iff_mem.mp h')]
      · refine Or.inr ⟨i + 1, g, hg, hs, ?_⟩
        rw [groupAfter, hEq, Nat.add_right_comm, Nat.add_assoc]

/-- A state is in the group that it is looked up in. -/
theorem exists_mem_groupOf (hs : s ∈ p.flatten) : ∃ g, p[p.groupOf s]? = some g ∧ s ∈ g := by
  rcases groupAfter_cases 0 0 s p with ⟨hNone, -⟩ | ⟨i, g, hg, hMem, hEq⟩
  · exact False.elim (hNone hs)
  · refine ⟨g, ?_, hMem⟩
    rw [groupOf, hEq, Nat.zero_add]
    exact hg

/-- Groups share no states, so a state is looked up in the one group it is in. -/
theorem groupOf_eq (hNodup : p.flatten.Nodup) {i : Nat} {g : List State} (hg : p[i]? = some g)
    (hs : s ∈ g) : p.groupOf s = i := by
  have hMem : s ∈ p.flatten := List.mem_flatten.mpr ⟨g, List.mem_of_getElem? hg, hs⟩
  obtain ⟨g', hg', hs'⟩ := exists_mem_groupOf hMem
  have hApart : ∀ (j k : Nat) (h h' : List State), p[j]? = some h → p[k]? = some h' → s ∈ h →
      s ∈ h' → ¬ j < k := by
    intro j k h h' hj hk hIn hIn' hLt
    obtain ⟨hLeft, rfl⟩ := List.getElem?_eq_some_iff.mp hj
    obtain ⟨hRight, rfl⟩ := List.getElem?_eq_some_iff.mp hk
    exact List.pairwise_iff_getElem.mp (List.nodup_flatten.mp hNodup).2 j k hLeft hRight hLt hIn
      hIn'
  exact Nat.le_antisymm (Nat.le_of_not_lt (hApart _ _ _ _ hg hg' hs hs'))
    (Nat.le_of_not_lt (hApart _ _ _ _ hg' hg hs' hs))

theorem groupOf_eq_iff (hNodup : p.flatten.Nodup) (hs : s ∈ p.flatten) (ht : t ∈ p.flatten) :
    p.groupOf s = p.groupOf t ↔ p.Together s t := by
  constructor
  · intro hEq
    obtain ⟨g, hg, hMem⟩ := exists_mem_groupOf hs
    obtain ⟨g', hg', hMem'⟩ := exists_mem_groupOf ht
    rw [← hEq, hg] at hg'
    cases hg'
    exact ⟨g, List.mem_of_getElem? hg, hMem, hMem'⟩
  · intro h
    obtain ⟨g, hg, hMem, hMem'⟩ := h
    obtain ⟨i, hi⟩ := List.getElem?_of_mem hg
    rw [groupOf_eq hNodup hi hMem, groupOf_eq hNodup hi hMem']

end Lookup

/-- The groups hold the kept states, each once, and each group is in ascending order. -/
structure Covers (d : Dfa σ) (p : Partition) : Prop where
  perm : p.flatten.Perm (d.kept d.live)
  nodup : p.flatten.Nodup
  nonempty : ∀ g ∈ p, g ≠ []
  ascending : ∀ g ∈ p, g.Pairwise (· < ·)

namespace Covers

variable {p : Partition}

theorem mem_flatten_iff (h : p.Covers d) {s : State} : s ∈ p.flatten ↔ s ∈ d.kept d.live :=
  h.perm.mem_iff

theorem groupOf_eq_iff (h : p.Covers d) {s t : State} (hs : s ∈ d.kept d.live)
    (ht : t ∈ d.kept d.live) : p.groupOf s = p.groupOf t ↔ p.Together s t :=
  Partition.groupOf_eq_iff h.nodup (h.mem_flatten_iff.mpr hs) (h.mem_flatten_iff.mpr ht)

end Covers

/-- What refining keeps. The states of a group agree on the empty word, and states that
accept the same words are never parted. -/
structure Coarse (d : Dfa σ) (p : Partition) : Prop extends Covers d p where
  accepting : ∀ s t, p.Together s t → d.isAccepting s = d.isAccepting t
  together : ∀ s ∈ d.kept d.live, ∀ t ∈ d.kept d.live,
    d.acceptsFrom s = d.acceptsFrom t → p.Together s t

end Partition

section Split

variable {p : Partition} {s t : State}

theorem signature_eq_iff :
    d.signature d.live p s = d.signature d.live p t ↔ ∀ a ∈ d.alphabet,
      (d.liveTransition d.live s a).map p.groupOf =
        (d.liveTransition d.live t a).map p.groupOf := by
  rw [signature, signature, liveTargets, liveTargets, List.map_map, List.map_map]
  exact List.map_inj_left

/-- A split keeps two states together exactly if they lead into the same groups. -/
theorem together_split_iff (targets : Table (d.liveTargets d.live)) :
    (split targets p).Together s t ↔
      p.Together s t ∧ d.signature d.live p s = d.signature d.live p t := by
  rw [split_eq]
  constructor
  · intro h
    obtain ⟨c, hc, hs, ht⟩ := h
    obtain ⟨g, hg, hClass⟩ := List.mem_flatMap.mp hc
    obtain ⟨hs, ht, hEq⟩ := exists_mem_classes_iff.mp ⟨c, hClass, hs, ht⟩
    exact ⟨⟨g, hg, hs, ht⟩, hEq⟩
  · intro h
    obtain ⟨⟨g, hg, hs, ht⟩, hEq⟩ := h
    obtain ⟨c, hClass, hs, ht⟩ := exists_mem_classes_iff.mpr ⟨hs, ht, hEq⟩
    exact ⟨c, List.mem_flatMap.mpr ⟨g, hg, hClass⟩, hs, ht⟩

/-- States that accept the same words lead into the same groups. -/
theorem Partition.Coarse.signature_eq (h : p.Coarse d) (wf : d.WellFormed)
    (hEq : d.acceptsFrom s = d.acceptsFrom t) :
    d.signature d.live p s = d.signature d.live p t := by
  apply signature_eq_iff.mpr
  intro a _
  rcases wf.liveTransition_cases hEq a with ⟨hs, ht⟩ | ⟨s', t', hs, ht, hSame⟩
  · rw [hs, ht]
  · have hs' := (wf.mem_kept_iff).mpr (Or.inl (wf.liveTransition_eq_some_iff.mp hs).2)
    have ht' := wf.mem_kept_of_liveTransition ht
    rw [hs, ht, Option.map_some, Option.map_some]
    exact congrArg some ((h.toCovers.groupOf_eq_iff hs' ht').mpr (h.together s' hs' t' ht' hSame))

theorem Partition.Covers.split (h : p.Covers d) (targets : Table (d.liveTargets d.live)) :
    (Dfa.split targets p).Covers d where
  perm := by
    rw [split_eq]
    exact (flatten_flatMap_classes_perm _ p).trans h.perm
  nodup := by
    rw [split_eq]
    exact (flatten_flatMap_classes_perm _ p).nodup_iff.mpr h.nodup
  nonempty := by
    rw [split_eq]
    intro c hc
    obtain ⟨g, -, hClass⟩ := List.mem_flatMap.mp hc
    exact ne_nil_of_mem_classes hClass
  ascending := by
    rw [split_eq]
    intro c hc
    obtain ⟨g, hg, hClass⟩ := List.mem_flatMap.mp hc
    exact (h.ascending g hg).sublist (sublist_of_mem_classes hClass)

theorem Partition.Coarse.split (h : p.Coarse d) (wf : d.WellFormed)
    (targets : Table (d.liveTargets d.live)) : (Dfa.split targets p).Coarse d where
  toCovers := h.toCovers.split targets
  accepting s t hTogether := h.accepting s t ((together_split_iff targets).mp hTogether).1
  together s hs t ht hEq :=
    (together_split_iff targets).mpr ⟨h.together s hs t ht hEq, h.signature_eq wf hEq⟩

/-- A partition is stable if the states of a group lead into the same groups. -/
def Partition.Stable (d : Dfa σ) (p : Partition) : Prop :=
  ∀ s t, p.Together s t → d.signature d.live p s = d.signature d.live p t

/-- A split that makes no more groups changes nothing. -/
theorem Partition.Covers.split_eq_self (h : p.Covers d) (targets : Table (d.liveTargets d.live))
    (hLe : (Dfa.split targets p).length ≤ p.length) : Dfa.split targets p = p := by
  rw [split_eq] at hLe ⊢
  exact flatMap_classes_eq_self h.nonempty hLe

theorem Partition.Covers.stable_split (h : p.Covers d) (targets : Table (d.liveTargets d.live))
    (hLe : (Dfa.split targets p).length ≤ p.length) : (Dfa.split targets p).Stable d := by
  intro s t hTogether
  rw [together_split_iff] at hTogether
  rw [h.split_eq_self targets hLe]
  exact hTogether.2

/-- Refining ends with a stable partition. -/
theorem Partition.Coarse.refine (h : p.Coarse d) (wf : d.WellFormed)
    (targets : Table (d.liveTargets d.live)) :
    (Dfa.refine targets p).Coarse d ∧ (Dfa.refine targets p).Stable d := by
  fun_induction Dfa.refine targets p with
  | case1 p finer _ ih => exact ih (h.split wf targets)
  | case2 p finer hLe =>
      exact ⟨h.split wf targets, h.toCovers.stable_split targets (Nat.le_of_not_lt hLe)⟩

/-- The states of a group of a stable partition accept the same words. -/
theorem Partition.Coarse.acceptsFrom_eq (h : p.Coarse d) (wf : d.WellFormed) (hStable : p.Stable d)
    (hTogether : p.Together s t) : d.acceptsFrom s = d.acceptsFrom t := by
  funext word
  induction word generalizing s t with
  | nil => exact h.accepting s t hTogether
  | cons a word ih =>
      have hGroups : (d.liveTransition d.live s a).map p.groupOf =
          (d.liveTransition d.live t a).map p.groupOf := by
        by_cases ha : a ∈ d.alphabet
        · exact signature_eq_iff.mp (hStable s t hTogether) a ha
        · rw [wf.liveTransition_eq_none s ha, wf.liveTransition_eq_none t ha]
      rw [wf.acceptsFrom_cons_live, wf.acceptsFrom_cons_live]
      cases hs : d.liveTransition d.live s a with
      | none =>
          cases ht : d.liveTransition d.live t a with
          | none => rfl
          | some t' => simp [hs, ht] at hGroups
      | some s' =>
          cases ht : d.liveTransition d.live t a with
          | none => simp [hs, ht] at hGroups
          | some t' =>
              rw [hs, ht, Option.map_some, Option.map_some, Option.some.injEq] at hGroups
              have hs' := wf.mem_kept_of_liveTransition hs
              have ht' := wf.mem_kept_of_liveTransition ht
              exact ih ((h.toCovers.groupOf_eq_iff hs' ht').mp hGroups)

end Split

section Initial

theorem together_initialPartition_iff {s t : State} :
    (d.initialPartition d.live).Together s t ↔
      s ∈ d.kept d.live ∧ t ∈ d.kept d.live ∧ d.isAccepting s = d.isAccepting t := by
  unfold initialPartition Partition.Together
  constructor
  · intro h
    obtain ⟨g, hg, hs, ht⟩ := h
    rcases List.mem_pair.mp (List.mem_filter.mp hg).1 with rfl | rfl
    · simp only [List.mem_filter, Bool.not_eq_true'] at hs ht
      exact ⟨hs.1, ht.1, hs.2.trans ht.2.symm⟩
    · rw [List.mem_filter] at hs ht
      exact ⟨hs.1, ht.1, hs.2.trans ht.2.symm⟩
  · intro h
    obtain ⟨hs, ht, hEq⟩ := h
    cases hAccepting : d.isAccepting s with
    | false =>
        have hs' : s ∈ (d.kept d.live).filter fun s => !d.isAccepting s := by simp [hs, hAccepting]
        have ht' : t ∈ (d.kept d.live).filter fun s => !d.isAccepting s := by
          simp [ht, ← hEq, hAccepting]
        refine ⟨_, List.mem_filter.mpr ⟨List.mem_cons_self, ?_⟩, hs', ht'⟩
        simp [List.ne_nil_of_mem hs']
    | true =>
        have hs' : s ∈ (d.kept d.live).filter d.isAccepting := by simp [hs, hAccepting]
        have ht' : t ∈ (d.kept d.live).filter d.isAccepting := by simp [ht, ← hEq, hAccepting]
        refine ⟨_, List.mem_filter.mpr ⟨List.mem_cons_of_mem _ List.mem_cons_self, ?_⟩, hs', ht'⟩
        simp [List.ne_nil_of_mem hs']

theorem flatten_initialPartition_perm (d : Dfa σ) :
    (d.initialPartition d.live).flatten.Perm (d.kept d.live) := by
  unfold initialPartition
  rw [List.flatten_filter_not_isEmpty, List.flatten_cons, List.flatten_singleton]
  exact List.perm_append_comm.trans (List.filter_append_perm d.isAccepting _)

theorem coarse_initialPartition (wf : d.WellFormed) : (d.initialPartition d.live).Coarse d where
  perm := flatten_initialPartition_perm d
  nodup := (flatten_initialPartition_perm d).nodup_iff.mpr
    ((wf.pairwise_kept d.live).imp Nat.ne_of_lt)
  nonempty g hg := by
    have hNonempty := (List.mem_filter.mp hg).2
    simpa using hNonempty
  ascending g hg := by
    have hKept := wf.pairwise_kept d.live
    rcases List.mem_pair.mp (List.mem_filter.mp hg).1 with rfl | rfl
    · exact hKept.filter _
    · exact hKept.filter _
  accepting s t h := (together_initialPartition_iff.mp h).2.2
  together s hs t ht hEq := together_initialPartition_iff.mpr ⟨hs, ht, congrFun hEq []⟩

end Initial

/-- The groups are the classes of the kept states that accept the same words, in the
order of their smallest members. -/
structure Partition.Exact (d : Dfa σ) (p : Partition) : Prop extends Covers d p where
  together_iff : ∀ s ∈ d.kept d.live, ∀ t ∈ d.kept d.live,
    (p.Together s t ↔ d.acceptsFrom s = d.acceptsFrom t)
  sorted : p.Pairwise fun g h => g.headD 0 < h.headD 0

section Sorting

variable {p : Partition}

theorem Partition.sort_perm (p : Partition) : p.sort.Perm p := List.mergeSort_perm ..

theorem Partition.together_sort_iff {s t : State} : p.sort.Together s t ↔ p.Together s t :=
  exists_congr fun _ => and_congr_left' p.sort_perm.mem_iff

theorem Partition.headD_mem {g : List State} (h : g ≠ []) : g.headD 0 ∈ g := by
  cases g with
  | nil => exact False.elim (h rfl)
  | cons s rest => exact List.mem_cons_self

theorem Partition.Covers.sort (h : p.Covers d) : p.sort.Covers d where
  perm := p.sort_perm.flatten.trans h.perm
  nodup := p.sort_perm.flatten.nodup_iff.mpr h.nodup
  nonempty g hg := h.nonempty g (p.sort_perm.mem_iff.mp hg)
  ascending g hg := h.ascending g (p.sort_perm.mem_iff.mp hg)

/-- Different groups have different smallest members, so sorting puts them in strict
order. -/
theorem Partition.Covers.sorted_sort (h : p.Covers d) :
    p.sort.Pairwise fun g k => g.headD 0 < k.headD 0 := by
  have hLe : p.sort.Pairwise fun g k => g.headD 0 ≤ k.headD 0 := by
    refine (List.pairwise_mergeSort ?_ ?_ p).imp of_decide_eq_true
    · intro g k m hgk hkm
      simp only [decide_eq_true_eq] at hgk hkm ⊢
      exact Nat.le_trans hgk hkm
    · intro g k
      simp only [Bool.or_eq_true, decide_eq_true_eq]
      exact Nat.le_total _ _
  have hApart : p.sort.Pairwise List.Disjoint :=
    (List.nodup_flatten.mp h.sort.nodup).2
  refine (hLe.and hApart).imp_of_mem fun {g k} hg hk hBoth => ?_
  apply Nat.lt_of_le_of_ne hBoth.1
  intro hEq
  have hMem := headD_mem (h.sort.nonempty g hg)
  have hMem' := headD_mem (h.sort.nonempty k hk)
  exact hBoth.2 hMem (hEq ▸ hMem')

/-- Minimization groups the kept states by the words they accept. -/
theorem exact_refine (wf : d.WellFormed) (targets : Table (d.liveTargets d.live)) :
    (refine targets (d.initialPartition d.live)).sort.Exact d := by
  obtain ⟨h, hStable⟩ := (coarse_initialPartition wf).refine wf targets
  exact {
    toCovers := h.toCovers.sort
    together_iff := fun s hs t ht => Partition.together_sort_iff.trans
      ⟨h.acceptsFrom_eq wf hStable, h.together s hs t ht⟩
    sorted := h.toCovers.sorted_sort }

end Sorting

end FiniteAutomata.Dfa
