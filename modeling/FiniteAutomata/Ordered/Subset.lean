import FiniteAutomata.Ordered.Set

/-! The subsets of a finite set, as lists. There are finitely many of them, which
bounds every enumeration of subsets. -/
namespace FiniteAutomata

/-- Every list that can be had from `l` by leaving elements out. -/
def subsets {α : Type} : List α → List (List α)
  | [] => [[]]
  | a :: l => subsets l ++ (subsets l).map (a :: ·)

theorem nil_mem_subsets {α : Type} (l : List α) : [] ∈ subsets l := by
  induction l with
  | nil => exact List.mem_singleton.mpr rfl
  | cons a l ih => exact List.mem_append_left _ ih

variable {α : Type} [Ord α] [Std.TransOrd α]

/-- An ascending list whose elements all occur in another one is had from it by
leaving elements out. -/
theorem mem_subsets_of_pairwise {l m : List α} (hl : l.Pairwise fun a b => compare a b = .lt)
    (hm : m.Pairwise fun a b => compare a b = .lt) (h : ∀ a ∈ m, a ∈ l) : m ∈ subsets l := by
  induction l generalizing m with
  | nil =>
    cases m with
    | nil => exact nil_mem_subsets []
    | cons b m => cases h b List.mem_cons_self
  | cons a l ih =>
    have hlTail := List.pairwise_cons.mp hl
    cases m with
    | nil => exact nil_mem_subsets _
    | cons b m =>
      have hmTail := List.pairwise_cons.mp hm
      have hBelow : ∀ c ∈ m, c ∈ l := fun c hc => by
        have hbc := hmTail.1 c hc
        rcases List.mem_cons.mp (h c (List.mem_cons_of_mem _ hc)) with rfl | hMem
        · rcases List.mem_cons.mp (h b List.mem_cons_self) with rfl | hMem
          · simp [Std.ReflCmp.compare_self] at hbc
          · have hcb := hlTail.1 b hMem
            rw [Std.OrientedCmp.gt_iff_lt.mpr hbc] at hcb
            cases hcb
        · exact hMem
      rcases List.mem_cons.mp (h b List.mem_cons_self) with rfl | hMem
      · exact List.mem_append_right _ (List.mem_map_of_mem (ih hlTail.2 hmTail.2 hBelow))
      · refine List.mem_append_left _ (ih hlTail.2 hm fun c hc => ?_)
        rcases List.mem_cons.mp hc with rfl | hc
        · exact hMem
        · exact hBelow c hc

end FiniteAutomata
