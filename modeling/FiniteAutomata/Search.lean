import FiniteAutomata.Ordered.Set

/-! Depth-first search through a finite territory. The caller says which places
follow a place, or that a place may not be entered at all; the search ends with
the set of everything found, or with the first refusal. It ends because every
place of the territory is put on the stack at most once after the start. -/
namespace FiniteAutomata.Search

variable {α ε : Type} [Ord α] [Std.TransOrd α] [DecidableEq α]

/-- Record the places of a list that are not yet found, each once, and stack
them so that the last one comes first. -/
def discover : List α → SortedSet α → List α → SortedSet α × List α
  | [], found, stack => (found, stack)
  | b :: rest, found, stack =>
    if b ∈ found then discover rest found stack
    else discover rest (found.insert b) (b :: stack)

/-- How many places of the territory are not yet found. -/
def missing (territory : List α) (found : SortedSet α) : Nat :=
  territory.countP fun b => decide (b ∉ found)

section Bound

variable [Std.LawfulEqOrd α]

theorem missing_insert_lt {territory : List α} {found : SortedSet α} {b : α}
    (hInside : b ∈ territory) (hNew : b ∉ found) :
    missing territory (found.insert b) < missing territory found := by
  unfold missing
  have hLe : ∀ l : List α, l.countP (fun c => decide (c ∉ found.insert b)) ≤
      l.countP fun c => decide (c ∉ found) := fun l => by
    apply List.countP_mono_left
    intro c _ hc
    simp only [SortedSet.mem_insert, decide_eq_true_eq, not_or] at hc ⊢
    exact hc.2
  obtain ⟨before, after, rfl⟩ := List.append_of_mem hInside
  simp only [List.countP_append, List.countP_cons]
  have hBefore := hLe before
  have hAfter := hLe after
  simp only [SortedSet.mem_insert, true_or, not_true_eq_false, decide_false, hNew,
    not_false_eq_true, decide_true, if_pos, Bool.false_eq_true, if_false] at hBefore hAfter ⊢
  omega

theorem missing_discover {territory l : List α} (found : SortedSet α) (stack : List α)
    (h : ∀ b ∈ l, b ∈ territory) :
    2 * missing territory (discover l found stack).1 + (discover l found stack).2.length ≤
      2 * missing territory found + stack.length := by
  induction l generalizing found stack with
  | nil => simp [discover]
  | cons b rest ih =>
    have hRest : ∀ c ∈ rest, c ∈ territory := fun c hc => h c (List.mem_cons_of_mem _ hc)
    unfold discover
    split
    next => exact ih found stack hRest
    next hNew =>
      have hLt := missing_insert_lt (h b List.mem_cons_self) hNew
      have := ih (found.insert b) (b :: stack) hRest
      simp only [List.length_cons] at this
      omega

end Bound

/-- Search on from a stack of places, where `next` gives the places that follow
a place or the reason why it may not be entered. -/
def run [Std.LawfulEqOrd α] (next : α → Except ε (List α)) (territory : List α)
    (inside : ∀ a l, next a = .ok l → ∀ b ∈ l, b ∈ territory)
    (found : SortedSet α) (stack : List α) : Except ε (SortedSet α) :=
  match stack with
  | [] => .ok found
  | a :: rest =>
    match h : next a with
    | .error e => .error e
    | .ok l =>
      have := missing_discover found rest (inside a l h)
      run next territory inside (discover l found rest).1 (discover l found rest).2
termination_by 2 * missing territory found + stack.length
decreasing_by
  simp only [List.length_cons]
  omega

/-- Everything that can be reached from a set of places, which are entered from
the greatest downwards. -/
def reach [Std.LawfulEqOrd α] (next : α → Except ε (List α)) (territory : List α)
    (inside : ∀ a l, next a = .ok l → ∀ b ∈ l, b ∈ territory)
    (start : SortedSet α) : Except ε (SortedSet α) :=
  run next territory inside start start.toList.reverse

section Entered

theorem mem_stack_discover {l : List α} {found : SortedSet α} {stack : List α} {b : α}
    (h : b ∈ stack) : b ∈ (discover l found stack).2 := by
  induction l generalizing found stack with
  | nil => exact h
  | cons c rest ih =>
    unfold discover
    split
    next => exact ih h
    next => exact ih (List.mem_cons_of_mem _ h)

variable [Std.LawfulEqOrd α]

theorem mem_discover {l : List α} {found : SortedSet α} {stack : List α} {b : α}
    (h : b ∈ (discover l found stack).1) : b ∈ found ∨ b ∈ (discover l found stack).2 := by
  induction l generalizing found stack with
  | nil => exact Or.inl h
  | cons c rest ih =>
    unfold discover at h ⊢
    split at h
    next hOld =>
      rw [if_pos hOld]
      exact ih h
    next hNew =>
      rw [if_neg hNew]
      rcases ih h with hFound | hStack
      · rcases SortedSet.mem_insert.mp hFound with rfl | hFound
        · exact Or.inr (mem_stack_discover List.mem_cons_self)
        · exact Or.inl hFound
      · exact Or.inr hStack

/-- Every place in the answer of a search was entered. -/
theorem entered_of_mem_run {next : α → Except ε (List α)} {territory : List α}
    {inside : ∀ a l, next a = .ok l → ∀ b ∈ l, b ∈ territory} {found answer : SortedSet α}
    {stack : List α} (hRun : run next territory inside found stack = .ok answer)
    (hFound : ∀ b ∈ found, b ∈ stack ∨ ∃ l, next b = .ok l) :
    ∀ b ∈ answer, ∃ l, next b = .ok l := by
  fun_induction run next territory inside found stack with
  | case1 found =>
    cases hRun
    intro b hb
    rcases hFound b hb with hStack | hEntered
    · cases hStack
    · exact hEntered
  | case2 found a rest e hNext => cases hRun
  | case3 found a rest l hNext _ ih =>
    refine ih hRun fun b hb => ?_
    rcases mem_discover hb with hOld | hStack
    · rcases hFound b hOld with hStack | hEntered
      · rcases List.mem_cons.mp hStack with rfl | hRest
        · exact Or.inr ⟨l, hNext⟩
        · exact Or.inl (mem_stack_discover hRest)
      · exact Or.inr hEntered
    · exact Or.inl hStack

/-- Every place in the answer of a search from a set of places was entered. -/
theorem entered_of_mem_reach {next : α → Except ε (List α)} {territory : List α}
    {inside : ∀ a l, next a = .ok l → ∀ b ∈ l, b ∈ territory} {start answer : SortedSet α}
    (h : reach next territory inside start = .ok answer) :
    ∀ b ∈ answer, ∃ l, next b = .ok l :=
  entered_of_mem_run h fun _ hb => Or.inl (List.mem_reverse.mpr hb)

end Entered

end FiniteAutomata.Search
