import FiniteAutomata.Proofs.Ordered
import FiniteAutomata.Search
import Mathlib.Logic.Relation

/-! What a search finds. A search that may enter every place it comes to ends with
exactly the places that can be reached; one that fails names the refusal of a
place that can be reached. No place is entered twice. -/
namespace FiniteAutomata.Search

variable {α ε : Type}

/-- `b` is among the places that follow `a`. A place that may not be entered is
followed by nothing. -/
def Follows (next : α → Except ε (List α)) (a b : α) : Prop := ∃ l, next a = .ok l ∧ b ∈ l

variable [Ord α]

/-- A place that a search from `start` comes to. -/
def Reached (next : α → Except ε (List α)) (start : SortedSet α) (b : α) : Prop :=
  ∃ a ∈ start, Relation.ReflTransGen (Follows next) a b

/-- Halfway through a search: what is on the stack is found, what is found can be
reached, and a found place that is not on the stack has been entered and left
nothing behind it unfound. -/
structure Halfway (next : α → Except ε (List α)) (start found : SortedSet α) (stack : List α) :
    Prop where
  start_found : ∀ a ∈ start, a ∈ found
  reached : ∀ b ∈ found, Reached next start b
  stacked : ∀ b ∈ stack, b ∈ found
  entered : ∀ b ∈ found, b ∈ stack ∨ ∃ l, next b = .ok l ∧ ∀ c ∈ l, c ∈ found

/-- At the end of a search exactly the places that can be reached are found. -/
theorem Halfway.mem_iff {next : α → Except ε (List α)} {start answer : SortedSet α}
    (half : Halfway next start answer []) {b : α} : b ∈ answer ↔ Reached next start b := by
  refine ⟨half.reached b, ?_⟩
  intro h
  obtain ⟨a, ha, path⟩ := h
  induction path with
  | refl => exact half.start_found a ha
  | tail _ last ih =>
      obtain ⟨l, hl, hMem⟩ := last
      rcases half.entered _ ih with hStack | ⟨m, hm, hFound⟩
      · cases hStack
      · cases hl.symm.trans hm
        exact hFound _ hMem

theorem halfway_start (next : α → Except ε (List α)) (start : SortedSet α) :
    Halfway next start start start.toList.reverse where
  start_found _ ha := ha
  reached b hb := ⟨b, hb, .refl⟩
  stacked _ hb := List.mem_reverse.mp hb
  entered _ hb := Or.inl (List.mem_reverse.mpr hb)

variable [Std.TransOrd α] [DecidableEq α] [Std.LawfulEqOrd α]

theorem mem_discover_iff {l : List α} {found : SortedSet α} {stack : List α} {b : α} :
    b ∈ (discover l found stack).1 ↔ b ∈ found ∨ b ∈ l := by
  induction l generalizing found stack with
  | nil => simp [discover]
  | cons c rest ih =>
      unfold discover
      split
      next hOld =>
        rw [ih, List.mem_cons]
        refine ⟨fun h => h.imp_right Or.inr, fun h => ?_⟩
        rcases h with hFound | rfl | hRest
        · exact Or.inl hFound
        · exact Or.inl hOld
        · exact Or.inr hRest
      next => rw [ih, SortedSet.mem_insert, List.mem_cons, or_assoc, or_left_comm]

theorem mem_found_of_mem_stack_discover {l : List α} {found : SortedSet α} {stack : List α}
    (hStack : ∀ b ∈ stack, b ∈ found) {b : α} (h : b ∈ (discover l found stack).2) :
    b ∈ (discover l found stack).1 := by
  induction l generalizing found stack with
  | nil => exact hStack b h
  | cons c rest ih =>
      unfold discover at h ⊢
      split at h
      next hOld =>
        rw [if_pos hOld]
        exact ih hStack h
      next hNew =>
        rw [if_neg hNew]
        refine ih (fun d hd => ?_) h
        rcases List.mem_cons.mp hd with rfl | hd
        · exact SortedSet.mem_insert.mpr (Or.inl rfl)
        · exact SortedSet.mem_insert.mpr (Or.inr (hStack d hd))

theorem Halfway.enter {next : α → Except ε (List α)} {start found : SortedSet α} {a : α}
    {rest l : List α} (half : Halfway next start found (a :: rest)) (hNext : next a = .ok l) :
    Halfway next start (discover l found rest).1 (discover l found rest).2 where
  start_found b hb := mem_discover_iff.mpr (Or.inl (half.start_found b hb))
  reached b hb := by
    rcases mem_discover_iff.mp hb with hOld | hNew
    · exact half.reached b hOld
    · obtain ⟨s, hs, path⟩ := half.reached a (half.stacked a List.mem_cons_self)
      exact ⟨s, hs, path.tail ⟨l, hNext, hNew⟩⟩
  stacked b hb := mem_found_of_mem_stack_discover
    (fun c hc => half.stacked c (List.mem_cons_of_mem _ hc)) hb
  entered b hb := by
    have hAll : ∀ c ∈ l, c ∈ (discover l found rest).1 := fun c hc =>
      mem_discover_iff.mpr (Or.inr hc)
    rcases mem_discover hb with hOld | hStack
    · rcases half.entered b hOld with hStack | ⟨m, hm, hFound⟩
      · rcases List.mem_cons.mp hStack with rfl | hRest
        · exact Or.inr ⟨l, hNext, hAll⟩
        · exact Or.inl (mem_stack_discover hRest)
      · exact Or.inr ⟨m, hm, fun c hc => mem_discover_iff.mpr (Or.inl (hFound c hc))⟩
    · exact Or.inl hStack

theorem Halfway.run_error {next : α → Except ε (List α)} {territory : List α}
    {inside : ∀ a l, next a = .ok l → ∀ b ∈ l, b ∈ territory} {start found : SortedSet α}
    {stack : List α} {e : ε} (half : Halfway next start found stack)
    (hRun : run next territory inside found stack = .error e) :
    ∃ b, Reached next start b ∧ next b = .error e := by
  fun_induction run next territory inside found stack with
  | case1 found => cases hRun
  | case2 found a rest e' hNext =>
      cases hRun
      exact ⟨a, half.reached a (half.stacked a List.mem_cons_self), hNext⟩
  | case3 found a rest l hNext _ ih => exact ih (half.enter hNext) hRun

theorem Halfway.run_ok {next : α → Except ε (List α)} {territory : List α}
    {inside : ∀ a l, next a = .ok l → ∀ b ∈ l, b ∈ territory} {start found answer : SortedSet α}
    {stack : List α} (half : Halfway next start found stack)
    (hRun : run next territory inside found stack = .ok answer) :
    Halfway next start answer [] := by
  fun_induction run next territory inside found stack with
  | case1 found =>
      cases hRun
      exact half
  | case2 found a rest e hNext => cases hRun
  | case3 found a rest l hNext _ ih => exact ih (half.enter hNext) hRun

section Reach

variable {next : α → Except ε (List α)} {territory : List α}
  {inside : ∀ a l, next a = .ok l → ∀ b ∈ l, b ∈ territory} {start : SortedSet α}

/-- The answer of a search is the set of all places that can be reached. -/
theorem mem_reach_iff {answer : SortedSet α} (h : reach next territory inside start = .ok answer)
    {b : α} : b ∈ answer ↔ Reached next start b :=
  ((halfway_start next start).run_ok h).mem_iff

/-- A search fails only at a place that can be reached, and with its refusal. -/
theorem exists_reached_of_reach_error {e : ε} (h : reach next territory inside start = .error e) :
    ∃ b, Reached next start b ∧ next b = .error e :=
  (halfway_start next start).run_error h

/-- A search that may enter every place it comes to has an answer. -/
theorem exists_reach_ok (h : ∀ b, Reached next start b → ∃ l, next b = .ok l) :
    ∃ answer, reach next territory inside start = .ok answer := by
  cases hReach : reach next territory inside start with
  | ok answer => exact ⟨answer, rfl⟩
  | error e =>
      obtain ⟨b, hb, hError⟩ := exists_reached_of_reach_error hReach
      obtain ⟨l, hl⟩ := h b hb
      cases hl.symm.trans hError

end Reach

section Stages

variable {next : α → Except ε (List α)} {territory : List α}
  {inside : ∀ a l, next a = .ok l → ∀ b ∈ l, b ∈ territory}

/-- The stages of a search: after a number of places were entered, what is found and what is on
the stack. -/
inductive Stage (next : α → Except ε (List α)) (start : SortedSet α) :
    Nat → SortedSet α → List α → Prop where
  | start : Stage next start 0 start start.toList.reverse
  | enter {entered : Nat} {found : SortedSet α} {a : α} {rest l : List α}
      (earlier : Stage next start entered found (a :: rest)) (follow : next a = .ok l) :
      Stage next start (entered + 1) (discover l found rest).1 (discover l found rest).2

theorem size_discover (l : List α) (found : SortedSet α) (stack : List α) :
    (discover l found stack).1.size + stack.length =
      found.size + (discover l found stack).2.length := by
  induction l generalizing found stack with
  | nil => rfl
  | cons b rest ih =>
      unfold discover
      split
      next => exact ih found stack
      next hNew =>
        have hRest := ih (found.insert b) (b :: stack)
        rw [SortedSet.size_insert hNew, List.length_cons] at hRest
        omega

namespace Stage

variable {start found answer : SortedSet α} {stack : List α} {entered : Nat}

theorem halfway (h : Stage next start entered found stack) : Halfway next start found stack := by
  induction h with
  | start => exact halfway_start next start
  | enter _ follow ih => exact ih.enter follow

/-- What is found is on the stack or was entered, each place once. -/
theorem size_eq (h : Stage next start entered found stack) :
    found.size = entered + stack.length := by
  induction h with
  | start => simp [SortedSet.size]
  | @enter entered found a rest l _ _ ih =>
      have hGrown := size_discover l found rest
      rw [List.length_cons] at ih
      omega

theorem exists_of_run (h : Stage next start entered found stack)
    (hRun : run next territory inside found stack = .ok answer) :
    ∃ total, Stage next start total answer [] := by
  fun_induction run next territory inside found stack generalizing entered with
  | case1 found =>
      cases hRun
      exact ⟨entered, h⟩
  | case2 found a rest e hNext => cases hRun
  | case3 found a rest l hNext _ ih => exact ih (h.enter hNext) hRun

end Stage

/-- A search that ends has entered everything that it found, each place once. -/
theorem stage_of_reach {start answer : SortedSet α}
    (h : reach next territory inside start = .ok answer) :
    Stage next start answer.size answer [] := by
  obtain ⟨total, hStage⟩ := Stage.start.exists_of_run h
  have hSize : answer.size = total := hStage.size_eq
  rwa [hSize]

end Stages

end FiniteAutomata.Search
