import FiniteAutomata.Proofs.Fragment.Missing
import FiniteAutomata.Proofs.Workbench.Counting

/-! What becomes of broken fragments. A fragment that fails its check gets no automaton, but
what is made of it may pass the check again: which missing states come back as vertices
depends on the operation, and is the same for all fragments that commands can bring about. -/
namespace FiniteAutomata.Workbench

open Counting Fragment

variable {σ : Type} [Symbol σ]

/-- A fragment that commands bring about is broken exactly if a state is missing. Its copy
is broken if nothing but the final state is lost for good: it is missing and not entered. Its
closure is broken if a state besides the final one is missing; a union, if a state is missing
that is neither a vertex nor the final state of either operand; a concatenation, if the state
that it drops is still asked for, or a state that no copied edge brings back. No automaton is
ever made for a broken fragment. The counter may be any exact one, if a register holds all
numbers that it has counted and those it counts next. -/
theorem broken_iff_of_operations [Counting] [Exact] (cs : List (Command σ)) (hFits : Fits cs)
    {name other : String} {x y : Fragment σ}
    (hx : (new.after cs).fragments.get? name = some x)
    (hy : (new.after cs).fragments.get? other = some y) :
    let t := (new.after cs).session x.session
    (x.Broken ↔ ∃ s, x.Missing s) ∧
    (t.next + x.mentioned.length ≤ greatest →
      ((x.replicate.run t).1.Broken ↔ x.Missing x.final ∧ ¬ x.Entered x.final)) ∧
    (t.next + 2 ≤ greatest →
      ((x.closure.run t).1.Broken ↔ ∃ s, x.Missing s ∧ s ≠ x.final)) ∧
    (t.next + 2 ≤ greatest → ∀ z u, (x.union y).run.run t = (.ok z, u) →
      (z.Broken ↔ ∃ s, (x.Missing s ∨ y.Missing s) ∧ (s ∉ x.graph ∧ s ≠ x.final) ∧
        s ∉ y.graph ∧ s ≠ y.final)) ∧
    (∀ z, x.concat y = .ok z → (z.Broken ↔ x.DropsNeeded y ∨ ∃ s, x.LeavesOut y s)) ∧
    ∀ z : Fragment σ, z.Broken → ∀ limit, ∃ f,
      z.validate = .error f ∧ Dfa.ofFragment limit z = .error f ∧ f.category = .invariant := by
  have hw : (new.after cs : Workbench σ).Orderly := hFits.orderly
  have hLeft := hw name x hx
  have hRight := hw other y hy
  intro t
  refine ⟨hLeft.rooted.broken_iff, fun hRoom => ?_, fun hRoom => ?_, ?_, ?_,
    fun z hz => hz.ofFragment_error⟩
  · rw [run_replicate_of_room hRoom]
    exact broken_replicate hLeft.rooted t
  · rw [run_closure_of_room hRoom]
    exact broken_closure hLeft
  · intro hRoom z u hUnion
    rw [run_union_of_room hRoom] at hUnion
    exact broken_union hLeft (fun hEq => by rwa [hEq] at hRight) hUnion
  · intro z hConcat
    obtain ⟨-, hApart, rfl⟩ := concat_eq_ok_iff.mp hConcat
    exact broken_concatenated hLeft.rooted hRight.rooted hApart

/-- A single vertex in front of a loop on the state that the concatenation drops, and a
sound fragment beside it. -/
def droppedLoop : List (Command Char) :=
  [.assemble 0 "front" ⟨none, [0], [], [], 0, 0, ∅⟩,
    .assemble 0 "loop" ⟨none, [], [⟨1, 1, .symbol 'a'⟩], [], 1, 1, .ofList ['a']⟩,
    .join .concat "front" (some "loop") "broken",
    .literal 0 "sound" 'b']

theorem broken_iff_of_operations_droppedLoop :
    ∃ x y, (@after _ _ wrapping new droppedLoop).fragments.get? "broken" = some x ∧
      (@after _ _ wrapping new droppedLoop).fragments.get? "sound" = some y ∧
      (x.Broken ↔ ∃ s, x.Missing s) ∧
      (((@closure _ _ wrapping x).run
          ((@after _ _ wrapping new droppedLoop).session x.session)).1.Broken ↔
        ∃ s, x.Missing s ∧ s ≠ x.final) := by
  have hFits : Fits droppedLoop := by decide +kernel
  have hFound : ∃ x y, (@after _ _ wrapping new droppedLoop).fragments.get? "broken" = some x ∧
      (@after _ _ wrapping new droppedLoop).fragments.get? "sound" = some y ∧
      ((@after _ _ wrapping new droppedLoop).session x.session).next + 2 ≤ greatest :=
    ⟨_, _, rfl, rfl, by decide +kernel⟩
  obtain ⟨x, y, hx, hy, hRoom⟩ := hFound
  obtain ⟨hSelf, -, hClosure, -⟩ :=
    @broken_iff_of_operations _ _ wrapping exact_wrapping droppedLoop hFits _ _ _ _ hx hy
  exact ⟨x, y, hx, hy, hSelf, hClosure hRoom⟩

/-- Whatever is made of the broken fragment, and in whatever order it is put together with a
sound one, the result passes the check. -/
theorem exists_mended : ∃ x y, (new.after droppedLoop).fragments.get? "broken" = some x ∧
    (new.after droppedLoop).fragments.get? "sound" = some y ∧ x.Broken ∧
    ¬ (x.replicate.run ((new.after droppedLoop).session 0)).1.Broken ∧
    ¬ (x.closure.run ((new.after droppedLoop).session 0)).1.Broken ∧
    (∃ z u, (x.union y).run.run ((new.after droppedLoop).session 0) = (.ok z, u) ∧ ¬ z.Broken) ∧
    (∃ z u, (y.union x).run.run ((new.after droppedLoop).session 0) = (.ok z, u) ∧ ¬ z.Broken) ∧
    (∃ z, x.concat y = .ok z ∧ ¬ z.Broken) ∧ ∃ z, y.concat x = .ok z ∧ ¬ z.Broken := by
  refine ⟨_, _, rfl, rfl, ?_, ?_, ?_, ⟨_, _, rfl, ?_⟩, ⟨_, _, rfl, ?_⟩, ⟨_, rfl, ?_⟩, ⟨_, rfl, ?_⟩⟩
    <;> decide

end FiniteAutomata.Workbench
