import FiniteAutomata.Proofs.Workbench.Counting

/-! What closures and unions on the bench accept. Their operands need not come from other
operations: a fragment that was put together from a given graph may have edges into its start
state and out of its final one, and both may be the same state. All that counts is that it
passes its check, and that the two states around it are new to it. They are new as long as a
register holds them: a counter that begins again hands out numbers that are taken. -/
namespace FiniteAutomata

variable {σ : Type} [Symbol σ]

namespace Fragment

open scoped Computability

variable {t : Session} {x y : Fragment σ}

theorem Belongs.closure_spec (hx : x.Belongs t) (wf : x.WellFormed) :
    (x.closure.run t).1.WellFormed ∧ (x.closure.run t).1.language = x.language∗ := by
  obtain ⟨hStart, hFinal⟩ := hx.not_mem_pair
  have hNe : t.next ≠ t.next + 1 := (Nat.succ_ne_self t.next).symm
  exact ⟨wellFormed_closureBetween wf, language_closureBetween wf hStart hFinal hNe⟩

theorem Belongs.union_spec (hx : x.Belongs t) (hy : y.Belongs t) (wfx : x.WellFormed)
    (wfy : y.WellFormed) (hApart : x.Apart y) :
    ∃ z u, Yields (x.union y) t z u ∧ z.WellFormed ∧ z.language = x.language + y.language := by
  obtain ⟨hStart, hFinal⟩ := hx.not_mem_pair
  obtain ⟨hStart', hFinal'⟩ := hy.not_mem_pair
  have hNe : t.next ≠ t.next + 1 := (Nat.succ_ne_self t.next).symm
  exact ⟨_, _, yields_union (hx.session_eq.trans hy.session_eq.symm) hApart t,
    wellFormed_unionBetween wfx wfy hApart,
    language_unionBetween wfx wfy hApart ⟨hStart, hStart'⟩ ⟨hFinal, hFinal'⟩ hNe⟩

/-- The closure accepts the words that are put together from accepted words. -/
theorem Belongs.closure_accepts (hx : x.Belongs t) (wf : x.WellFormed) (word : List σ) :
    ∃ b, (x.closure.run t).1.accepts word = .ok b ∧
      (b = true ↔ ∃ parts : List (List σ), word = parts.flatten ∧
        ∀ part ∈ parts, x.accepts part = .ok true) := by
  obtain ⟨hWell, hLanguage⟩ := hx.closure_spec wf
  obtain ⟨b, hAnswer, hMem⟩ := hWell.accepts_eq word
  rw [hLanguage, Language.mem_kstar] at hMem
  refine ⟨b, hAnswer, ?_⟩
  simp only [hMem, wf.accepts_eq_true_iff]

end Fragment

namespace Workbench

open Counting Fragment

/-- Of a fragment that passes its check, whatever graph it was put together from, the closure
passes it, too, and accepts exactly the words that consist of accepted words, of none as well.
With another such fragment of its session that shares no state with it, it has a union, which
passes the check and accepts exactly what one of the two accepts. The counter may be any exact
one, if a register holds all numbers that it has counted and the two it counts next. -/
theorem closure_union_accept [Counting] [Exact] (cs : List (Command σ)) (hFits : Fits cs)
    {name : String} {x : Fragment σ} (hx : (new.after cs).fragments.get? name = some x)
    (hValid : x.validate = .ok ())
    (hRoom : ((new.after cs).session x.session).next + 2 ≤ greatest) :
    ((x.closure.run ((new.after cs).session x.session)).1.validate = .ok () ∧
      ∀ word, ∃ b,
        (x.closure.run ((new.after cs).session x.session)).1.accepts word = .ok b ∧
        (b = true ↔ ∃ parts : List (List σ), word = parts.flatten ∧
          ∀ part ∈ parts, x.accepts part = .ok true)) ∧
    ∀ other y, (new.after cs).fragments.get? other = some y → y.validate = .ok () →
      x.session = y.session → x.Apart y →
      ∃ z u, (x.union y).run.run ((new.after cs).session x.session) = (.ok z, u) ∧
        z.validate = .ok () ∧ ∀ word, ∃ b, z.accepts word = .ok b ∧
          (b = true ↔ x.accepts word = .ok true ∨ y.accepts word = .ok true) := by
  have hw : (new.after cs : Workbench σ).Orderly := hFits.orderly
  have hBelongs := hw name x hx
  have wfx := validate_eq_ok_iff.mp hValid
  rw [run_closure_of_room hRoom]
  refine ⟨⟨validate_eq_ok_iff.mpr (hBelongs.closure_spec wfx).1,
    hBelongs.closure_accepts wfx⟩, ?_⟩
  intro other y hy hValid' hSession hApart
  have wfy := validate_eq_ok_iff.mp hValid'
  obtain ⟨z, u, hUnion, wf, hLanguage⟩ :=
    hBelongs.union_spec (hSession ▸ hw other y hy) wfx wfy hApart
  refine ⟨z, u, (run_union_of_room hRoom).trans hUnion, validate_eq_ok_iff.mpr wf, fun word => ?_⟩
  obtain ⟨b, hAnswer, hMem⟩ := wf.accepts_eq word
  refine ⟨b, hAnswer, ?_⟩
  rw [hMem, hLanguage, Language.mem_add, wfx.accepts_eq_true_iff, wfy.accepts_eq_true_iff]

/-- There and back again: the start state is entered, and the final one is left. -/
def shuttle : Fragment Char where
  session := 0
  graph := (Graph.empty.addEdge 0 1 (.symbol 'a')).addEdge 1 0 (.symbol 'b')
  start := 0
  final := 1
  alphabet := .ofList ['a', 'b']

/-- Commands that put the shuttle together, and beside it a single state with a loop. -/
def handmade : List (Command Char) :=
  [.assemble 0 "shuttle" ⟨none, [], [⟨0, 1, .symbol 'a'⟩, ⟨1, 0, .symbol 'b'⟩], [], 0, 1,
      .ofList ['a', 'b']⟩,
    .assemble 0 "loop" ⟨none, [], [⟨5, 5, .symbol 'c'⟩], [], 5, 5, .ofList ['c']⟩]

theorem closure_union_accept_handmade :
    (@after _ _ wrapping new handmade).fragments.get? "shuttle" = some shuttle ∧
    shuttle.validate = .ok () ∧
    ((@closure _ _ wrapping shuttle).run ((@after _ _ wrapping new handmade).session 0)).1.accepts
      ['a', 'a', 'b', 'a'] = .ok true ∧
    ∃ y z u, (@after _ _ wrapping new handmade).fragments.get? "loop" = some y ∧
      y.validate = .ok () ∧ shuttle.session = y.session ∧ shuttle.Apart y ∧
      (@union _ _ wrapping shuttle y).run.run ((@after _ _ wrapping new handmade).session 0) =
        (.ok z, u) ∧
      z.validate = .ok () ∧ z.accepts ['a', 'b', 'a'] = .ok true := by
  have hFits : Fits handmade := by decide +kernel
  have hx : (@after _ _ wrapping new handmade).fragments.get? "shuttle" = some shuttle := by
    decide +kernel
  have hValid : shuttle.validate = .ok () := by rfl
  have hRoom :
      ((@after _ _ wrapping new handmade).session shuttle.session).next + 2 ≤ greatest := by
    decide +kernel
  have hLoop : ∃ y, (@after _ _ wrapping new handmade).fragments.get? "loop" = some y ∧
      y.validate = .ok () ∧ shuttle.session = y.session ∧
      ∀ s ∈ shuttle.graph.vertices, s ∉ y.graph := ⟨_, rfl, by decide⟩
  obtain ⟨y, hy, hValid', hSession, hNone⟩ := hLoop
  have hApart : shuttle.Apart y := fun s hs => hNone s (Graph.mem_vertices.mpr hs)
  have hThere : shuttle.graph.Joins 0 (.symbol 'a') 1 := List.mem_cons_self
  have hBack : shuttle.graph.Joins 1 (.symbol 'b') 0 := List.mem_cons_self
  have wf := validate_eq_ok_iff.mp hValid
  have hOnce : shuttle.accepts ['a'] = .ok true :=
    wf.accepts_eq_true_iff.mpr (.read hThere (.nil 1))
  have hTwice : shuttle.accepts ['a', 'b', 'a'] = .ok true :=
    wf.accepts_eq_true_iff.mpr (.read hThere (.read hBack (.read hThere (.nil 1))))
  obtain ⟨⟨-, hClosure⟩, hUnion⟩ :=
    @closure_union_accept _ _ wrapping exact_wrapping handmade hFits _ _ hx hValid hRoom
  obtain ⟨b, hAnswer, hParts⟩ := hClosure ['a', 'a', 'b', 'a']
  obtain ⟨z, u, hBoth, hValidBoth, hEither⟩ := hUnion "loop" y hy hValid' hSession hApart
  obtain ⟨c, hAnswer', hSome⟩ := hEither ['a', 'b', 'a']
  have hb : b = true :=
    hParts.mpr ⟨[['a'], ['a', 'b', 'a']], rfl, by simp [hOnce, hTwice]⟩
  have hc : c = true := hSome.mpr (Or.inl hTwice)
  exact ⟨hx, hValid, hb ▸ hAnswer, y, z, u, hy, hValid', hSession, hApart, hBoth, hValidBoth,
    hc ▸ hAnswer'⟩

/-- A command that puts together a fragment for the word `ab` alone. Its states are numbered so
that only one number is left, and that its middle has the number after that. -/
def brink : List (Command Char) :=
  [.assemble 0 "x" ⟨none, [], [⟨1, 0, .symbol 'a'⟩, ⟨0, greatest - 1, .symbol 'b'⟩], [], 1,
    greatest - 1, .ofList ['a', 'b']⟩]

/-- The new final state of its closure is the middle of the fragment, so the closure accepts a
word that is not put together from accepted words; or the program ends. -/
theorem exists_overrun_closure : ∃ x,
    (@after _ _ wrapping new brink).fragments.get? "x" = some x ∧ x.validate = .ok () ∧
    ((@closure _ _ wrapping x).run ((@after _ _ wrapping new brink).session 0)).1.accepts ['a'] =
      .ok true ∧
    (¬ ∃ parts : List (List Char), ['a'] = parts.flatten ∧
      ∀ part ∈ parts, x.accepts part = .ok true) ∧
    ((new.after brink).runChecked (.closure "x" "y")).isNone := by
  have hFound : ∃ x, (@after _ _ wrapping new brink).fragments.get? "x" = some x ∧
      x.validate = .ok () ∧ ((@closure _ _ wrapping x).run
        ((@after _ _ wrapping new brink).session 0)).1.accepts ['a'] = .ok true ∧
      x.accepts [] = .ok false ∧ x.accepts ['a'] = .ok false := ⟨_, rfl, by decide +kernel⟩
  obtain ⟨x, hx, hValid, hAccepts, hEmpty, hTorn⟩ := hFound
  refine ⟨x, hx, hValid, hAccepts, ?_, by decide +kernel⟩
  rintro ⟨parts, hWord, hParts⟩
  have hNone : ∀ part ∈ parts, part = [] := by
    intro part hPart
    have hSub : part.Sublist ['a'] := hWord ▸ List.sublist_flatten_of_mem hPart
    rcases List.sublist_singleton.mp hSub with rfl | rfl
    · rfl
    · exact nomatch hTorn.symm.trans (hParts _ hPart)
  rw [List.flatten_eq_nil_iff.mpr hNone] at hWord
  cases hWord

end Workbench

end FiniteAutomata
