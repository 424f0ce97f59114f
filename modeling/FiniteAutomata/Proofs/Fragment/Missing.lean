import FiniteAutomata.Dfa.Subset
import FiniteAutomata.Proofs.Fragment.Fresh

/-! Fragments that have lost a state. A concatenation can drop a state that is still the
target of an edge or the final state. No combinator checks its operands, and an edge makes
vertices of both its ends, so a state that is missing in an operand may come back as a
vertex of the result. -/
namespace FiniteAutomata.Fragment

variable {σ : Type} [Symbol σ]

/-- The fragment does not pass its check. -/
def Broken (x : Fragment σ) : Prop := x.validate ≠ .ok ()

instance (x : Fragment σ) : Decidable x.Broken := inferInstanceAs (Decidable (x.validate ≠ .ok ()))

/-- An edge leads to the state. -/
def Entered (x : Fragment σ) (s : State) : Prop := ∃ p l, x.graph.Joins p l s

/-- The state is final or an edge leads to it, but it is no vertex. -/
def Missing (x : Fragment σ) (s : State) : Prop := (s = x.final ∨ x.Entered s) ∧ s ∉ x.graph

section Check

variable {x : Fragment σ}

theorem Rooted.broken_iff (hx : x.Rooted) : x.Broken ↔ ∃ s, x.Missing s := by
  rw [Broken, Ne, validate_eq_ok_iff, not_iff_comm]
  constructor
  · intro hNone
    have hVertex : ∀ s, s = x.final ∨ x.Entered s → s ∈ x.graph := fun s hs =>
      Decidable.byContradiction fun hOut => hNone ⟨s, hs, hOut⟩
    exact ⟨hx.start_mem, hVertex x.final (Or.inl rfl),
      fun p l t hEdge => hVertex t (Or.inr ⟨p, l, hEdge⟩), hx.symbol_mem⟩
  · rintro wf ⟨s, rfl | ⟨p, l, hEdge⟩, hOut⟩
    · exact hOut wf.final_mem
    · exact hOut (wf.target_mem p l s hEdge)

theorem category_of_fault? {f : Fault σ} (h : x.fault? = some f) : f.category = .invariant := by
  unfold fault? at h
  split at h
  next => cases h; rfl
  next =>
    split at h
    next => cases h; rfl
    next =>
      obtain ⟨e, -, hEdge⟩ := List.exists_of_findSome?_eq_some h
      unfold edgeFault? at hEdge
      split at hEdge
      next => cases hEdge; rfl
      next =>
        split at hEdge
        next => cases hEdge
        next =>
          split at hEdge
          next => cases hEdge
          next => cases hEdge; rfl

/-- No automaton is made for a broken fragment; the check says why. -/
theorem Broken.ofFragment_error (h : x.Broken) (limit : Option Nat) :
    ∃ f, x.validate = .error f ∧ Dfa.ofFragment limit x = .error f ∧ f.category = .invariant := by
  cases hFault : x.fault? with
  | none => exact False.elim (h (by rw [validate, hFault]))
  | some f =>
      have hCheck : x.validate = .error f := by rw [validate, hFault]
      refine ⟨f, hCheck, ?_, category_of_fault? hFault⟩
      rw [Dfa.ofFragment, hCheck]
      rfl

end Check

section Operations

variable {x y : Fragment σ} {start final : State}

/-- A copy has the targets of all edges as vertices. -/
theorem broken_rename (hx : x.Rooted) {f : State → State}
    (hInj : ∀ s t, x.Mentions s → x.Mentions t → f s = f t → s = t) :
    (x.rename f).Broken ↔ x.Missing x.final ∧ ¬ x.Entered x.final := by
  rw [hx.rename.broken_iff]
  constructor
  · rintro ⟨v, rfl | ⟨p, l, hEdge⟩, hOut⟩
    · have hVertex : x.final ∉ x.graph := fun h =>
        hOut (mem_rename_iff.mpr ⟨x.final, Or.inl h, rfl⟩)
      exact ⟨⟨Or.inl rfl, hVertex⟩, fun h => hOut (mem_rename_iff.mpr ⟨x.final, Or.inr h, rfl⟩)⟩
    · obtain ⟨s, t, hOld, -, rfl⟩ := joins_rename.mp hEdge
      exact False.elim (hOut (mem_rename_iff.mpr ⟨t, Or.inr ⟨s, l, hOld⟩, rfl⟩))
  · rintro ⟨⟨-, hVertex⟩, hEntered⟩
    refine ⟨f x.final, Or.inl rfl, fun hMem => ?_⟩
    obtain ⟨s, hs | ⟨p, l, hEdge⟩, hEq⟩ := mem_rename_iff.mp hMem
    · exact hVertex (hInj x.final s .final (.vertex hs) hEq ▸ hs)
    · exact hEntered (hInj x.final s .final (.target hEdge) hEq ▸ ⟨p, l, hEdge⟩)

theorem broken_replicate (hx : x.Rooted) (t : Session) :
    (x.replicate.run t).1.Broken ↔ x.Missing x.final ∧ ¬ x.Entered x.final := by
  have hCopy : (x.replicate.run t).1 = x.rename fun s => t.next + x.mentioned.idxOf s := by
    rw [run_replicate]
  rw [hCopy]
  exact broken_rename hx fun _ _ hs _ hEq =>
    (List.idxOf_inj (mem_mentioned_iff.mpr hs)).mp (Nat.add_left_cancel hEq)

/-- A closure has the old final state as a vertex. -/
theorem broken_closureBetween (hx : x.Rooted) (hStart : ¬ x.Mentions start)
    (hFinal : ¬ x.Mentions final) :
    (x.closureBetween start final).Broken ↔ ∃ s, x.Missing s ∧ s ≠ x.final := by
  rw [hx.closureBetween.broken_iff]
  refine exists_congr fun s => ?_
  rw [Missing, mem_closureBetween_iff]
  constructor
  · rintro ⟨hAsked, hOut⟩
    simp only [not_or] at hOut
    refine ⟨⟨Or.inr ?_, hOut.1⟩, hOut.2.2.2.2⟩
    rcases hAsked with hEnd | ⟨p, l, hEdge⟩
    · exact False.elim (hOut.2.2.1 hEnd)
    · rcases joins_closureBetween.mp hEdge with hOld | ⟨-, ⟨-, hEq | hEq⟩ | ⟨-, hEq | hEq⟩⟩
      · exact ⟨p, l, hOld⟩
      · exact False.elim (hOut.2.2.2.1 hEq)
      · exact False.elim (hOut.2.2.1 hEq)
      · exact False.elim (hOut.2.2.1 hEq)
      · exact False.elim (hOut.2.2.2.1 hEq)
  · rintro ⟨⟨hAsked, hOut⟩, hEnd⟩
    obtain ⟨p, l, hEdge⟩ := hAsked.resolve_left hEnd
    have hMentions : x.Mentions s := .target hEdge
    refine ⟨Or.inr ⟨p, l, joins_closureBetween.mpr (Or.inl hEdge)⟩, ?_⟩
    rintro (hVertex | rfl | rfl | rfl | hEq)
    · exact hOut hVertex
    · exact hStart hMentions
    · exact hFinal hMentions
    · exact hOut hx.start_mem
    · exact hEnd hEq

theorem broken_closure {t : Session} (hx : x.Belongs t) :
    (x.closure.run t).1.Broken ↔ ∃ s, x.Missing s ∧ s ≠ x.final :=
  broken_closureBetween hx.rooted (hx.not_mentions (Nat.le_refl _))
    (hx.not_mentions (Nat.le_succ _))

/-- A union has the old final states as vertices, and the vertices of both operands. -/
theorem broken_unionBetween (hx : x.Rooted) (hy : y.Rooted) (hApart : x.Apart y)
    (hStart : ¬ (x.Mentions start ∨ y.Mentions start))
    (hFinal : ¬ (x.Mentions final ∨ y.Mentions final)) :
    ((x.merged y).unionBetween y start final).Broken ↔
      ∃ s, (x.Missing s ∨ y.Missing s) ∧ (s ∉ x.graph ∧ s ≠ x.final) ∧
        s ∉ y.graph ∧ s ≠ y.final := by
  rw [(hx.unionBetween hy hApart).broken_iff]
  refine exists_congr fun s => ?_
  rw [Missing, mem_unionBetween_iff]
  constructor
  · rintro ⟨hAsked, hOut⟩
    simp only [not_or] at hOut
    obtain ⟨⟨hLeft, hRight⟩, ⟨hNe, hNe'⟩, ⟨hStartLeft, hEndLeft⟩, hStartRight, hEndRight⟩ := hOut
    refine ⟨?_, ⟨hLeft, hEndLeft⟩, hRight, hEndRight⟩
    rcases hAsked with hEnd | ⟨p, l, hEdge⟩
    · exact False.elim (hNe' hEnd)
    · rcases (joins_unionBetween hApart).mp hEdge with
        (hOld | hOld) | ⟨-, ⟨-, hEq | hEq⟩ | ⟨-, hEq⟩⟩
      · exact Or.inl ⟨Or.inr ⟨p, l, hOld⟩, hLeft⟩
      · exact Or.inr ⟨Or.inr ⟨p, l, hOld⟩, hRight⟩
      · exact False.elim (hStartLeft hEq)
      · exact False.elim (hStartRight hEq)
      · exact False.elim (hNe' hEq)
  · rintro ⟨hEither, ⟨hLeft, hEndLeft⟩, hRight, hEndRight⟩
    have hEntered : x.Entered s ∨ y.Entered s :=
      hEither.imp (fun h => h.1.resolve_left hEndLeft) fun h => h.1.resolve_left hEndRight
    have hMentions : x.Mentions s ∨ y.Mentions s :=
      hEntered.imp (fun ⟨_, _, hEdge⟩ => .target hEdge) fun ⟨_, _, hEdge⟩ => .target hEdge
    constructor
    · rcases hEntered with ⟨p, l, hEdge⟩ | ⟨p, l, hEdge⟩
      · exact Or.inr ⟨p, l, (joins_unionBetween hApart).mpr (Or.inl (Or.inl hEdge))⟩
      · exact Or.inr ⟨p, l, (joins_unionBetween hApart).mpr (Or.inl (Or.inr hEdge))⟩
    · rintro ((hVertex | hVertex) | (rfl | rfl) | (rfl | hEq) | rfl | hEq)
      · exact hLeft hVertex
      · exact hRight hVertex
      · exact hStart hMentions
      · exact hFinal hMentions
      · exact hLeft hx.start_mem
      · exact hEndLeft hEq
      · exact hRight hy.start_mem
      · exact hEndRight hEq

theorem broken_union {t u : Session} {z : Fragment σ} (hx : x.Belongs t)
    (hy : y.session = t.id → y.Belongs t) (h : Yields (x.union y) t z u) :
    z.Broken ↔ ∃ s, (x.Missing s ∨ y.Missing s) ∧ (s ∉ x.graph ∧ s ≠ x.final) ∧
      s ∉ y.graph ∧ s ≠ y.final := by
  obtain ⟨hSession, hApart, rfl⟩ := of_yields_union h
  have hy := hy (hSession.symm.trans hx.session_eq)
  refine broken_unionBetween hx.rooted hy.rooted hApart ?_ ?_
  · exact not_or.mpr ⟨hx.not_mentions (Nat.le_refl _), hy.not_mentions (Nat.le_refl _)⟩
  · exact not_or.mpr ⟨hx.not_mentions (Nat.le_succ _), hy.not_mentions (Nat.le_succ _)⟩

/-- An edge that leads to the state is kept or copied when `y` is put behind `x`. Only an
edge from the right start to itself can be lost, if the left final state is that state. -/
def EnteredAfter (x y : Fragment σ) (s : State) : Prop :=
  x.Entered s ∨ ∃ p l, y.graph.Joins p l s ∧ (p = y.start → x.final ≠ y.start)

theorem entered_concatenated (hy : y.Rooted) (hApart : x.Apart y) {s : State} :
    (x.concatenated y).Entered s ↔ x.EnteredAfter y s := by
  constructor
  · rintro ⟨p, l, hEdge⟩
    obtain ⟨hNe, (hOld | hOld) | ⟨rfl, hOld⟩⟩ := (joins_concatenated hApart hy.start_mem).mp hEdge
    · exact Or.inl ⟨p, l, hOld⟩
    · exact Or.inr ⟨p, l, hOld, fun hEq => False.elim (hNe hEq)⟩
    · exact Or.inr ⟨y.start, l, hOld, fun _ => hNe⟩
  · rintro (⟨p, l, hEdge⟩ | ⟨p, l, hEdge, hFirst⟩)
    · exact ⟨p, l, joins_concatenated_left hApart hy.start_mem hEdge⟩
    · obtain ⟨q, hKept⟩ := exists_joins_concatenated hApart hy.start_mem hEdge hFirst
      exact ⟨q, l, hKept⟩

/-- The state that a concatenation drops is still asked for. -/
def DropsNeeded (x y : Fragment σ) : Prop := y.start = y.final ∨ x.EnteredAfter y y.start

/-- A concatenation leaves out a state that is asked for: it is a vertex of neither operand,
and no copied edge begins or ends there. -/
def LeavesOut (x y : Fragment σ) (s : State) : Prop :=
  (s = y.final ∨ x.Entered s ∨ y.Entered s) ∧ (s ∉ x.graph ∧ s ∉ y.graph) ∧
    ∀ l t, y.graph.Joins y.start l t → s ≠ x.final ∧ s ≠ t

theorem broken_concatenated (hx : x.Rooted) (hy : y.Rooted) (hApart : x.Apart y) :
    (x.concatenated y).Broken ↔ x.DropsNeeded y ∨ ∃ s, x.LeavesOut y s := by
  have hMissing : ∀ s, (x.concatenated y).Missing s ↔ (s = y.final ∨ x.EnteredAfter y s) ∧
      s ∉ (x.concatenated y).graph := fun s =>
    and_congr_left fun _ => or_congr_right (entered_concatenated hy hApart)
  rw [(hx.concatenated hy hApart).broken_iff]
  simp only [hMissing, mem_concatenated_iff hy.start_mem]
  constructor
  · rintro ⟨s, hAsked, hOut⟩
    by_cases hDropped : s = y.start
    · subst hDropped
      exact Or.inl hAsked
    · simp only [ne_eq, hDropped, not_false_eq_true, true_and, not_or] at hOut
      refine Or.inr ⟨s, ?_, hOut.1, fun l t hEdge => ⟨fun hEq => hOut.2 ⟨l, t, hEdge, Or.inl hEq⟩,
        fun hEq => hOut.2 ⟨l, t, hEdge, Or.inr hEq⟩⟩⟩
      rcases hAsked with hEnd | hEntered | ⟨p, l, hEdge, -⟩
      · exact Or.inl hEnd
      · exact Or.inr (Or.inl hEntered)
      · exact Or.inr (Or.inr ⟨p, l, hEdge⟩)
  · rintro (hDrops | ⟨s, hAsked, ⟨hLeft, hRight⟩, hCopied⟩)
    · exact ⟨y.start, hDrops, fun hMem => hMem.1 rfl⟩
    · refine ⟨s, ?_, ?_⟩
      · rcases hAsked with hEnd | hEntered | ⟨p, l, hEdge⟩
        · exact Or.inl hEnd
        · exact Or.inr (Or.inl hEntered)
        · -- an edge from the right start would be copied, and bring the state back
          refine Or.inr (Or.inr ⟨p, l, hEdge, ?_⟩)
          rintro rfl
          exact False.elim ((hCopied l s hEdge).2 rfl)
      · rintro ⟨-, (hMem | hMem) | ⟨l, t, hEdge, hEq | hEq⟩⟩
        · exact hLeft hMem
        · exact hRight hMem
        · exact (hCopied l t hEdge).1 hEq
        · exact (hCopied l t hEdge).2 hEq

end Operations

end FiniteAutomata.Fragment
