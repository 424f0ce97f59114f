import FiniteAutomata.Proofs.Workbench.Counting

/-! Work that is refused. Fragments are compared before a number is handed out for their union,
and given parts are checked before a session keeps clear of them, so a session does not notice
what could not be done. What is done moves a session on, as far as a register allows. -/
namespace FiniteAutomata

open Counting

variable {σ : Type} [Symbol σ]

namespace Fragment

/-- Why two fragments cannot be put together. Sessions are compared first; of the states that
both have, the smallest is named. -/
inductive Clash (x y : Fragment σ) : Fault σ → Prop where
  | sessions (hNe : x.session ≠ y.session) : Clash x y .differentSessions
  | shared {s : State} (hEq : x.session = y.session) (hx : s ∈ x.graph) (hy : s ∈ y.graph)
      (least : ∀ t ∈ x.graph, t ∈ y.graph → s ≤ t) : Clash x y (.sharedState s)

section Merge

variable {x y : Fragment σ} {f g : Fault σ}

theorem Clash.unique (hf : Clash x y f) (hg : Clash x y g) : f = g := by
  cases hf with
  | sessions hNe =>
      cases hg with
      | sessions => rfl
      | shared hEq => exact absurd hEq hNe
  | shared hEq hx hy least =>
      cases hg with
      | sessions hNe => exact absurd hEq hNe
      | shared _ hx' hy' least' =>
          rw [Nat.le_antisymm (least _ hx' hy') (least' _ hx hy)]

/-- What a search through an ascending list finds is the least that it could find. -/
theorem le_of_find?_eq_some {l : List State} {p : State → Bool} {s t : State}
    (hSorted : l.Pairwise (· < ·)) (hFound : l.find? p = some s) (ht : t ∈ l) (hp : p t = true) :
    s ≤ t := by
  obtain ⟨-, passed, rest, rfl, hPassed⟩ := List.find?_eq_some_iff_append.mp hFound
  rcases List.mem_append.mp ht with hHere | hRest
  · exact absurd hp (by simpa using hPassed t hHere)
  · rcases List.mem_cons.mp hRest with rfl | hLater
    · exact Nat.le_refl _
    · have hAbove := List.rel_of_pairwise_cons (List.pairwise_append.mp hSorted).2.1 hLater
      exact Nat.le_of_lt hAbove

/-- The vertices are looked through in ascending order. -/
theorem clash_of_merge_eq_error (h : x.merge y = .error f) : Clash x y f := by
  unfold merge at h
  split at h
  next hNe =>
    cases h
    exact .sessions hNe
  next hEq =>
    split at h
    next s hFound =>
      cases h
      have hSorted : y.graph.vertices.Pairwise (· < ·) :=
        y.graph.vertexSet.sorted.imp fun hLt => Nat.compare_eq_lt.mp hLt
      have hTest := List.find?_some hFound
      have hx : s ∈ x.graph := of_decide_eq_true hTest
      have hy : s ∈ y.graph := Graph.mem_vertices.mp (List.mem_of_find?_eq_some hFound)
      refine .shared (not_not.mp hEq) hx hy fun t htx hty => ?_
      exact le_of_find?_eq_some hSorted hFound (Graph.mem_vertices.mpr hty) (decide_eq_true htx)
    next => cases h

theorem merge_eq_error_iff : x.merge y = .error f ↔ Clash x y f := by
  refine ⟨clash_of_merge_eq_error, fun hClash => ?_⟩
  cases hMerge : x.merge y with
  | error g => rw [hClash.unique (clash_of_merge_eq_error hMerge)]
  | ok z =>
      obtain ⟨hEq, hApart, -⟩ := of_merge_eq_ok hMerge
      cases hClash with
      | sessions hNe => exact absurd hEq hNe
      | shared _ hx hy => exact absurd hy (hApart _ hx)

theorem exists_clash_iff :
    (∃ f, Clash x y f) ↔ x.session ≠ y.session ∨ ∃ s ∈ x.graph, s ∈ y.graph := by
  constructor
  · rintro ⟨f, hNe | ⟨-, hx, hy, -⟩⟩
    · exact Or.inl hNe
    · exact Or.inr ⟨_, hx, hy⟩
  · intro h
    cases hMerge : x.merge y with
    | error f => exact ⟨f, clash_of_merge_eq_error hMerge⟩
    | ok z =>
        obtain ⟨hEq, hApart, -⟩ := of_merge_eq_ok hMerge
        rcases h with hNe | ⟨s, hx, hy⟩
        · exact absurd hEq hNe
        · exact absurd hy (hApart s hx)

end Merge

section Parts

theorem fault?_eq_none_iff {x : Fragment σ} : x.fault? = none ↔ x.WellFormed := by
  rw [← validate_eq_ok_iff, validate]
  cases x.fault? <;> simp

/-- A session that keeps clear of states gets no further than just above the largest. -/
theorem reserve_foldl_next_le {l : List State} {n : State} (h : ∀ u ∈ l, u < n) (t : Session) :
    (l.foldl Session.reserve t).next ≤ max t.next n := by
  induction l generalizing t with
  | nil => exact Nat.le_max_left ..
  | cons v rest ih =>
      obtain ⟨hv, hRest⟩ := List.forall_mem_cons.mp h
      have hReserve : (t.reserve v).next ≤ max t.next n := reserve_eq t v ▸
        Nat.max_le.mpr ⟨Nat.le_max_left .., (Nat.succ_le_of_lt hv).trans (Nat.le_max_right ..)⟩
      exact (ih hRest (t.reserve v)).trans (Nat.max_le.mpr ⟨hReserve, Nat.le_max_right ..⟩)

theorem reserve_foldl_eq {l : List State} {v : State} (hv : v ∈ l) (hLargest : ∀ u ∈ l, u ≤ v)
    (t : Session) : l.foldl Session.reserve t = { t with next := max t.next (v + 1) } := by
  obtain ⟨hId, hNext, hBelow⟩ := reserve_foldl l t
  have hLe := reserve_foldl_next_le (fun u hu => Nat.lt_succ_of_le (hLargest u hu)) t
  have hEq := Nat.le_antisymm hLe (Nat.max_le.mpr ⟨hNext, hBelow v hv⟩)
  rw [← hId, ← hEq]

variable [Counting] {graph : Graph State (Label σ)} {start final : State} {alphabet : SortedSet σ}
  {t : Session}

/-- Parts are refused if they do not hold together. -/
theorem exists_fault_ofParts_iff :
    (∃ f, ((ofParts graph start final alphabet).run.run t).1 = .error f) ↔
      start ∉ graph ∨ final ∉ graph ∨ (∃ s l u, graph.Joins s l u ∧ u ∉ graph) ∨
        ∃ s a u, graph.Joins s (.symbol a) u ∧ a ∉ alphabet := by
  have hFails : (∃ f, ((ofParts graph start final alphabet).run.run t).1 = .error f) ↔
      ¬ WellFormed ⟨t.id, graph, start, final, alphabet⟩ := by
    rw [← fault?_eq_none_iff, run_ofParts]
    cases fault? ⟨t.id, graph, start, final, alphabet⟩ <;> simp
  rw [hFails]
  constructor
  · intro hNot
    by_contra hNone
    simp only [not_or, not_not, not_exists, not_and] at hNone
    obtain ⟨hStart, hFinal, hTarget, hSymbol⟩ := hNone
    exact hNot ⟨hStart, hFinal, hTarget, hSymbol⟩
  · rintro (hStart | hFinal | ⟨s, l, u, hEdge, hTarget⟩ | ⟨s, a, u, hEdge, hSymbol⟩) wf
    · exact hStart wf.start_mem
    · exact hFinal wf.final_mem
    · exact hTarget (wf.target_mem s l u hEdge)
    · exact hSymbol (wf.symbol_mem s a u hEdge)

theorem run_ofParts_of_error {f : Fault σ}
    (h : ((ofParts graph start final alphabet).run.run t).1 = .error f) :
    ((ofParts graph start final alphabet).run.run t).2 = t := by
  rw [run_ofParts] at h ⊢
  cases hFault : fault? ⟨t.id, graph, start, final, alphabet⟩ with
  | some f => rfl
  | none =>
      rw [hFault] at h
      cases h

theorem run_ofParts_of_ok [Exact] {x : Fragment σ}
    (h : ((ofParts graph start final alphabet).run.run t).1 = .ok x) :
    ∃ v ∈ graph, (∀ u ∈ graph, u ≤ v) ∧ (v < greatest →
      ((ofParts graph start final alphabet).run.run t).2 =
        { t with next := max t.next (v + 1) }) := by
  rw [run_ofParts] at h ⊢
  cases hFault : fault? ⟨t.id, graph, start, final, alphabet⟩ with
  | some f =>
      rw [hFault] at h
      cases h
  | none =>
      have hStart : start ∈ graph := (fault?_eq_none_iff.mp hFault).start_mem
      obtain ⟨v, hMax⟩ := Option.isSome_iff_exists.mp
        (List.isSome_max?_of_mem (Graph.mem_vertices.mpr hStart))
      obtain ⟨hv, hLargest⟩ := List.max?_eq_some_iff.mp hMax
      refine ⟨v, Graph.mem_vertices.mp hv, fun u hu => hLargest u (Graph.mem_vertices.mpr hu), ?_⟩
      intro hRoom
      have hBelow : ∀ u ∈ graph.vertices, u < greatest := fun u hu =>
        (hLargest u hu).trans_lt hRoom
      exact (reserve_foldl_eq_of_lt hBelow t).trans (reserve_foldl_eq hv hLargest t)

end Parts

end Fragment

namespace Workbench

open Fragment

/-- How many numbers it takes to put two fragments together. -/
def Junction.spent : Junction → Nat
  | concat => 0
  | union => 2

section Join

/-- Fragments that can be merged are put together with any counter; an exact one has spent the
next numbers for it, if there are enough of them. -/
theorem run_junction_of_apart [Counting] [Exact] (junction : Junction) {x y : Fragment σ}
    (hEq : x.session = y.session) (hApart : x.Apart y) (t : Session) :
    ∃ z u, (junction.apply x (some y)).run.run t = (.ok z, u) ∧
      ((junction = .union → t.next + 2 ≤ greatest) → u.next = t.next + junction.spent) := by
  cases junction with
  | concat =>
      exact ⟨_, t, yields_liftExcept (concat_eq_ok hEq hApart) t, fun _ => rfl⟩
  | union =>
      refine ⟨_, _, (yields_liftExcept (merge_eq_ok hEq hApart) t).bind rfl, fun hRoom => ?_⟩
      obtain ⟨hNext, hLater⟩ := succ_pair (hRoom rfl)
      rw [hNext, hLater]
      rfl

/-- A command that ends with building a fragment answers with it, or with what went wrong. -/
theorem run_build_keep_fst (w : Workbench σ) (task : Task σ) :
    ((build task.session task.work >>= keep task.dest).run.run w).1 =
      match (task.work.run.run (w.session task.session)).1 with
      | .ok z => .ok (.fragment z)
      | .error f => .error (.failed f) := by
  rw [Outcome.run_bind, run_build]
  cases (task.work.run.run (w.session task.session)).1 <;> rfl

variable {w : Workbench σ} {name other : String} {x y : Fragment σ}

/-- With both operands on the bench, all depends on how they are put together. -/
theorem run_join [Counting] (hx : w.fragments.get? name = some x)
    (hy : w.fragments.get? other = some y) (hNe : name ≠ other) (junction : Junction)
    (dest : String) :
    let work := (junction.apply x (some y)).run.run (w.session x.session)
    (w.run (.join junction name (some other) dest)).1 =
        (match work.1 with
          | .ok z => .ok (.fragment z)
          | .error f => .error (.failed f)) ∧
      ∀ i, ((w.run (.join junction name (some other) dest)).2.session i).next =
        if i = x.session then work.2.next else (w.session i).next := by
  have hRun : w.run (.join junction name (some other) dest) =
      ((takeOperands name (some other) >>= fun both =>
        build both.1.session (junction.apply both.1 both.2) >>= keep dest).run.run w) := rfl
  rw [Outcome.run_bind, run_takeOperands, hx, hy] at hRun
  simp only [if_neg hNe] at hRun
  let task : Task σ := ⟨x.session, [name, other], junction.apply x (some y), dest⟩
  constructor
  · rw [hRun]
    exact run_build_keep_fst (w.without task.used) task
  · intro i
    have hSession : ((w.without task.used).built task).session i = _ := session_built i
    rw [hRun, run_build_keep (w.without task.used) task, hSession]
    split <;> rfl

/-- Operands that clash are not put together, and no session notices. -/
theorem run_join_of_clash [Counting] (hx : w.fragments.get? name = some x)
    (hy : w.fragments.get? other = some y) (hNe : name ≠ other) (junction : Junction)
    (dest : String) {f : Fault σ} (hClash : Clash x y f) :
    (w.run (.join junction name (some other) dest)).1 = .error (.failed f) ∧
      ∀ i, ((w.run (.join junction name (some other) dest)).2.session i).next =
        (w.session i).next := by
  obtain ⟨hAnswer, hNext⟩ := run_join hx hy hNe junction dest
  rw [run_junction_of_merge_error junction (merge_eq_error_iff.mpr hClash)] at hAnswer hNext
  refine ⟨hAnswer, fun i => (hNext i).trans ?_⟩
  split
  next hi => rw [hi]
  next => rfl

/-- Operands that do not clash are put together, with new numbers of their session. -/
theorem run_join_of_apart [Counting] [Exact] (hx : w.fragments.get? name = some x)
    (hy : w.fragments.get? other = some y) (hNe : name ≠ other) (junction : Junction)
    (dest : String) (hEq : x.session = y.session) (hApart : x.Apart y) :
    (∃ z, (w.run (.join junction name (some other) dest)).1 = .ok (.fragment z)) ∧
      ((junction = .union → (w.session x.session).next + 2 ≤ greatest) →
        ∀ i, ((w.run (.join junction name (some other) dest)).2.session i).next =
          (w.session i).next + if i = x.session then junction.spent else 0) := by
  obtain ⟨hAnswer, hNext⟩ := run_join hx hy hNe junction dest
  obtain ⟨z, u, hWork, hSpent⟩ := run_junction_of_apart junction hEq hApart (w.session x.session)
  rw [hWork] at hAnswer hNext
  refine ⟨⟨z, hAnswer⟩, fun hRoom i => (hNext i).trans ?_⟩
  split
  next hi => rw [hSpent hRoom, hi]
  next => rfl

/-- Fragments are put together unless they come from different sessions, which is looked at
first, or share a state, of which the smallest is named; and parts make a fragment unless they
do not hold together. What is refused leaves every session as it was. A concatenation takes no
number; as long as a register holds the numbers, a union takes two of its session, and a session
keeps clear of the parts it is given. -/
theorem refusal_spares_sessions [Counting] [Exact] :
    (∀ (w : Workbench σ) (junction : Junction) (name other dest : String) (x y : Fragment σ),
      w.fragments.get? name = some x → w.fragments.get? other = some y → name ≠ other →
      let outcome := w.run (.join junction name (some other) dest)
      ((∃ e, outcome.1 = .error e) ↔ x.session ≠ y.session ∨ ∃ s ∈ x.graph, s ∈ y.graph) ∧
        (∀ e, outcome.1 = .error e → (∃ f, e = .failed f ∧ Clash x y f) ∧
          ∀ i, (outcome.2.session i).next = (w.session i).next) ∧
        ∀ z, outcome.1 = .ok z →
          (junction = .union → (w.session x.session).next + 2 ≤ greatest) →
          ∀ i, (outcome.2.session i).next =
            (w.session i).next + if i = x.session then junction.spent else 0) ∧
    ∀ (graph : Graph State (Label σ)) (start final : State) (alphabet : SortedSet σ) (t : Session),
      let outcome := (ofParts graph start final alphabet).run.run t
      ((∃ f, outcome.1 = .error f) ↔
        start ∉ graph ∨ final ∉ graph ∨ (∃ s l u, graph.Joins s l u ∧ u ∉ graph) ∨
          ∃ s a u, graph.Joins s (.symbol a) u ∧ a ∉ alphabet) ∧
        (∀ f, outcome.1 = .error f → outcome.2 = t) ∧
        ∀ z, outcome.1 = .ok z → ∃ v ∈ graph, (∀ u ∈ graph, u ≤ v) ∧
          (v < greatest → outcome.2 = { t with next := max t.next (v + 1) }) := by
  constructor
  · intro w junction name other dest x y hx hy hNe outcome
    by_cases hClash : ∃ f, Clash x y f
    · obtain ⟨f, hf⟩ := hClash
      obtain ⟨hError, hNext⟩ := run_join_of_clash hx hy hNe junction dest hf
      refine ⟨iff_of_true ⟨_, hError⟩ (exists_clash_iff.mp ⟨f, hf⟩), fun e he => ?_, fun z hz => ?_⟩
      · exact ⟨⟨f, Except.error.inj (he.symm.trans hError), hf⟩, hNext⟩
      · exact nomatch hz.symm.trans hError
    · have hFit := mt exists_clash_iff.mpr hClash
      obtain ⟨hEq, hShared⟩ := not_or.mp hFit
      obtain ⟨⟨z, hOk⟩, hNext⟩ := run_join_of_apart hx hy hNe junction dest (not_not.mp hEq)
        fun s hsx hsy => hShared ⟨s, hsx, hsy⟩
      refine ⟨iff_of_false ?_ hFit, fun e he => ?_, fun _ _ => hNext⟩
      · rintro ⟨e, he⟩
        exact nomatch he.symm.trans hOk
      · exact nomatch he.symm.trans hOk
  · intro graph start final alphabet t outcome
    exact ⟨exists_fault_ofParts_iff, fun _ => run_ofParts_of_error, fun _ => run_ofParts_of_ok⟩

/-- Two literals of a session, and between them a fragment with the states of the first. -/
def crowded : Workbench Char := @after _ _ wrapping new
  [.literal 0 "x" 'a', .assemble 0 "y" ⟨none, [1, 0], [], [], 1, 0, ∅⟩, .literal 0 "z" 'b']

/-- On this bench a union of the first two is refused, and one with the third takes two numbers.
A start state that is no vertex is refused as well, and a session keeps clear of one that is. -/
theorem refusal_spares_sessions_crowded :
    (∃ f, (@run _ _ wrapping crowded (.join .union "x" (some "y") "u")).1 = .error (.failed f) ∧
        ∀ i, ((@run _ _ wrapping crowded (.join .union "x" (some "y") "u")).2.session i).next =
          (crowded.session i).next) ∧
      ((@run _ _ wrapping crowded (.join .union "x" (some "z") "u")).2.session 0).next =
        (crowded.session 0).next + 2 ∧
      ((@ofParts Char _ wrapping ∅ 7 7 ∅).run.run ⟨0, 5⟩).2 = ⟨0, 5⟩ ∧
      ((@ofParts Char _ wrapping (Graph.empty.addVertex 7) 7 7 ∅).run.run ⟨0, 5⟩).2 = ⟨0, 8⟩ := by
  have hx : crowded.fragments.get? "x" = some (ofEdge 0 0 1 (.symbol 'a')) := by decide +kernel
  have hy : crowded.fragments.get? "y" =
      some ⟨0, (Graph.empty.addVertex 1).addVertex 0, 1, 0, ∅⟩ := by decide +kernel
  have hz : crowded.fragments.get? "z" = some (ofEdge 0 2 3 (.symbol 'b')) := by decide +kernel
  obtain ⟨hJoin, hParts⟩ := @refusal_spares_sessions Char _ wrapping exact_wrapping
  refine ⟨?_, ?_, ?_, ?_⟩
  · obtain ⟨hFails, hRefused, -⟩ := hJoin crowded .union "x" "y" "u" _ _ hx hy (by decide)
    obtain ⟨e, he⟩ := hFails.mpr (Or.inr ⟨0, by decide +kernel, by decide +kernel⟩)
    obtain ⟨⟨f, rfl, -⟩, hNext⟩ := hRefused e he
    exact ⟨f, he, hNext⟩
  · obtain ⟨hFails, -, hDone⟩ := hJoin crowded .union "x" "z" "u" _ _ hx hz (by decide)
    cases hOutcome : (@run _ _ wrapping crowded (.join .union "x" (some "z") "u")).1 with
    | ok z => exact hDone z hOutcome (fun _ => by decide +kernel) 0
    | error e =>
        rcases hFails.mp ⟨e, hOutcome⟩ with hNe | ⟨s, hLeft, hRight⟩
        · exact absurd rfl hNe
        · rcases mem_ofEdge.mp hLeft with rfl | rfl <;> exact absurd hRight (by decide +kernel)
  · obtain ⟨hFails, hRefused, -⟩ := hParts ∅ 7 7 ∅ ⟨0, 5⟩
    obtain ⟨f, hf⟩ := hFails.mpr (Or.inl (by decide +kernel))
    exact hRefused f hf
  · obtain ⟨-, -, hDone⟩ := hParts (Graph.empty.addVertex 7) 7 7 ∅ ⟨0, 5⟩
    obtain ⟨v, hv, -, hAfter⟩ := hDone _ rfl
    obtain rfl : v = 7 := (Graph.mem_addVertex.mp hv).resolve_right (Graph.not_mem_empty v)
    exact hAfter (by decide)

/-- A session that keeps clear of the greatest number hands out all numbers once more; or the
program ends. -/
theorem exists_overrun_session :
    let last : Graph State (Label Char) := Graph.empty.addVertex greatest
    (∃ x, ((@ofParts Char _ wrapping last greatest greatest ∅).run.run (Session.new 0)).1 = .ok x) ∧
    ((@ofParts Char _ wrapping last greatest greatest ∅).run.run (Session.new 0)).2.next = 0 ∧
    0 ≠ max (Session.new 0).next (greatest + 1) ∧
    ((new : Workbench Char).runChecked
      (.assemble 0 "x" ⟨none, [greatest], [], [], greatest, greatest, ∅⟩)).isNone :=
  ⟨⟨_, rfl⟩, by decide +kernel, by decide +kernel, by decide +kernel⟩

end Join

end Workbench

end FiniteAutomata
