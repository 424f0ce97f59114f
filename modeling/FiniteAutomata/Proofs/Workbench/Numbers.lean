import FiniteAutomata.Proofs.Fragment.Unsupported
import FiniteAutomata.Proofs.Workbench.Run

/-! State numbers over whole runs. Commands of any kind, carried out or refused, in any
order and over any sessions, leave the bench orderly: every fragment is made of numbers
that its session has handed out already. As long as no fragment is put together from a
given graph, different fragments of one session share no number. -/
namespace FiniteAutomata.Workbench

open Fragment

variable {σ : Type} [Symbol σ]

/-- The bench after commands one after another, whatever becomes of each. -/
def after [Counting] (w : Workbench σ) (cs : List (Command σ)) : Workbench σ :=
  cs.foldl (fun w c => (w.run c).2) w

theorem after_nil [Counting] (w : Workbench σ) : w.after [] = w := rfl

theorem after_cons [Counting] (w : Workbench σ) (c : Command σ) (cs : List (Command σ)) :
    w.after (c :: cs) = (w.run c).2.after cs := rfl

/-- Carrying out a command hands out a number of a session. -/
def HandsOut (w : Workbench σ) (c : Command σ) (id : Nat) (s : State) : Prop :=
  (w.session id).next ≤ s ∧ s < ((w.run c).2.session id).next

/-- Whether a fragment is put together from a given graph. -/
def Command.assembles : Command σ → Bool
  | .assemble _ _ _ => true
  | _ => false

/-- Every fragment belongs to its session. -/
def Orderly (w : Workbench σ) : Prop :=
  ∀ name x, w.fragments.get? name = some x → x.Belongs (w.session x.session)

/-- Different fragments of one session mention different states. -/
def Separate (w : Workbench σ) : Prop :=
  ∀ name other x y, name ≠ other → w.fragments.get? name = some x →
    w.fragments.get? other = some y → x.session = y.session → ∀ s, x.Mentions s → ¬ y.Mentions s

/-- A number that work may find in what it is given: in an operand, or anywhere in a given
graph. -/
def Origin (w : Workbench σ) (c : Command σ) (task : Task σ) (s : State) : Prop :=
  c.assembles = true ∨ ∃ name ∈ task.used, ∃ x, w.fragments.get? name = some x ∧
    x.session = task.session ∧ x.Mentions s

section Step

variable {w w' : Workbench σ} {c : Command σ} {task : Task σ}

/-- Fragments that cannot be merged are put together by no junction, and no number is spent. -/
theorem run_junction_of_merge_error [Counting] (junction : Junction) {x y : Fragment σ}
    {f : Fault σ} (h : x.merge y = .error f) (t : Session) :
    (junction.apply x (some y)).run.run t = (.error f, t) := by
  cases junction with
  | concat =>
      rw [Junction.apply, concatMaybe, concat, h]
      rfl
  | union =>
      rw [Junction.apply, unionMaybe, union, h]
      rfl

theorem makes_junction (junction : Junction) {x y : Fragment σ} {t : Session} (hx : x.Belongs t)
    (hy : y.session = t.id → y.Belongs t) :
    Makes (junction.apply x (some y)) t fun s =>
      x.Mentions s ∨ y.session = t.id ∧ y.Mentions s := by
  by_cases hSession : y.session = t.id
  · have hOld : ∀ s, x.Mentions s ∨ y.Mentions s →
        x.Mentions s ∨ y.session = t.id ∧ y.Mentions s := fun s hs =>
      hs.imp_right fun hs => ⟨hSession, hs⟩
    cases junction with
    | concat => exact (makes_concat hx (hy hSession)).mono hOld
    | union => exact (makes_union hx (hy hSession)).mono hOld
  · have hMerge : x.merge y = .error .differentSessions := by
      rw [merge, if_pos fun hEq => hSession (hEq.symm.trans hx.session_eq)]
    exact makes_of_error (run_junction_of_merge_error junction hMerge t) rfl (Nat.le_refl _)

theorem origin_of_used {name : String} {x : Fragment σ} (hUsed : name ∈ task.used)
    (hx : w.fragments.get? name = some x) (hSession : x.session = task.session) :
    ∀ s, x.Mentions s → w.Origin c task s :=
  fun _ hs => Or.inr ⟨name, hUsed, x, hx, hSession, hs⟩

/-- All that commands build is made of new numbers and of numbers of the operands. -/
theorem Asks.makes (hw : w.Orderly) (asks : Asks w c task) :
    Makes task.work (w.session task.session) (w.Origin c task) := by
  cases asks with
  | literal id dest a => exact (makes_ofLabel _ _).mono fun _ h => h.elim
  | epsilon id dest => exact (makes_ofLabel _ _).mono fun _ h => h.elim
  | compile id dest p => exact (makes_ofPattern p _).mono fun _ h => h.elim
  | assemble id dest parts => exact (makes_ofParts ..).mono fun _ _ => Or.inl rfl
  | @closure x dest f hx =>
      exact (makes_closure (hw x f hx)).mono (origin_of_used List.mem_cons_self hx rfl)
  | @alone junction x dest f hx =>
      refine Makes.mono ?_ (origin_of_used List.mem_cons_self hx rfl)
      cases junction with
      | concat => exact makes_of_belongs (yields_liftExcept rfl _) (hw x f hx)
      | union => exact makes_of_belongs (yields_pure f _) (hw x f hx)
  | @join junction x y dest f g hx hy hNe =>
      have hg : g.session = f.session → g.Belongs (w.session f.session) := fun hEq =>
        hEq ▸ hw y g hy
      refine (makes_junction junction (hw x f hx) hg).mono fun s hs => ?_
      rcases hs with hs | ⟨hEq, hs⟩
      · exact origin_of_used List.mem_cons_self hx rfl s hs
      · exact origin_of_used (List.mem_cons_of_mem _ List.mem_cons_self) hy hEq s hs
  | @replicate x dest f hx => exact (makes_replicate (hw x f hx)).mono fun _ h => h.elim

theorem session_insert (w : Workbench σ) (id i : Nat) (n : State) :
    ({ w with counters := w.counters.insert id n } : Workbench σ).session i =
      if i = id then ⟨i, n⟩ else w.session i := by
  rw [session, SortedMap.get?_insert]
  split <;> rfl

theorem get?_without (w : Workbench σ) (names : List String) (name : String) :
    (w.without names).fragments.get? name =
      if name ∈ names then none else w.fragments.get? name := by
  rw [without]
  induction names generalizing w with
  | nil => rfl
  | cons first rest ih =>
      rw [List.foldl_cons, ih { w with fragments := w.fragments.erase first }, SortedMap.get?_erase]
      by_cases hFirst : name = first
      · simp [hFirst]
      · simp [hFirst]

/-- Only the session of a task moves on. -/
theorem session_built (i : Nat) :
    ((w.without task.used).built task).session i =
      if i = task.session then ⟨i, (task.work.run.run (w.session task.session)).2.next⟩
      else w.session i :=
  session_insert w task.session i _

/-- Afterwards a fragment is the one that was made, or one that was there and not used. -/
theorem get?_built {name : String} {x : Fragment σ}
    (h : ((w.without task.used).built task).fragments.get? name = some x) :
    (name = task.dest ∧ Yields task.work (w.session task.session) x
      (task.work.run.run (w.session task.session)).2) ∨
    (name ∉ task.used ∧ w.fragments.get? name = some x) := by
  have hKept : (w.without task.used).fragments.get? name = some x →
      name ∉ task.used ∧ w.fragments.get? name = some x := by
    intro hOld
    rw [get?_without] at hOld
    split at hOld
    next => cases hOld
    next hUnused => exact ⟨hUnused, hOld⟩
  have hSession : (w.without task.used).session task.session = w.session task.session := rfl
  rw [Yields]
  rw [built, hSession] at h
  generalize task.work.run.run (w.session task.session) = outcome at h ⊢
  obtain ⟨result, u⟩ := outcome
  cases result with
  | error fault => exact Or.inr (hKept h)
  | ok y =>
      change ((w.without task.used).fragments.insert task.dest y).get? name = some x at h
      rw [SortedMap.get?_insert] at h
      split at h
      next hName =>
        cases h
        exact Or.inl ⟨hName, rfl⟩
      next => exact Or.inr (hKept h)

namespace Effect

/-- No command takes a number back. -/
theorem session_le (hw : w.Orderly) (h : Effect w c w') (i : Nat) :
    (w.session i).next ≤ (w'.session i).next := by
  cases h with
  | @fresh id hc =>
      rw [session_insert]
      split
      next hEq => exact hEq ▸ Nat.le_succ _
      next => exact Nat.le_refl _
  | other => exact Nat.le_refl _
  | built asks =>
      rw [session_built]
      split
      next hEq => exact hEq ▸ (asks.makes hw).next_le
      next => exact Nat.le_refl _

/-- A command changes no session but the one that it works in. -/
theorem session_eq (h : Effect w c w') {i : Nat} (hOther : w.sessionOf c ≠ some i) :
    w'.session i = w.session i := by
  cases h with
  | @fresh id hc =>
      subst hc
      rw [session_insert, if_neg fun hEq => hOther (congrArg some hEq.symm)]
  | other => rfl
  | built asks =>
      rw [asks.sessionOf_eq] at hOther
      rw [session_built, if_neg fun hEq => hOther (congrArg some hEq.symm)]

theorem orderly (hw : w.Orderly) (h : Effect w c w') : w'.Orderly := by
  have hGrown : ∀ {x : Fragment σ}, x.Belongs (w.session x.session) →
      x.Belongs (w'.session x.session) := fun hx => hx.mono rfl (h.session_le hw _)
  cases h with
  | fresh => exact fun name x hx => hGrown (hw name x hx)
  | other => exact fun name x hx => hGrown (hw name x hx)
  | @built task asks =>
      intro name x hx
      rcases get?_built hx with ⟨-, hMade⟩ | ⟨-, hOld⟩
      · have made := asks.makes hw
        have hx := made.belongs x _ hMade
        have hSession : x.session = task.session := hx.session_eq.trans made.same_session
        rw [session_built, if_pos hSession]
        exact ⟨rfl, hx.rooted, hx.below⟩
      · exact hGrown (hw name x hOld)

/-- What a task makes shares no state with what it leaves alone. -/
theorem not_mentions_of_made (hw : w.Orderly) (hs : w.Separate) (hc : c.assembles = false)
    (asks : Asks w c task) {x y : Fragment σ} {u : Session} {other : String}
    (hMade : Yields task.work (w.session task.session) x u) (hUnused : other ∉ task.used)
    (hy : w.fragments.get? other = some y) (hSession : x.session = y.session) (s : State) :
    x.Mentions s → ¬ y.Mentions s := by
  intro hx hShared
  have made := asks.makes hw
  have hHere : task.session = y.session :=
    ((made.belongs x u hMade).session_eq.trans (made.grows hMade).1).symm.trans hSession
  rcases made.origin x u s hMade hx with hNew | hAssembles | ⟨name, hUsed, z, hz, hEq, hOld⟩
  · exact Nat.not_lt.mpr hNew (hHere ▸ (hw other y hy).below s hShared)
  · rw [hc] at hAssembles
    cases hAssembles
  · have hNe : name ≠ other := fun hEq => hUnused (hEq ▸ hUsed)
    exact hs name other z y hNe hz hy (hEq.trans hHere) s hOld hShared

theorem separate (hw : w.Orderly) (hs : w.Separate) (hc : c.assembles = false)
    (h : Effect w c w') : w'.Separate := by
  cases h with
  | fresh => exact hs
  | other => exact hs
  | built asks =>
      intro name other x y hNe hx hy hSession s hsx hsy
      rcases get?_built hx with ⟨hName, hMade⟩ | ⟨hUnused, hOld⟩
      · rcases get?_built hy with ⟨hOther, -⟩ | ⟨hUnused', hOld'⟩
        · exact hNe (hName.trans hOther.symm)
        · exact not_mentions_of_made hw hs hc asks hMade hUnused' hOld' hSession s hsx hsy
      · rcases get?_built hy with ⟨-, hMade⟩ | ⟨-, hOld'⟩
        · exact not_mentions_of_made hw hs hc asks hMade hUnused hOld hSession.symm s hsy hsx
        · exact hs name other x y hNe hOld hOld' hSession s hsx hsy

end Effect

end Step

section Run

variable {w : Workbench σ}

theorem orderly_new : (new : Workbench σ).Orderly := fun _ _ h => nomatch h

theorem separate_new : (new : Workbench σ).Separate := fun _ _ _ _ _ h => nomatch h

theorem Orderly.after (hw : w.Orderly) (cs : List (Command σ)) : (w.after cs).Orderly := by
  induction cs generalizing w with
  | nil => exact hw
  | cons c rest ih => exact ih ((run_effect w c).orderly hw)

theorem Orderly.session_le_after (hw : w.Orderly) (cs : List (Command σ)) (i : Nat) :
    (w.session i).next ≤ ((w.after cs).session i).next := by
  induction cs generalizing w with
  | nil => exact Nat.le_refl _
  | cons c rest ih =>
      exact ((run_effect w c).session_le hw i).trans (ih ((run_effect w c).orderly hw))

theorem Separate.after (hs : w.Separate) (hw : w.Orderly) (cs : List (Command σ))
    (hNone : ∀ c ∈ cs, c.assembles = false) : (w.after cs).Separate := by
  induction cs generalizing w with
  | nil => exact hs
  | cons c rest ih =>
      obtain ⟨hc, hRest⟩ := List.forall_mem_cons.mp hNone
      exact ih ((run_effect w c).separate hw hs hc) ((run_effect w c).orderly hw) hRest

/-- Asking for a number hands it out. -/
theorem handsOut_of_run_fresh {id : Nat} {s : State}
    (h : (w.run (.fresh id)).1 = .ok (.state s)) : w.HandsOut (.fresh id) id s := by
  have hNumber : (w.session id).next = s := by
    have hRun : (w.run (.fresh id)).1 = .ok (.state (w.session id).next) := rfl
    rw [hRun] at h
    cases h
    rfl
  refine ⟨Nat.le_of_eq hNumber, ?_⟩
  change s < (({ w with counters := _ } : Workbench σ).session id).next
  rw [session_insert, if_pos rfl, ← hNumber]
  exact Nat.lt_succ_self _

/-- Whatever commands are given, a session never takes a number back, and it changes only
by commands that work in it. Every state that a fragment on the bench mentions was handed
out before, so it is never handed out again. If no fragment is put together from a given
graph, different fragments of one session share no vertex and can always be put together. -/
theorem numbers_stay_fresh (cs : List (Command σ)) :
    let w : Workbench σ := new.after cs
    (∀ c id, (w.session id).next ≤ ((w.run c).2.session id).next ∧
      (w.sessionOf c ≠ some id → (w.run c).2.session id = w.session id)) ∧
    (∀ name x, w.fragments.get? name = some x →
      (∀ s, x.Mentions s → s < (w.session x.session).next) ∧
      (∀ later c s, (w.after later).HandsOut c x.session s → ¬ x.Mentions s) ∧
      ∀ later s, ((w.after later).run (.fresh x.session)).1 = .ok (.state s) → ¬ x.Mentions s) ∧
    ((∀ c ∈ cs, c.assembles = false) → ∀ name other x y, name ≠ other →
      w.fragments.get? name = some x → w.fragments.get? other = some y → x.session = y.session →
      x.Apart y ∧ (∃ z, x.concat y = .ok z) ∧ ∀ t, ∃ z u, (x.union y).run.run t = (.ok z, u)) := by
  intro w
  have hw : w.Orderly := orderly_new.after cs
  refine ⟨fun c id => ⟨(run_effect w c).session_le hw id, (run_effect w c).session_eq⟩, ?_, ?_⟩
  · intro name x hx
    have hBelow := (hw name x hx).below
    have hNever : ∀ later c s, (w.after later).HandsOut c x.session s → ¬ x.Mentions s := by
      intro later c s hOut hs
      have hLater := (hw.session_le_after later x.session).trans hOut.1
      exact Nat.not_lt.mpr hLater (hBelow s hs)
    exact ⟨hBelow, hNever, fun later s hRun => hNever later _ s (handsOut_of_run_fresh hRun)⟩
  · intro hNone name other x y hNe hx hy hSession
    have hs : w.Separate := separate_new.after orderly_new cs hNone
    have hApart : x.Apart y := fun s hsx hsy =>
      hs name other x y hNe hx hy hSession s (.vertex hsx) (.vertex hsy)
    exact ⟨hApart, ⟨_, concat_eq_ok hSession hApart⟩,
      fun t => ⟨_, _, yields_union hSession hApart t⟩⟩

theorem numbers_stay_fresh_closure :
    ∃ x y, (new.after [.literal 0 "a" 'a', .literal 0 "b" 'b', .closure "a" "c"]).fragments.get? "c"
        = some x ∧
      (new.after [.literal 0 "a" 'a', .literal 0 "b" 'b', .closure "a" "c"]).fragments.get? "b"
        = some y ∧
      x.Apart y ∧ ∃ z, x.concat y = .ok z := by
  have hAll := (numbers_stay_fresh
    [.literal 0 "a" 'a', .literal 0 "b" 'b', .closure "a" "c"]).2.2 (by decide)
  obtain ⟨hApart, hConcat, -⟩ := hAll "c" "b" _ _ (by decide) rfl rfl rfl
  exact ⟨_, _, rfl, rfl, hApart, hConcat⟩

end Run

end FiniteAutomata.Workbench
