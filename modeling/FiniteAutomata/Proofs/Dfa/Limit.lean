import FiniteAutomata.Proofs.Dfa.Subset
import FiniteAutomata.Proofs.Fragment.Missing

/-! The limit on the states of an automaton. States are only ever added, so the construction
with a limit goes the same way as the one without until the first state that is too many, and
then stops. -/
namespace FiniteAutomata.Dfa

variable {σ : Type} [Symbol σ]

/-- A result that goes with the automaton `d`, as long as `d` has at most `k` states. -/
def within {α : Type} (k : Nat) (d : Dfa σ) (a : α) : Except (Fault σ) α :=
  if d.size ≤ k then .ok a else .error (.stateLimit k)

section Within

variable {α β : Type} {k : Nat} {d e : Dfa σ}

theorem within_of_le (h : d.size ≤ k) (a : α) : within k d a = .ok a := if_pos h

theorem within_of_lt (h : k < d.size) (a : α) : within k d a = .error (.stateLimit k) :=
  if_neg (Nat.not_le_of_lt h)

/-- Work that adds states fails early if there are too many already. -/
theorem within_bind {a : α} {b : β} {f : α → Except (Fault σ) β} (hGrows : d.size ≤ e.size)
    (h : d.size ≤ k → f a = within k e b) : within k d a >>= f = within k e b := by
  rcases Nat.lt_or_ge k d.size with hLt | hLe
  · rw [within_of_lt hLt, within_of_lt (Nat.lt_of_lt_of_le hLt hGrows)]
    rfl
  · rw [within_of_le hLe]
    exact h hLe

end Within

section Construction

variable {x : Fragment σ} {k : Nat} {d e : Dfa σ} {s t : State} {members : StateSet}

/-- There is room for a state if it can be added. -/
theorem checkRoom_eq_within (final : State) :
    d.checkRoom (some k) = within k (d.addState final members) () := by
  rw [checkRoom, within, size_addState]
  by_cases hFull : k ≤ d.size
  · rw [if_pos hFull, if_neg (by omega)]
  · rw [if_neg hFull, if_pos (by omega)]

/-- Only a set that has no state yet needs room. -/
theorem register_within {final : State} (hRoom : d.size ≤ k)
    (h : d.register none final members = .ok (t, e)) :
    d.register (some k) final members = within k e (t, e) := by
  unfold register at h ⊢
  split at h
  next s hOld =>
    cases h
    exact (within_of_le hRoom _).symm
  next hNone =>
    cases h
    rw [checkRoom_eq_within final]
    exact within_bind (Nat.le_refl _) fun hLe => (within_of_le hLe _).symm

theorem follow_within {a : σ} (hRoom : d.size ≤ k) (h : follow x none s members d a = .ok e) :
    follow x (some k) s members d a = within k e e := by
  obtain ⟨targets, hStep, hCase⟩ := follow_cases h
  unfold follow
  rw [Outcome.bind_of_ok _ hStep]
  rcases hCase with ⟨rfl, rfl⟩ | ⟨hNonempty, t, d', hRegister, rfl⟩
  · exact (within_of_le hRoom e).symm
  · have hFull : targets.isEmpty ≠ true := fun hEmpty =>
      hNonempty (SortedSet.isEmpty_iff.mp hEmpty)
    rw [if_neg hFull, register_within hRoom hRegister]
    exact within_bind (Nat.le_refl _) fun hLe => (within_of_le hLe _).symm

theorem size_le_of_foldlM_follow {limit : Option Nat} {symbols : List σ}
    (h : symbols.foldlM (follow x limit s members) d = .ok e) : d.size ≤ e.size := by
  induction symbols generalizing d with
  | nil =>
      cases h
      exact Nat.le_refl _
  | cons a rest ih =>
      rw [List.foldlM_cons] at h
      obtain ⟨d', hFirst, hRest⟩ := Outcome.bind_eq_ok_iff.mp h
      exact Nat.le_trans (unregistered_follow hFirst).2 (ih hRest)

theorem foldlM_follow_within {symbols : List σ} (hRoom : d.size ≤ k)
    (h : symbols.foldlM (follow x none s members) d = .ok e) :
    symbols.foldlM (follow x (some k) s members) d = within k e e := by
  induction symbols generalizing d with
  | nil =>
      cases h
      exact (within_of_le hRoom _).symm
  | cons a rest ih =>
      rw [List.foldlM_cons] at h ⊢
      obtain ⟨d', hFirst, hRest⟩ := Outcome.bind_eq_ok_iff.mp h
      rw [follow_within hRoom hFirst]
      exact within_bind (size_le_of_foldlM_follow hRest) fun hLe => ih hLe hRest

theorem explore_of_none {limit : Option Nat} (hNone : d.states[s]? = none) :
    explore x limit d s = .ok d := by
  unfold explore
  split
  next => rfl
  next members hState => cases hNone.symm.trans hState

theorem explore_of_some {limit : Option Nat} (hState : d.states[s]? = some members) :
    explore x limit d s =
      complete x limit s members d >>= fun d' => explore x limit d' (s + 1) := by
  conv_lhs => unfold explore
  split
  next hNone => cases hNone.symm.trans hState
  next found hFound =>
    cases hState.symm.trans hFound
    split
    next f hError => rw [hError]; rfl
    next d' hNext => exact (Outcome.bind_of_ok (explore x limit · (s + 1)) hNext).symm

theorem size_le_of_explore {limit : Option Nat} (h : explore x limit d s = .ok e) :
    d.size ≤ e.size := by
  fun_induction explore x limit d s with
  | case1 d s hNone =>
      cases h
      exact Nat.le_refl _
  | case2 => cases h
  | case3 d s members hState d' hNext _ _ ih =>
      exact Nat.le_trans (unregistered_complete hNext).2 (ih h)

theorem explore_within (hRoom : d.size ≤ k) (h : explore x none d s = .ok e) :
    explore x (some k) d s = within k e e := by
  fun_induction explore x none d s with
  | case1 d s hNone =>
      cases h
      rw [explore_of_none hNone, within_of_le hRoom]
  | case2 => cases h
  | case3 d s members hState d' hNext _ _ ih =>
      -- The state is completed within the limit, or the work stops in the middle of it.
      rw [explore_of_some hState, complete, foldlM_follow_within hRoom hNext]
      exact within_bind (size_le_of_explore h) fun hLe => ih hLe h

theorem ofFragment_within (h : ofFragment none x = .ok e) :
    ofFragment (some k) x = within k e e := by
  obtain ⟨⟨⟩, hValid, hRest⟩ := Outcome.bind_eq_ok_iff.mp h
  obtain ⟨members, hInitial, hRest⟩ := Outcome.bind_eq_ok_iff.mp hRest
  obtain ⟨⟨t, d⟩, hRegister, hExplore⟩ := Outcome.bind_eq_ok_iff.mp hRest
  rw [ofFragment, hValid, hInitial]
  change register (some k) x.final (empty x.alphabet) members >>= _ = _
  rw [register_within (Nat.zero_le k) hRegister]
  exact within_bind (size_le_of_explore hExplore) fun hLe => explore_within hLe hExplore

end Construction

/-- A fragment that does not pass its check gets no automaton under any limit, for the reason
that the check gives. Otherwise the limit either makes no difference, if the automaton has no
more states than that, or the work fails because of it. -/
theorem determinizeWithin_cuts (x : Fragment σ) (k : Nat) :
    (∀ f, x.validate = .error f → x.determinizeWithin k = .error f ∧ f.category = .invariant) ∧
    (x.validate = .ok () → ∃ d, x.determinize = .ok d ∧
      (d.size ≤ k → x.determinizeWithin k = .ok d) ∧
      (k < d.size → x.determinizeWithin k = .error (.stateLimit k))) := by
  constructor
  · intro f hCheck
    have hBroken : x.Broken := by simp [Fragment.Broken, hCheck]
    obtain ⟨g, hSame, hError, hCategory⟩ := hBroken.ofFragment_error (some k)
    cases hCheck.symm.trans hSame
    exact ⟨hError, hCategory⟩
  · intro hValid
    obtain ⟨d, hd⟩ := exists_ofFragment (Fragment.validate_eq_ok_iff.mp hValid)
    refine ⟨d, hd, fun hLe => ?_, fun hLt => ?_⟩
    · exact (ofFragment_within hd).trans (within_of_le hLe d)
    · exact (ofFragment_within hd).trans (within_of_lt hLt d)

/-- The start state counts, too. -/
example : looped.determinizeWithin 0 = .error (.stateLimit 0) := by
  decide +kernel

end FiniteAutomata.Dfa
