/-! Computations that may fail. A chain of them succeeds when every link does, and
fails with the failure of its first link that fails. -/
namespace FiniteAutomata.Outcome

variable {α β ε : Type}

theorem bind_eq_ok_iff {e : Except ε α} {f : α → Except ε β} {b : β} :
    e >>= f = .ok b ↔ ∃ a, e = .ok a ∧ f a = .ok b := by
  cases e with
  | error failure =>
      constructor
      · intro h
        cases h
      · intro hSome
        obtain ⟨a, ha, -⟩ := hSome
        cases ha
  | ok a =>
      constructor
      · exact fun h => ⟨a, rfl, h⟩
      · intro hSome
        obtain ⟨a', ha, h⟩ := hSome
        cases ha
        exact h

theorem bind_of_ok {e : Except ε α} {a : α} (f : α → Except ε β) (h : e = .ok a) :
    e >>= f = f a := by
  rw [h]
  rfl

theorem mapM_cons_eq_ok_iff {f : α → Except ε β} {a : α} {rest : List α} {found : List β} :
    (a :: rest).mapM f = .ok found ↔
      ∃ b others, f a = .ok b ∧ rest.mapM f = .ok others ∧ found = b :: others := by
  rw [List.mapM_cons, bind_eq_ok_iff]
  simp only [bind_eq_ok_iff, pure, Except.pure, Except.ok.injEq]
  constructor
  · intro h
    obtain ⟨b, hb, others, hOthers, rfl⟩ := h
    exact ⟨b, others, hb, hOthers, rfl⟩
  · intro h
    obtain ⟨b, others, hb, hOthers, rfl⟩ := h
    exact ⟨b, hb, others, hOthers, rfl⟩

/-- The lists that a list of computations yields hold what each of them yields. -/
theorem mem_flatten_of_mapM {f : α → Except ε (List β)} {l : List α} {found : List (List β)}
    (h : l.mapM f = .ok found) {b : β} :
    b ∈ found.flatten ↔ ∃ a ∈ l, ∃ part, f a = .ok part ∧ b ∈ part := by
  induction l generalizing found with
  | nil =>
      cases h
      simp
  | cons a rest ih =>
      obtain ⟨part, others, hPart, hOthers, rfl⟩ := mapM_cons_eq_ok_iff.mp h
      rw [List.flatten_cons, List.mem_append, ih hOthers]
      constructor
      · intro hEither
        rcases hEither with hHere | ⟨c, hc, hLater⟩
        · exact ⟨a, List.mem_cons_self, part, hPart, hHere⟩
        · exact ⟨c, List.mem_cons_of_mem _ hc, hLater⟩
      · intro hSome
        obtain ⟨c, hc, part', hPart', hMem⟩ := hSome
        rcases List.mem_cons.mp hc with rfl | hc
        · cases hPart.symm.trans hPart'
          exact Or.inl hMem
        · exact Or.inr ⟨c, hc, part', hPart', hMem⟩

theorem exists_mapM_ok {f : α → Except ε β} {l : List α} (h : ∀ a ∈ l, ∃ b, f a = .ok b) :
    ∃ found, l.mapM f = .ok found := by
  induction l with
  | nil => exact ⟨[], rfl⟩
  | cons a rest ih =>
      obtain ⟨b, hb⟩ := h a List.mem_cons_self
      obtain ⟨others, hOthers⟩ := ih fun c hc => h c (List.mem_cons_of_mem _ hc)
      exact ⟨b :: others, mapM_cons_eq_ok_iff.mpr ⟨b, others, hb, hOthers, rfl⟩⟩

theorem exists_foldlM_ok {f : β → α → Except ε β} {l : List α}
    (h : ∀ a ∈ l, ∀ b, ∃ c, f b a = .ok c) (b : β) : ∃ c, l.foldlM f b = .ok c := by
  induction l generalizing b with
  | nil => exact ⟨b, rfl⟩
  | cons a rest ih =>
      obtain ⟨c, hc⟩ := h a List.mem_cons_self b
      rw [List.foldlM_cons, bind_of_ok _ hc]
      exact ih (fun a' ha' => h a' (List.mem_cons_of_mem _ ha')) c

/-- A chain of computations that share a state. The first failure ends it and keeps the
state of that moment. -/
theorem run_bind {S : Type} (m : ExceptT ε (StateM S) α) (f : α → ExceptT ε (StateM S) β) (s : S) :
    (m >>= f).run.run s =
      match m.run.run s with
      | (.ok a, t) => (f a).run.run t
      | (.error e, t) => (.error e, t) := by
  rw [ExceptT.run_bind, StateT.run_bind]
  rcases m.run.run s with ⟨_ | _, t⟩ <;> rfl

end FiniteAutomata.Outcome
