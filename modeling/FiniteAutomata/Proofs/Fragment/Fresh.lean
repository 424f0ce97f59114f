import FiniteAutomata.Proofs.Fragment.OfPattern

/-! The numbers that a fragment is made of. Whatever is built in a session, the session
never takes a number back, and what a new fragment mentions is either handed out on the
way or mentioned by an operand. This needs no well-formed operands: the fragments that
hold together at their start are closed under all operations. -/
namespace FiniteAutomata.Fragment

variable {σ : Type} [Symbol σ]

/-- The start state is a vertex, and the symbols on the edges are declared. Dropping the
right start state in a concatenation keeps this, although it can take away the final state
and the targets of edges. -/
structure Rooted (x : Fragment σ) : Prop where
  start_mem : x.start ∈ x.graph
  symbol_mem : ∀ s a t, x.graph.Joins s (.symbol a) t → a ∈ x.alphabet

theorem WellFormed.rooted {x : Fragment σ} (wf : x.WellFormed) : x.Rooted :=
  ⟨wf.start_mem, wf.symbol_mem⟩

/-- A fragment of a session, all of whose numbers the session has handed out. -/
structure Belongs (x : Fragment σ) (t : Session) : Prop where
  session_eq : x.session = t.id
  rooted : x.Rooted
  below : ∀ s, x.Mentions s → s < t.next

theorem Belongs.mono {x : Fragment σ} {t u : Session} (h : x.Belongs t) (hId : u.id = t.id)
    (hNext : t.next ≤ u.next) : x.Belongs u where
  session_eq := h.session_eq.trans hId.symm
  rooted := h.rooted
  below s hs := (h.below s hs).trans_le hNext

theorem Belongs.not_mentions {x : Fragment σ} {t : Session} (h : x.Belongs t) {s : State}
    (hs : t.next ≤ s) : ¬ x.Mentions s :=
  fun hMentions => Nat.not_lt.mpr hs (h.below s hMentions)

/-- A session has two more numbers for the fragments that belong to it. -/
theorem Belongs.not_mem_pair {x : Fragment σ} {t : Session} (h : x.Belongs t) :
    t.next ∉ x.graph ∧ t.next + 1 ∉ x.graph :=
  ⟨fun hMem => h.not_mentions (Nat.le_refl _) (.vertex hMem),
    fun hMem => h.not_mentions (Nat.le_succ _) (.vertex hMem)⟩

section Combinators

variable {x y : Fragment σ} {s start final : State}

theorem Rooted.closureBetween (hx : x.Rooted) : (x.closureBetween start final).Rooted where
  start_mem := mem_closureBetween_iff.mpr (Or.inr (Or.inl rfl))
  symbol_mem s a t h := by
    rcases joins_closureBetween.mp h with hEdge | ⟨hLabel, -⟩
    · exact hx.symbol_mem s a t hEdge
    · cases hLabel

theorem mentions_closureBetween (h : (x.closureBetween start final).Mentions s) :
    x.Mentions s ∨ s = start ∨ s = final := by
  cases h with
  | vertex hMem =>
      rcases mem_closureBetween_iff.mp hMem with hOld | hNew | hNew | rfl | rfl
      · exact Or.inl (.vertex hOld)
      · exact Or.inr (Or.inl hNew)
      · exact Or.inr (Or.inr hNew)
      · exact Or.inl .start
      · exact Or.inl .final
  | target hEdge =>
      rcases joins_closureBetween.mp hEdge with hOld | ⟨-, ⟨-, rfl | hNew⟩ | ⟨-, hNew | rfl⟩⟩
      · exact Or.inl (.target hOld)
      · exact Or.inl .start
      · exact Or.inr (Or.inr hNew)
      · exact Or.inr (Or.inr hNew)
      · exact Or.inl .start
  | start => exact Or.inr (Or.inl rfl)
  | final => exact Or.inr (Or.inr rfl)

theorem Rooted.unionBetween (hx : x.Rooted) (hy : y.Rooted) (hApart : x.Apart y) :
    ((x.merged y).unionBetween y start final).Rooted where
  start_mem := mem_unionBetween_iff.mpr (Or.inr (Or.inl (Or.inl rfl)))
  symbol_mem s a t h := by
    refine SortedSet.mem_union.mpr ?_
    rcases (joins_unionBetween hApart).mp h with (hEdge | hEdge) | ⟨hLabel, -⟩
    · exact Or.inr (hx.symbol_mem s a t hEdge)
    · exact Or.inl (hy.symbol_mem s a t hEdge)
    · cases hLabel

theorem mentions_unionBetween (hApart : x.Apart y)
    (h : ((x.merged y).unionBetween y start final).Mentions s) :
    (x.Mentions s ∨ y.Mentions s) ∨ s = start ∨ s = final := by
  cases h with
  | vertex hMem =>
      rcases mem_unionBetween_iff.mp hMem with
        (hOld | hOld) | hNew | (rfl | rfl) | rfl | rfl
      · exact Or.inl (Or.inl (.vertex hOld))
      · exact Or.inl (Or.inr (.vertex hOld))
      · exact Or.inr hNew
      · exact Or.inl (Or.inl .start)
      · exact Or.inl (Or.inl .final)
      · exact Or.inl (Or.inr .start)
      · exact Or.inl (Or.inr .final)
  | target hEdge =>
      rcases (joins_unionBetween hApart).mp hEdge with
        (hOld | hOld) | ⟨-, ⟨-, rfl | rfl⟩ | ⟨-, hNew⟩⟩
      · exact Or.inl (Or.inl (.target hOld))
      · exact Or.inl (Or.inr (.target hOld))
      · exact Or.inl (Or.inl .start)
      · exact Or.inl (Or.inr .start)
      · exact Or.inr (Or.inr hNew)
  | start => exact Or.inr (Or.inl rfl)
  | final => exact Or.inr (Or.inr rfl)

theorem Rooted.concatenated (hx : x.Rooted) (hy : y.Rooted) (hApart : x.Apart y) :
    (x.concatenated y).Rooted where
  start_mem := (mem_concatenated_iff hy.start_mem).mpr
    ⟨hApart.ne hx.start_mem hy.start_mem, Or.inl (Or.inl hx.start_mem)⟩
  symbol_mem s a t h := by
    refine SortedSet.mem_union.mpr ?_
    rcases ((joins_concatenated hApart hy.start_mem).mp h).2 with (hEdge | hEdge) | ⟨-, hEdge⟩
    · exact Or.inr (hx.symbol_mem _ _ _ hEdge)
    · exact Or.inl (hy.symbol_mem _ _ _ hEdge)
    · exact Or.inl (hy.symbol_mem _ _ _ hEdge)

theorem mentions_concatenated (hApart : x.Apart y) (hStart : y.start ∈ y.graph)
    (h : (x.concatenated y).Mentions s) : x.Mentions s ∨ y.Mentions s := by
  cases h with
  | vertex hMem =>
      obtain ⟨-, (hOld | hOld) | ⟨l, t, hEdge, rfl | rfl⟩⟩ := (mem_concatenated_iff hStart).mp hMem
      · exact Or.inl (.vertex hOld)
      · exact Or.inr (.vertex hOld)
      · exact Or.inl .final
      · exact Or.inr (.target hEdge)
  | target hEdge =>
      obtain ⟨-, (hOld | hOld) | ⟨-, hOld⟩⟩ := (joins_concatenated hApart hStart).mp hEdge
      · exact Or.inl (.target hOld)
      · exact Or.inr (.target hOld)
      · exact Or.inr (.target hOld)
  | start => exact Or.inl .start
  | final => exact Or.inr .final

variable {f : State → State}

theorem Rooted.rename (hx : x.Rooted) : (x.rename f).Rooted where
  start_mem := mem_rename_iff.mpr ⟨x.start, Or.inl hx.start_mem, rfl⟩
  symbol_mem s a t h := by
    obtain ⟨p, q, hEdge, -, -⟩ := joins_rename.mp h
    exact hx.symbol_mem p a q hEdge

theorem mentions_rename (h : (x.rename f).Mentions s) : ∃ t, x.Mentions t ∧ s = f t := by
  cases h with
  | vertex hMem =>
      obtain ⟨t, hOld | ⟨p, l, hEdge⟩, hName⟩ := mem_rename_iff.mp hMem
      · exact ⟨t, .vertex hOld, hName⟩
      · exact ⟨t, .target hEdge, hName⟩
  | target hEdge =>
      obtain ⟨u, t, hOld, -, hName⟩ := joins_rename.mp hEdge
      exact ⟨t, .target hOld, hName⟩
  | start => exact ⟨x.start, .start, rfl⟩
  | final => exact ⟨x.final, .final, rfl⟩

end Combinators

/-- Work that is begun in the session `t`. However it ends, no number is taken back; the
fragment that it may yield belongs to the session, and what that mentions is new or
among the old numbers. -/
structure Makes (b : Build σ (Fragment σ)) (t : Session) (old : State → Prop) : Prop where
  same_session : (b.run.run t).2.id = t.id
  next_le : t.next ≤ (b.run.run t).2.next
  belongs : ∀ x u, Yields b t x u → x.Belongs u
  origin : ∀ x u s, Yields b t x u → x.Mentions s → t.next ≤ s ∨ old s

section Makes

variable {b : Build σ (Fragment σ)} {t u : Session} {x y : Fragment σ} {old : State → Prop}

theorem Makes.grows (h : Makes b t old) (hYields : Yields b t x u) :
    u.id = t.id ∧ t.next ≤ u.next := by
  have hAfter : (b.run.run t).2 = u := congrArg Prod.snd hYields
  rw [← hAfter]
  exact ⟨h.same_session, h.next_le⟩

theorem Makes.mono {older : State → Prop} (h : Makes b t old) (hOld : ∀ s, old s → older s) :
    Makes b t older where
  __ := h
  origin x u s hYields hs := (h.origin x u s hYields hs).imp_right (hOld s)

theorem makes_of_yields (h : Yields b t x u) (hId : u.id = t.id) (hNext : t.next ≤ u.next)
    (hSession : x.session = t.id) (hRooted : x.Rooted)
    (hNumbers : ∀ s, x.Mentions s → s < u.next ∧ (t.next ≤ s ∨ old s)) : Makes b t old := by
  constructor
  · rw [show b.run.run t = _ from h]
    exact hId
  · rw [show b.run.run t = _ from h]
    exact hNext
  · intro y v hOther
    obtain ⟨rfl, rfl⟩ := h.unique hOther
    exact ⟨hSession.trans hId.symm, hRooted, fun s hs => (hNumbers s hs).1⟩
  · intro y v s hOther hs
    obtain ⟨rfl, rfl⟩ := h.unique hOther
    exact (hNumbers s hs).2

theorem makes_of_error {f : Fault σ} (h : b.run.run t = (.error f, u))
    (hId : u.id = t.id) (hNext : t.next ≤ u.next) : Makes b t old := by
  have hNone : ∀ x v, ¬ Yields b t x v := fun x v hYields =>
    nomatch congrArg Prod.fst (h.symm.trans hYields)
  constructor
  · rw [h]
    exact hId
  · rw [h]
    exact hNext
  · exact fun x v hYields => False.elim (hNone x v hYields)
  · exact fun x v s hYields => False.elim (hNone x v hYields)

/-- Numbers that were handed out stay so, and the two that follow are handed out next. -/
theorem numbers_of_pair {P : Prop} {next s : Nat}
    (h : s < next ∧ P ∨ s = next ∨ s = next + 1) : s < next + 1 + 1 ∧ (next ≤ s ∨ P) := by
  rcases h with ⟨hLt, hOld⟩ | hPair
  · exact ⟨by omega, Or.inr hOld⟩
  · exact ⟨by omega, Or.inl (by omega)⟩

/-- A fragment that is there already is made of its own numbers. -/
theorem makes_of_belongs (h : Yields b t x t) (hx : x.Belongs t) : Makes b t x.Mentions :=
  makes_of_yields h rfl (Nat.le_refl _) hx.session_eq hx.rooted fun s hs =>
    ⟨hx.below s hs, Or.inr hs⟩

theorem makes_ofLabel (label : Label σ) (t : Session) :
    Makes (liftM (ofLabel label) : Build σ (Fragment σ)) t fun _ => False := by
  have wf := wellFormed_ofEdge t.id t.next (t.next + 1) label
  refine makes_of_yields (u := { t with next := t.next + 1 + 1 }) (yields_lift _ t) rfl
    (Nat.le_add_right t.next 2) rfl wf.rooted ?_
  intro s hs
  exact numbers_of_pair (Or.inr (mem_ofEdge.mp (wf.mentions_iff.mp hs)))

theorem makes_closure (hx : x.Belongs t) :
    Makes (liftM x.closure : Build σ (Fragment σ)) t x.Mentions := by
  refine makes_of_yields (u := { t with next := t.next + 1 + 1 }) (yields_lift _ t) rfl
    (Nat.le_add_right t.next 2) ((session_closureBetween ..).trans hx.session_eq)
    hx.rooted.closureBetween ?_
  intro s hs
  exact numbers_of_pair ((mentions_closureBetween hs).imp_left fun h => ⟨hx.below s h, h⟩)

/-- A union comes about only between fragments of one session that share no state. -/
theorem of_yields_union {z : Fragment σ} (h : Yields (x.union y) t z u) :
    x.session = y.session ∧ x.Apart y ∧ z = (x.merged y).unionBetween y t.next (t.next + 1) := by
  cases hMerge : x.merge y with
  | error fault =>
      rw [Yields, union, hMerge] at h
      cases h
  | ok both =>
      obtain ⟨hSession, hApart, -⟩ := of_merge_eq_ok hMerge
      have hEq := congrArg Prod.fst (h.symm.trans (yields_union hSession hApart t))
      exact ⟨hSession, hApart, Except.ok.inj hEq⟩

theorem makes_union (hx : x.Belongs t) (hy : y.Belongs t) :
    Makes (x.union y) t fun s => x.Mentions s ∨ y.Mentions s := by
  cases hMerge : x.merge y with
  | error fault =>
      refine makes_of_error (u := t) (f := fault) ?_ rfl (Nat.le_refl _)
      rw [union, hMerge]
      rfl
  | ok both =>
      obtain ⟨hSession, hApart, rfl⟩ := of_merge_eq_ok hMerge
      refine makes_of_yields (yields_union hSession hApart t) rfl (Nat.le_add_right t.next 2)
        ((session_unionBetween ..).trans hx.session_eq) (hx.rooted.unionBetween hy.rooted hApart) ?_
      intro s hs
      exact numbers_of_pair ((mentions_unionBetween hApart hs).imp_left fun h =>
        ⟨h.elim (hx.below s) (hy.below s), h⟩)

theorem makes_concat (hx : x.Belongs t) (hy : y.Belongs t) :
    Makes (liftExcept (x.concat y) : Build σ (Fragment σ)) t
      fun s => x.Mentions s ∨ y.Mentions s := by
  cases hConcat : x.concat y with
  | error fault => exact makes_of_error (u := t) (f := fault) rfl rfl (Nat.le_refl _)
  | ok z =>
      obtain ⟨-, hApart, rfl⟩ := concat_eq_ok_iff.mp hConcat
      refine makes_of_yields (yields_liftExcept rfl t) rfl (Nat.le_refl _) hx.session_eq
        (hx.rooted.concatenated hy.rooted hApart) ?_
      intro s hs
      have hOld := mentions_concatenated hApart hy.rooted.start_mem hs
      exact ⟨hOld.elim (hx.below s) (hy.below s), Or.inr hOld⟩

/-- Every state that a replica mentions is new. -/
theorem makes_replicate (hx : x.Belongs t) :
    Makes (liftM x.replicate : Build σ (Fragment σ)) t fun _ => False := by
  refine makes_of_yields (x := x.rename fun s => t.next + x.mentioned.idxOf s)
    (u := { t with next := t.next + x.mentioned.length }) (yields_replicate x t) rfl
    (Nat.le_add_right ..) hx.session_eq hx.rooted.rename ?_
  intro s hs
  obtain ⟨p, hp, rfl⟩ := mentions_rename hs
  have hIndex := List.idxOf_lt_length_iff.mpr (mem_mentioned_iff.mpr hp)
  exact ⟨Nat.add_lt_add_left hIndex _, Or.inl (Nat.le_add_right ..)⟩

/-- Counting without end, a session that keeps clear of a state goes on above it. -/
theorem reserve_eq (t : Session) (s : State) :
    t.reserve s = { t with next := max t.next (s + 1) } := by
  rw [Session.reserve]
  split
  next hLe => rw [Nat.max_eq_right (Nat.le_succ_of_le hLe)]; rfl
  next hGt => rw [Nat.max_eq_left (Nat.lt_of_not_le hGt)]

theorem reserve_foldl (l : List State) (t : Session) :
    (l.foldl Session.reserve t).id = t.id ∧ t.next ≤ (l.foldl Session.reserve t).next ∧
      ∀ s ∈ l, s < (l.foldl Session.reserve t).next := by
  induction l generalizing t with
  | nil => exact ⟨rfl, Nat.le_refl _, fun s hs => nomatch hs⟩
  | cons v rest ih =>
      obtain ⟨hId, hNext, hBelow⟩ := ih (t.reserve v)
      rw [reserve_eq] at hId hNext hBelow
      rw [List.foldl_cons, reserve_eq]
      have hReserve : v < max t.next (v + 1) := Nat.lt_of_succ_le (Nat.le_max_right ..)
      exact ⟨hId, (Nat.le_max_left ..).trans hNext,
        List.forall_mem_cons.mpr ⟨hReserve.trans_le hNext, hBelow⟩⟩

theorem run_ofParts [Counting] (graph : Graph State (Label σ)) (start final : State)
    (alphabet : SortedSet σ) (t : Session) :
    (ofParts graph start final alphabet).run.run t =
      match fault? ⟨t.id, graph, start, final, alphabet⟩ with
      | some fault => (.error fault, t)
      | none => (.ok ⟨t.id, graph, start, final, alphabet⟩,
          graph.vertices.foldl Session.reserve t) := by
  change StateT.run (ExceptT.run (match fault? ⟨t.id, graph, start, final, alphabet⟩ with
    | some fault => (throw fault : Build σ (Fragment σ))
    | none => do
      set (graph.vertices.foldl Session.reserve t)
      return ⟨t.id, graph, start, final, alphabet⟩)) t = _
  cases fault? ⟨t.id, graph, start, final, alphabet⟩ <;> rfl

/-- A graph that is given may have any numbers, but the session keeps clear of them. -/
theorem makes_ofParts (graph : Graph State (Label σ)) (start final : State)
    (alphabet : SortedSet σ) (t : Session) :
    Makes (ofParts graph start final alphabet) t fun _ => True := by
  have hRun := run_ofParts graph start final alphabet t
  cases hFault : fault? ⟨t.id, graph, start, final, alphabet⟩ with
  | some fault =>
      rw [hFault] at hRun
      exact makes_of_error hRun rfl (Nat.le_refl _)
  | none =>
      rw [hFault] at hRun
      have wf : WellFormed ⟨t.id, graph, start, final, alphabet⟩ := by
        rw [← validate_eq_ok_iff, validate, hFault]
      obtain ⟨hId, hNext, hBelow⟩ := reserve_foldl graph.vertices t
      refine makes_of_yields hRun hId hNext rfl wf.rooted fun s hs => ⟨?_, Or.inr trivial⟩
      exact hBelow s (Graph.mem_vertices.mpr (wf.mentions_iff.mp hs))

end Makes

end FiniteAutomata.Fragment
