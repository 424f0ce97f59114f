import FiniteAutomata.Proofs.Fragment.OfPattern

/-! Concatenation is associative, edge by edge. It moves edges from the right start state to
the left final state, so three fragments can be put together from either end as long as the
two states of the middle one differ: the same edges then come to the same places, and each
state lists its edges in the same order. For fragments that were built one after another this
makes the concatenation of a part of them as good as the part. -/
namespace FiniteAutomata.Fragment

variable {σ : Type} [Symbol σ] {x y z : Fragment σ}

@[simp]
theorem start_concatenated (x y : Fragment σ) : (x.concatenated y).start = x.start := rfl

@[simp]
theorem final_concatenated (x y : Fragment σ) : (x.concatenated y).final = y.final := rfl

/-- Every state keeps its edges, the right start state apart, whose edges come behind those of
the left final state. -/
theorem arrows_concatenated (hApart : x.Apart y) (hStart : y.start ∈ y.graph) (v : State) :
    (x.concatenated y).graph.arrows v = if v = y.start then [] else
      x.graph.arrows v ++ y.graph.arrows v ++
        if v = x.final then y.graph.arrows y.start else [] := by
  have hBridge : (x.graph.absorb y.graph).arrows y.start = y.graph.arrows y.start :=
    Graph.arrows_absorb_right hStart
  simp only [concatenated, merged, Graph.arrows_remove, Graph.arrows_addArrows, hBridge,
    Graph.arrows_absorb hApart]
  by_cases hFinal : v = x.final
  · simp [hFinal]
  · simp [hFinal]

theorem Apart.concatenated_left (hx : x.Trim) (hy : y.Trim) (hxz : x.Apart z)
    (hyz : y.Apart z) : (x.concatenated y).Apart z := by
  intro s hs
  rcases ((mem_concatenated hx.wellFormed hy.wellFormed).mp hs).2 with hMem | hMem
  · exact hxz s hMem
  · exact hyz s hMem

theorem Apart.concatenated_right (hy : y.Trim) (hz : z.Trim) (hxy : x.Apart y)
    (hxz : x.Apart z) : x.Apart (y.concatenated z) := by
  intro s hs hShared
  rcases ((mem_concatenated hy.wellFormed hz.wellFormed).mp hShared).2 with hMem | hMem
  · exact hxy s hs hMem
  · exact hxz s hs hMem

section Associate

variable (hx : x.Trim) (hy : y.Trim) (hz : z.Trim) (hxy : x.Apart y) (hxz : x.Apart z)
  (hyz : y.Apart z)
include hx hy hz hxy hxz hyz

theorem mem_concatenated_assoc (v : State) :
    v ∈ ((x.concatenated y).concatenated z).graph ↔
      v ∈ (x.concatenated (y.concatenated z)).graph := by
  have hLeft := hx.concatenated hy hxy
  have hRight := hy.concatenated hz hyz
  have hKept : v = y.start → v ∉ z.graph := fun hEq => hEq ▸ hyz y.start hy.wellFormed.start_mem
  have hGone : v = z.start → v ∉ x.graph := fun hEq hMem =>
    hxz v hMem (hEq ▸ hz.wellFormed.start_mem)
  rw [mem_concatenated hLeft.wellFormed hz.wellFormed, mem_concatenated hx.wellFormed hy.wellFormed,
    mem_concatenated hx.wellFormed hRight.wellFormed, mem_concatenated hy.wellFormed hz.wellFormed,
    start_concatenated]
  tauto

/-- The edges of the middle start state come to the left final state, those of the right start
state to the middle final state. As these are different places, it does not matter which edges
are moved first. -/
theorem arrows_concatenated_assoc (v : State) :
    ((x.concatenated y).concatenated z).graph.arrows v =
      (x.concatenated (y.concatenated z)).graph.arrows v := by
  have hyStart := hy.wellFormed.start_mem
  have hzStart := hz.wellFormed.start_mem
  have hxFinal := hx.wellFormed.final_mem
  have hStarts : y.start ≠ z.start := hyz.ne hyStart hzStart
  have hMiddle : (y.concatenated z).graph.arrows y.start = y.graph.arrows y.start := by
    rw [arrows_concatenated hyz hzStart, if_neg hStarts, if_neg hy.start_ne_final,
      Graph.arrows_eq_nil (hyz y.start hyStart), List.append_nil, List.append_nil]
  have hLeft : ((x.concatenated y).concatenated z).graph.arrows v = _ :=
    arrows_concatenated (hxz.concatenated_left hx hy hyz) hzStart v
  have hRight : (x.concatenated (y.concatenated z)).graph.arrows v = _ :=
    arrows_concatenated (hxy.concatenated_right hy hz hxz)
      (hy.concatenated hz hyz).wellFormed.start_mem v
  rw [hLeft, hRight, start_concatenated, final_concatenated, hMiddle,
    arrows_concatenated hxy hyStart, arrows_concatenated hyz hzStart]
  by_cases hDropped : v = z.start
  · subst hDropped
    have hNotLeft : z.start ∉ x.graph := fun h => hxz z.start h hzStart
    have hNotFinal : z.start ≠ x.final := (hxz.ne hxFinal hzStart).symm
    simp [hNotFinal, Graph.arrows_eq_nil hNotLeft]
  · by_cases hMoved : v = y.start
    · subst hMoved
      simp [hStarts, hy.start_ne_final, Graph.arrows_eq_nil (hyz y.start hyStart)]
    · by_cases hJoint : v = x.final
      · subst hJoint
        have hOther : x.final ≠ y.final := hxy.ne hxFinal hy.wellFormed.final_mem
        simp [hDropped, hMoved, hOther, Graph.arrows_eq_nil (hxy _ hxFinal),
          Graph.arrows_eq_nil (hxz _ hxFinal)]
      · simp [hDropped, hMoved, hJoint]

/-- Three fragments without superfluous parts give one fragment, from whichever end they are
put together. -/
theorem concatenated_assoc :
    (x.concatenated y).concatenated z = x.concatenated (y.concatenated z) := by
  have hGraph : ((x.concatenated y).concatenated z).graph =
      (x.concatenated (y.concatenated z)).graph :=
    Graph.ext_arrows (mem_concatenated_assoc hx hy hz hxy hxz hyz)
      (arrows_concatenated_assoc hx hy hz hxy hxz hyz)
  have hAlphabet : ((x.concatenated y).concatenated z).alphabet =
      (x.concatenated (y.concatenated z)).alphabet := SortedSet.union_assoc ..
  change Fragment.mk x.session ((x.concatenated y).concatenated z).graph x.start z.final
      ((x.concatenated y).concatenated z).alphabet =
    Fragment.mk x.session (x.concatenated (y.concatenated z)).graph x.start z.final
      (x.concatenated (y.concatenated z)).alphabet
  rw [hGraph, hAlphabet]

end Associate

section Lists

variable {k l : Language σ} {ks ls ms : List (Language σ)} {s t u v w : Session}
  {xs ys zs : List (Fragment σ)}

theorem Built.concatenated (left : Built k s x t) (right : Built l t y u) :
    Built (k * l) s (x.concatenated y) u := by
  obtain ⟨z, hConcat, built⟩ := left.concat right
  obtain ⟨-, -, rfl⟩ := concat_eq_ok_iff.mp hConcat
  exact built

/-- Concatenating fragments that were built one after another takes no number and cannot
fail. -/
theorem Built.foldlM_eq (first : Built k s x t) (rest : BuiltAll ls t xs u) :
    (xs.foldlM (fun x y => liftExcept (x.concat y)) x : Build σ (Fragment σ)) =
      pure (xs.foldl Fragment.concatenated x) := by
  induction rest generalizing k x with
  | nil => rfl
  | cons next _ ih =>
      have hConcat := concat_eq_ok (first.same_session_eq next) (first.apart next)
      have hStep : (liftExcept (x.concat _) : Build σ (Fragment σ)) = pure _ :=
        congrArg liftExcept hConcat
      rw [List.foldlM_cons, hStep, pure_bind, ih (first.concatenated next), List.foldl_cons]

theorem Built.concatAll_eq (first : Built k s x t) (rest : BuiltAll ls t xs u) :
    concatAll (x :: xs) = pure (xs.foldl Fragment.concatenated x) :=
  first.foldlM_eq rest

theorem Built.foldl (first : Built k s x t) (rest : BuiltAll ls t xs u) :
    Built (k * ls.prod) s (xs.foldl Fragment.concatenated x) u := by
  obtain ⟨z, hYields, built⟩ := first.concat_foldlM rest u
  rw [first.foldlM_eq rest] at hYields
  obtain ⟨rfl, -⟩ := (yields_pure _ u).unique hYields
  exact built

/-- What stands in front of a row of fragments may be put to the first of them. -/
theorem Built.concatenated_foldl (front : Built k s x t) (first : Built l t y u)
    (rest : BuiltAll ls u ys v) :
    x.concatenated (ys.foldl Fragment.concatenated y) =
      ys.foldl Fragment.concatenated (x.concatenated y) := by
  induction rest generalizing l y with
  | nil => rfl
  | cons next _ ih =>
      have hApart := front.apart (next.mono first.same_session first.next_le)
      have hAssoc := concatenated_assoc front.recognizes.toTrim first.recognizes.toTrim
        next.recognizes.toTrim (front.apart first) hApart (first.apart next)
      rw [List.foldl_cons, ih (first.concatenated next), List.foldl_cons, hAssoc]

/-- In the concatenation of fragments that were built one after another, some that follow one
another may be concatenated beforehand. -/
theorem BuiltAll.concatAll_splice (before : BuiltAll ks s xs t) (first : Built l t y u)
    (inner : BuiltAll ls u ys v) (after : BuiltAll ms v zs w) :
    Fragment.concatAll (xs ++ ys.foldl Fragment.concatenated y :: zs) =
      Fragment.concatAll (xs ++ y :: ys ++ zs) := by
  have whole := first.foldl inner
  cases before with
  | nil =>
      have hFlat := first.concatAll_eq (inner.append after)
      rw [List.foldl_append] at hFlat
      exact (whole.concatAll_eq after).trans hFlat.symm
  | cons front others =>
      have hNested := front.concatAll_eq (others.append (.cons whole after))
      have hFlat := front.concatAll_eq ((others.append (.cons first inner)).append after)
      have hAssoc := (front.foldl others).concatenated_foldl first inner
      simp only [List.foldl_append, List.foldl_cons] at hNested hFlat
      rw [hAssoc] at hNested
      exact hNested.trans hFlat.symm

end Lists

end FiniteAutomata.Fragment
