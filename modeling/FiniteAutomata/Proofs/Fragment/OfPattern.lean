import FiniteAutomata.Fragment.OfPattern
import FiniteAutomata.Proofs.Fragment.Simulation
import FiniteAutomata.Proofs.Fragment.Trim
import FiniteAutomata.Proofs.Pattern.Language
import Mathlib.Algebra.BigOperators.Group.List.Defs

/-! Building a fragment for a pattern. Every part is built from numbers that were
not handed out before, nothing leads into its start state, and its start state is
not final: with that concatenation never drops a state that is still in use, and
the language of the whole is put together from the languages of the parts. -/
namespace FiniteAutomata

open scoped Computability

variable {σ : Type}

theorem Pattern.GroupKind.unsupported?_eq_none {kind : Pattern.GroupKind}
    (noFlags : ∀ flags, kind = .plain flags → flags = []) : kind.unsupported? = none := by
  unfold unsupported?
  split
  next item items => cases noFlags (item :: items) rfl
  next => rfl

namespace Fragment

section Yields

variable {α β : Type}

/-- Started in the session `before`, the work yields `a` and leaves the session as
`after`. -/
def Yields (b : Build σ α) (before : Session) (a : α) (after : Session) : Prop :=
  b.run.run before = (.ok a, after)

theorem yields_pure (a : α) (t : Session) : Yields (pure a : Build σ α) t a t := rfl

theorem Yields.bind {b : Build σ α} {f : α → Build σ β} {t u v : Session} {a : α} {c : β}
    (first : Yields b t a u) (rest : Yields (f a) u c v) : Yields (b >>= f) t c v := by
  unfold Yields at *
  rw [ExceptT.run_bind, StateT.run_bind, first]
  exact rest

/-- The work has one result. -/
theorem Yields.unique {b : Build σ α} {t u v : Session} {a c : α} (h : Yields b t a u)
    (h' : Yields b t c v) : c = a ∧ v = u := by
  have hEq : (Except.ok c, v) = (Except.ok a, u) := h'.symm.trans h
  rw [Prod.mk.injEq, Except.ok.injEq] at hEq
  exact hEq

theorem yields_lift (m : StateM Session α) (t : Session) :
    Yields (liftM m : Build σ α) t (m.run t).1 (m.run t).2 := rfl

theorem yields_liftExcept {e : Except (Fault σ) α} {a : α} (h : e = .ok a) (t : Session) :
    Yields (liftExcept e : Build σ α) t a t := by
  rw [h]
  rfl

/-- Work that is done for each item of a list, one after another. What is known of the results
of single items is put together to what is known of all. -/
theorem exists_yields_mapM {id : Nat} {f : α → Build σ β} {P : α → Session → β → Session → Prop}
    {Q : List α → Session → List β → Session → Prop}
    (hSession : ∀ {a t b u}, P a t b u → u.id = t.id) (hNil : ∀ t, Q [] t [] t)
    (hCons : ∀ {a rest t u v b bs}, P a t b u → Q rest u bs v → Q (a :: rest) t (b :: bs) v)
    {items : List α} (h : ∀ a ∈ items, ∀ t, t.id = id → ∃ b u, Yields (f a) t b u ∧ P a t b u)
    (t : Session) (ht : t.id = id) : ∃ bs u, Yields (items.mapM f) t bs u ∧ Q items t bs u := by
  induction items generalizing t with
  | nil => exact ⟨[], t, rfl, hNil t⟩
  | cons a rest ih =>
      obtain ⟨b, u, hYields, first⟩ := h a List.mem_cons_self t ht
      obtain ⟨bs, v, hRest, later⟩ := ih (fun c hc => h c (List.mem_cons_of_mem _ hc)) u
        ((hSession first).trans ht)
      refine ⟨b :: bs, v, ?_, hCons first later⟩
      rw [List.mapM_cons]
      exact hYields.bind (hRest.bind (yields_pure _ v))

end Yields

variable [Symbol σ]

/-- The union of fragments without a common state takes two numbers. -/
theorem yields_union {x y : Fragment σ} (hSession : x.session = y.session) (hApart : x.Apart y)
    (t : Session) :
    Yields (x.union y) t ((x.merged y).unionBetween y t.next (t.next + 1))
      { t with next := t.next + 1 + 1 } :=
  (yields_liftExcept (merge_eq_ok hSession hApart) t).bind rfl

/-- A replica takes the numbers that come next, one for each state that is mentioned. -/
theorem run_replicate (x : Fragment σ) (t : Session) :
    x.replicate.run t = (x.rename fun s => t.next + x.mentioned.idxOf s,
      { t with next := t.next + x.mentioned.length }) := by
  have hRun : x.replicate.run t =
      (x.rename fun s => Counting.ahead t.next (x.mentioned.idxOf s),
        { t with next := Counting.ahead t.next x.mentioned.length }) := rfl
  simpa only [Counting.ahead_unbounded] using hRun

theorem yields_replicate (x : Fragment σ) (t : Session) :
    Yields (liftM x.replicate : Build σ (Fragment σ)) t
      (x.rename fun s => t.next + x.mentioned.idxOf s)
      { t with next := t.next + x.mentioned.length } := by
  have hYields : Yields (liftM x.replicate : Build σ (Fragment σ)) t (x.replicate.run t).1
    (x.replicate.run t).2 := yields_lift _ t
  rwa [run_replicate] at hYields

/-- A fragment for the words of `l` without superfluous parts. It may follow another one, as
nothing leads into its start state, which is not final. -/
structure Recognizes (x : Fragment σ) (l : Language σ) : Prop extends Trim x where
  language_eq : x.language = l

/-- A fragment for the words of `l` whose states were handed out between two
moments of a session. -/
structure Built (l : Language σ) (before : Session) (x : Fragment σ) (after : Session) :
    Prop where
  recognizes : x.Recognizes l
  session_eq : x.session = before.id
  same_session : after.id = before.id
  next_le : before.next ≤ after.next
  between : ∀ s ∈ x.graph, before.next ≤ s ∧ s < after.next

/-- Fragments for the words of each language of a list, built one after another. -/
inductive BuiltAll : List (Language σ) → Session → List (Fragment σ) → Session → Prop where
  | nil (t : Session) : BuiltAll [] t [] t
  | cons {l : Language σ} {others : List (Language σ)} {t u v : Session} {x : Fragment σ}
      {rest : List (Fragment σ)} (first : Built l t x u) (later : BuiltAll others u rest v) :
      BuiltAll (l :: others) t (x :: rest) v

/-- The work always yields a fragment for the words of `l`. -/
def Builds (id : Nat) (b : Build σ (Fragment σ)) (l : Language σ) : Prop :=
  ∀ t : Session, t.id = id → ∃ x u, Yields b t x u ∧ Built l t x u

theorem Built.mono {l : Language σ} {s t u : Session} {x : Fragment σ} (built : Built l t x u)
    (hId : t.id = s.id) (hNext : s.next ≤ t.next) : Built l s x u where
  recognizes := built.recognizes
  session_eq := built.session_eq.trans hId
  same_session := built.same_session.trans hId
  next_le := hNext.trans built.next_le
  between v hv := ⟨hNext.trans (built.between v hv).1, (built.between v hv).2⟩

section Parts

variable {l m : Language σ} {t u v : Session} {x y : Fragment σ}

theorem between_widen {low first last high s : State} (h : first ≤ s ∧ s < last)
    (hLow : low ≤ first) (hHigh : last ≤ high) : low ≤ s ∧ s < high :=
  ⟨hLow.trans h.1, h.2.trans_le hHigh⟩

/-- Two numbers that are handed out one after the other. -/
theorem between_of_pair {low next s : State} (hLow : low ≤ next) (h : s = next ∨ s = next + 1) :
    low ≤ s ∧ s < next + 1 + 1 := by
  rcases h with rfl | rfl
  · exact ⟨hLow, Nat.lt_add_of_pos_right (Nat.succ_pos 1)⟩
  · exact ⟨hLow.trans (Nat.le_succ next), Nat.lt_succ_self _⟩

/-- A fragment for a label alone takes two numbers. -/
theorem builds_ofLabel (id : Nat) (label : Label σ) :
    Builds id (liftM (ofLabel label) : Build σ (Fragment σ)) {label.word} := by
  intro t ht
  have hNe : t.next ≠ t.next + 1 := (Nat.succ_ne_self t.next).symm
  refine ⟨ofEdge t.id t.next (t.next + 1) label, { t with next := t.next + 1 + 1 },
    yields_lift _ t, ⟨trim_ofEdge t.id hNe label, language_ofEdge hNe label⟩,
    rfl, rfl, Nat.le_add_right t.next 2, fun s hs => ?_⟩
  exact between_of_pair (Nat.le_refl t.next) (mem_ofEdge.mp hs)

/-- The two states of a closure are above those of its operand. -/
theorem Built.closure (built : Built l t x u) :
    ∃ y v, Yields (liftM x.closure : Build σ (Fragment σ)) u y v ∧ Built l∗ t y v := by
  have wf := built.recognizes.wellFormed
  have hNew : ∀ s, u.next ≤ s → s ∉ x.graph := fun s hs h =>
    Nat.not_lt.mpr hs (built.between s h).2
  have hStart := hNew u.next (Nat.le_refl _)
  have hFinal := hNew (u.next + 1) (Nat.le_succ _)
  have hNe : u.next ≠ u.next + 1 := (Nat.succ_ne_self u.next).symm
  refine ⟨x.closureBetween u.next (u.next + 1), { u with next := u.next + 1 + 1 },
    yields_lift _ u, ⟨built.recognizes.toTrim.closureBetween hStart hFinal hNe, ?_⟩,
    (session_closureBetween ..).trans built.session_eq, built.same_session,
    built.next_le.trans (Nat.le_add_right u.next 2), fun s hs => ?_⟩
  · rw [language_closureBetween wf hStart hFinal hNe, built.recognizes.language_eq]
  · rcases (mem_closureBetween wf).mp hs with hOld | hPair
    · exact between_widen (built.between s hOld) (Nat.le_refl _) (Nat.le_add_right u.next 2)
    · exact between_of_pair built.next_le hPair

/-- Fragments built one after the other share no state. -/
theorem Built.apart (left : Built l t x u) (right : Built m u y v) : x.Apart y :=
  fun s hx hy => Nat.not_lt.mpr (right.between s hy).1 (left.between s hx).2

theorem Built.same_session_eq (left : Built l t x u) (right : Built m u y v) :
    x.session = y.session :=
  (left.session_eq.trans left.same_session.symm).trans right.session_eq.symm

theorem Built.union (left : Built l t x u) (right : Built m u y v) :
    ∃ z w, Yields (x.union y) v z w ∧ Built (l + m) t z w := by
  have wfx := left.recognizes.wellFormed
  have wfy := right.recognizes.wellFormed
  have hApart := left.apart right
  have hLe := left.next_le.trans right.next_le
  have hNew : ∀ s, v.next ≤ s → s ∉ x.graph ∧ s ∉ y.graph := fun s hs =>
    ⟨fun h => Nat.not_lt.mpr (right.next_le.trans hs) (left.between s h).2,
      fun h => Nat.not_lt.mpr hs (right.between s h).2⟩
  have hStart := hNew v.next (Nat.le_refl _)
  have hFinal := hNew (v.next + 1) (Nat.le_succ _)
  have hNe : v.next ≠ v.next + 1 := (Nat.succ_ne_self v.next).symm
  refine ⟨(x.merged y).unionBetween y v.next (v.next + 1), { v with next := v.next + 1 + 1 },
    yields_union (left.same_session_eq right) hApart v,
    ⟨left.recognizes.toTrim.unionBetween right.recognizes.toTrim hApart hStart hFinal hNe, ?_⟩,
    (session_unionBetween ..).trans left.session_eq, right.same_session.trans left.same_session,
    hLe.trans (Nat.le_add_right v.next 2), fun s hs => ?_⟩
  · rw [language_unionBetween wfx wfy hApart hStart hFinal hNe, left.recognizes.language_eq,
      right.recognizes.language_eq]
  · rcases (mem_unionBetween wfx wfy).mp hs with (hx | hy) | hPair
    · exact between_widen (left.between s hx) (Nat.le_refl _)
        (right.next_le.trans (Nat.le_add_right v.next 2))
    · exact between_widen (right.between s hy) left.next_le (Nat.le_add_right v.next 2)
    · exact between_of_pair hLe hPair

theorem Built.concat (left : Built l t x u) (right : Built m u y v) :
    ∃ z, x.concat y = .ok z ∧ Built (l * m) t z v := by
  have wfx := left.recognizes.wellFormed
  have wfy := right.recognizes.wellFormed
  have hApart := left.apart right
  have hNe := right.recognizes.start_ne_final
  have hEntry := right.recognizes.no_entry
  refine ⟨x.concatenated y, concat_eq_ok (left.same_session_eq right) hApart,
    ⟨left.recognizes.toTrim.concatenated right.recognizes.toTrim hApart, ?_⟩,
    left.session_eq, right.same_session.trans left.same_session,
    left.next_le.trans right.next_le, fun s hs => ?_⟩
  · rw [language_concatenated hNe hEntry wfx wfy hApart, left.recognizes.language_eq,
      right.recognizes.language_eq]
  · rcases ((mem_concatenated wfx wfy).mp hs).2 with hx | hy
    · exact between_widen (left.between s hx) (Nat.le_refl _) right.next_le
    · exact between_widen (right.between s hy) left.next_le (Nat.le_refl _)

/-- A replica has new states and the same language. -/
theorem builds_replicate (rec : x.Recognizes l) :
    Builds x.session (liftM x.replicate : Build σ (Fragment σ)) l := by
  intro t ht
  have wf := rec.wellFormed
  have hInj := replica_injective wf t.next
  refine ⟨x.rename fun s => t.next + x.mentioned.idxOf s,
    { t with next := t.next + x.mentioned.length }, yields_replicate x t,
    ⟨rec.toTrim.rename hInj, ?_⟩, ht.symm, rfl, Nat.le_add_right .., fun s hs => ?_⟩
  · rw [← rec.language_eq]
    exact language_rename wf hInj
  · obtain ⟨p, hp, rfl⟩ := (mem_rename wf).mp hs
    have := List.idxOf_lt_length_iff.mpr ((mem_mentioned wf).mpr hp)
    exact ⟨Nat.le_add_right .., Nat.add_lt_add_left this _⟩

end Parts

section Lists

variable {l : Language σ} {ls ms : List (Language σ)} {t u v : Session} {x : Fragment σ}
  {xs ys : List (Fragment σ)}

theorem BuiltAll.same_session (all : BuiltAll ls t xs u) : u.id = t.id := by
  induction all with
  | nil => rfl
  | cons first _ ih => exact ih.trans first.same_session

theorem BuiltAll.append (left : BuiltAll ls t xs u) (right : BuiltAll ms u ys v) :
    BuiltAll (ls ++ ms) t (xs ++ ys) v := by
  induction left with
  | nil => exact right
  | cons first _ ih => exact .cons first (ih right)

/-- Work done for each item of a list yields fragments for the list of languages. -/
theorem exists_builtAll_mapM {α : Type} {id : Nat} {f : α → Build σ (Fragment σ)}
    {g : α → Language σ} {items : List α} (h : ∀ a ∈ items, Builds id (f a) (g a)) (t : Session)
    (ht : t.id = id) :
    ∃ xs u, Yields (items.mapM f) t xs u ∧ BuiltAll (items.map g) t xs u :=
  exists_yields_mapM (Q := fun items => BuiltAll (items.map g))
    (fun built => built.same_session) .nil .cons h t ht

theorem Built.concat_foldlM (first : Built l t x u) (rest : BuiltAll ls u xs v) (w : Session) :
    ∃ z, Yields (xs.foldlM (fun x y => liftExcept (x.concat y)) x : Build σ (Fragment σ)) w z w ∧
      Built (l * ls.prod) t z v := by
  induction rest generalizing l x with
  | nil =>
      refine ⟨x, yields_pure x w, ?_⟩
      rwa [List.prod_nil, mul_one]
  | cons second _ ih =>
      obtain ⟨y, hConcat, both⟩ := first.concat second
      obtain ⟨z, hYields, built⟩ := ih both
      refine ⟨z, ?_, ?_⟩
      · rw [List.foldlM_cons]
        exact (yields_liftExcept hConcat w).bind hYields
      · rwa [List.prod_cons, ← mul_assoc]

theorem builds_epsilon (id : Nat) : Builds id (liftM epsilon : Build σ (Fragment σ)) 1 := by
  rw [Language.one_def]
  exact builds_ofLabel id .epsilon

/-- The concatenation of fragments built one after another. -/
theorem BuiltAll.concatAll (all : BuiltAll ls t xs u) :
    ∃ z v, Yields (concatAll xs) u z v ∧ Built ls.prod t z v := by
  cases all with
  | nil => exact builds_epsilon t.id t rfl
  | cons first later =>
      obtain ⟨z, hYields, built⟩ := first.concat_foldlM later u
      refine ⟨z, u, hYields, ?_⟩
      rwa [List.prod_cons]

end Lists

section Repetition

variable {l : Language σ} {x : Fragment σ}

theorem builds_optionalCopy (rec : x.Recognizes l) :
    Builds x.session x.optionalCopy (l + 1) := by
  intro t ht
  obtain ⟨copy, u, hCopy, builtCopy⟩ := builds_replicate rec t ht
  have hEpsilon : Builds x.session (liftM epsilon : Build σ (Fragment σ)) 1 :=
    builds_epsilon x.session
  obtain ⟨e, v, hEmpty, builtEmpty⟩ := hEpsilon u (builtCopy.same_session.trans ht)
  obtain ⟨z, w, hUnion, built⟩ := builtCopy.union builtEmpty
  exact ⟨z, w, hCopy.bind (hEmpty.bind hUnion), built⟩

theorem builds_closedCopy (rec : x.Recognizes l) : Builds x.session x.closedCopy l∗ := by
  intro t ht
  obtain ⟨copy, u, hCopy, builtCopy⟩ := builds_replicate rec t ht
  obtain ⟨z, v, hClosure, built⟩ := builtCopy.closure
  exact ⟨z, v, hCopy.bind hClosure, built⟩

/-- What follows the copies that a counted repetition needs. -/
def furtherLanguage (l : Language σ) (least : Nat) : Option Nat → Language σ
  | none => l∗
  | some most => (l + 1) ^ (most - least)

/-- Copies made one after another. -/
theorem exists_copies {id : Nat} (f : Fragment σ → Build σ (Fragment σ))
    (h : Builds id (f x) l) (n : Nat) (t : Session) (ht : t.id = id) :
    ∃ xs u, Yields ((List.replicate n x).mapM f) t xs u ∧
      BuiltAll (List.replicate n l) t xs u := by
  have hAll : ∀ y ∈ List.replicate n x, Builds id (f y) l :=
    List.forall_mem_replicate.mpr (Or.inr h)
  obtain ⟨xs, u, hYields, all⟩ := exists_builtAll_mapM hAll t ht
  rw [List.map_replicate] at all
  exact ⟨xs, u, hYields, all⟩

theorem repeatCounted_none (x : Fragment σ) (least : Nat) :
    x.repeatCounted least none = (do
      let needed ← (List.replicate least x).mapM fun x => (x.replicate : Build σ (Fragment σ))
      let closed ← x.closedCopy
      concatAll (needed ++ [closed])) := rfl

theorem repeatCounted_some (x : Fragment σ) (least most : Nat) :
    x.repeatCounted least (some most) = (do
      let needed ← (List.replicate least x).mapM fun x => (x.replicate : Build σ (Fragment σ))
      let further ← (List.replicate (most - least) x).mapM optionalCopy
      concatAll (needed ++ further)) := rfl

theorem builds_repeatCounted (rec : x.Recognizes l) (least : Nat) (most : Option Nat) :
    Builds x.session (x.repeatCounted least most) (l ^ least * furtherLanguage l least most) := by
  intro t ht
  obtain ⟨needed, u, hNeeded, builtNeeded⟩ :=
    exists_copies (fun x => liftM x.replicate) (builds_replicate rec) least t ht
  have hu : u.id = x.session := builtNeeded.same_session.trans ht
  cases most with
  | none =>
      obtain ⟨closed, v, hClosed, builtClosed⟩ := builds_closedCopy rec u hu
      have all := builtNeeded.append (.cons builtClosed (.nil v))
      obtain ⟨z, w, hConcat, built⟩ := all.concatAll
      refine ⟨z, w, ?_, ?_⟩
      · rw [repeatCounted_none]
        exact hNeeded.bind (hClosed.bind hConcat)
      · rwa [List.prod_append, List.prod_replicate, List.prod_singleton] at built
  | some most =>
      obtain ⟨optional, v, hOptional, builtOptional⟩ :=
        exists_copies optionalCopy (builds_optionalCopy rec) (most - least) u hu
      obtain ⟨z, w, hConcat, built⟩ := (builtNeeded.append builtOptional).concatAll
      refine ⟨z, w, ?_, ?_⟩
      · rw [repeatCounted_some]
        exact hNeeded.bind (hOptional.bind hConcat)
      · rwa [List.prod_append, List.prod_replicate, List.prod_replicate] at built

omit [Symbol σ] in
/-- The bounds of an operator say which words it repeats. -/
theorem bounds_language (l : Language σ) {q : Pattern.Quantifier} (h : q ≠ .zeroOrMore) :
    l ^ q.bounds.1 * furtherLanguage l q.bounds.1 q.bounds.2 = q.language l := by
  cases q with
  | zeroOrOne =>
      change l ^ 0 * (l + 1) ^ 1 = l + 1
      rw [pow_zero, one_mul, pow_one]
  | zeroOrMore => exact False.elim (h rfl)
  | oneOrMore =>
      change l ^ 1 * l∗ = l * l∗
      rw [pow_one]
  | exactly n =>
      change l ^ n * (l + 1) ^ (n - n) = l ^ n
      rw [Nat.sub_self, pow_zero, mul_one]
  | atLeast n => rfl
  | bounded least most => exact Pattern.pow_mul_add_one_pow l least most

/-- All operators but the star count their copies. -/
theorem quantify_eq_repeatCounted [Counting] (x : Fragment σ) {q : Pattern.Quantifier}
    (h : q ≠ .zeroOrMore) : x.quantify q = x.repeatCounted q.bounds.1 q.bounds.2 := by
  cases q with
  | zeroOrMore => exact False.elim (h rfl)
  | _ => rfl

theorem Built.quantify {t u : Session} (built : Built l t x u) (q : Pattern.Quantifier) :
    ∃ z v, Yields (x.quantify q) u z v ∧ Built (q.language l) t z v := by
  by_cases hStar : q = .zeroOrMore
  · subst hStar
    exact built.closure
  · have hu : u.id = x.session := built.same_session.trans built.session_eq.symm
    obtain ⟨z, v, hYields, builtLater⟩ :=
      builds_repeatCounted built.recognizes q.bounds.1 q.bounds.2 u hu
    rw [bounds_language l hStar] at builtLater
    rw [quantify_eq_repeatCounted x hStar]
    exact ⟨z, v, hYields, builtLater.mono built.same_session built.next_le⟩

end Repetition

section Patterns

theorem ofPatterns_eq_mapM (ps : List (Pattern σ)) : ofPatterns ps = ps.mapM ofPattern := by
  induction ps with
  | nil => rw [ofPatterns, List.mapM_nil]
  | cons p rest ih =>
      rw [ofPatterns, List.mapM_cons, ih]

/-- The union of a fragment with fragments for the patterns of a list. -/
theorem Built.unionPatterns {branches : List (Pattern σ)} {l : Language σ} {t u : Session}
    {x : Fragment σ} (built : Built l t x u)
    (h : ∀ p ∈ branches, ∀ id, Builds id (ofPattern p) p.language) :
    ∃ z v, Yields (unionPatterns x branches) u z v ∧
      Built (l + Pattern.sum branches) t z v := by
  induction branches generalizing l x u with
  | nil =>
      refine ⟨x, u, ?_, ?_⟩
      · rw [Fragment.unionPatterns]
        exact yields_pure x u
      · rwa [Pattern.sum, add_zero]
  | cons p rest ih =>
      obtain ⟨y, v, hBranch, builtBranch⟩ := h p List.mem_cons_self u.id u rfl
      obtain ⟨z, w, hUnion, both⟩ := built.union builtBranch
      obtain ⟨z', w', hRest, all⟩ := ih both fun q hq => h q (List.mem_cons_of_mem _ hq)
      refine ⟨z', w', ?_, ?_⟩
      · rw [Fragment.unionPatterns]
        exact hBranch.bind (hUnion.bind hRest)
      · rwa [Pattern.sum, ← add_assoc]

/-- For every supported pattern a fragment is built that recognizes its words. -/
theorem builds_ofPattern {p : Pattern σ} (hp : p.Supported) (id : Nat) :
    Builds id (ofPattern p) p.language := by
  induction hp generalizing id with
  | empty =>
      rw [ofPattern, Pattern.language]
      exact builds_epsilon id
  | literal a =>
      rw [ofPattern, Pattern.language]
      exact builds_ofLabel id (.symbol a)
  | @group kind body noFlags _ ih =>
      rw [ofPattern, Pattern.language, Pattern.GroupKind.unsupported?_eq_none noFlags]
      exact ih id
  | repetition q greedy _ ih =>
      intro t ht
      obtain ⟨x, u, hBody, built⟩ := ih id t ht
      obtain ⟨z, v, hRepeat, builtAll⟩ := built.quantify q
      rw [ofPattern, Pattern.language]
      exact ⟨z, v, hBody.bind hRepeat, builtAll⟩
  | @concat parts _ ih =>
      intro t ht
      obtain ⟨xs, u, hParts, all⟩ := exists_builtAll_mapM (fun p hp => ih p hp id) t ht
      obtain ⟨z, v, hConcat, built⟩ := all.concatAll
      rw [ofPattern, ofPatterns_eq_mapM, Pattern.language, Pattern.product_eq_prod]
      exact ⟨z, v, hParts.bind hConcat, built⟩
  | @alternation branches _ ih =>
      cases branches with
      | nil =>
          rw [ofPattern, Pattern.language]
          exact builds_epsilon id
      | cons p rest =>
          intro t ht
          obtain ⟨x, u, hFirst, built⟩ := ih p List.mem_cons_self id t ht
          obtain ⟨z, v, hUnion, builtAll⟩ :=
            built.unionPatterns fun q hq => ih q (List.mem_cons_of_mem _ hq)
          rw [ofPattern, Pattern.language]
          exact ⟨z, v, hFirst.bind hUnion, builtAll⟩

/-- Building a fragment for a supported pattern succeeds in every session. The
fragment is well formed, and it accepts the words that the pattern describes and
rejects all others. -/
theorem ofPattern_accepts_language {p : Pattern σ} (hp : p.Supported) (t : Session) :
    ∃ x u, (ofPattern p).run.run t = (.ok x, u) ∧ x.validate = .ok () ∧
      ∀ word, (x.accepts word = .ok true ↔ word ∈ p.language) ∧
        (x.accepts word = .ok false ↔ word ∉ p.language) := by
  obtain ⟨x, u, hYields, built⟩ := builds_ofPattern hp t.id t rfl
  have wf := built.recognizes.wellFormed
  refine ⟨x, u, hYields, validate_eq_ok_iff.mpr wf, fun word => ?_⟩
  obtain ⟨b, hb, hMem⟩ := wf.accepts_eq word
  rw [built.recognizes.language_eq] at hMem
  rw [hb, Except.ok.injEq, Except.ok.injEq, ← hMem]
  exact ⟨Iff.rfl, Bool.eq_false_iff⟩

/-- A fragment for `(a|b){1,2}` accepts `ba`. -/
theorem ofPattern_accepts_choice_twice :
    ∃ x u, (ofPattern (.repetition (.bounded 1 2) true
        (.group .indexed (.alternation [.literal 'a', .literal 'b'])))).run.run
          (Session.new 0) = (.ok x, u) ∧
      x.validate = .ok () ∧ x.accepts ['b', 'a'] = .ok true := by
  have hChoice : (Pattern.alternation [.literal 'a', .literal 'b']).Supported := by
    apply Pattern.Supported.alternation
    intro p hp
    rcases List.mem_pair.mp hp with rfl | rfl
    · exact .literal 'a'
    · exact .literal 'b'
  have hGroup : (Pattern.group .indexed (.alternation [.literal 'a', .literal 'b'])).Supported :=
    .group nofun hChoice
  obtain ⟨x, u, hRun, hValid, hWords⟩ :=
    ofPattern_accepts_language (.repetition (.bounded 1 2) true hGroup) (Session.new 0)
  refine ⟨x, u, hRun, hValid, (hWords ['b', 'a']).1.mpr ?_⟩
  simp only [Pattern.language, Pattern.Quantifier.language, Pattern.sum, add_zero]
  refine Set.mem_iUnion₂_of_mem (i := 2) (j := by simp) ?_
  rw [pow_two]
  exact ⟨['b'], .inr rfl, ['a'], .inl rfl, rfl⟩

end Patterns

end Fragment

end FiniteAutomata
