import FiniteAutomata.Proofs.Fragment.Associate
import FiniteAutomata.Proofs.Fragment.Translation
import Mathlib.Logic.Relation

/-! Ways to write a pattern that building does not tell apart: with or without parentheses that
only group, with a sequence inside a sequence or in one row, with a sequence or a choice of one
part or with the part, greedy or not. The steps from one way to another may be taken anywhere in
a pattern. For all of them but one the laws of chained work are enough; a sequence inside a
sequence needs that concatenation is associative, and that what is built in a row fits
together. -/
namespace FiniteAutomata

variable {σ : Type}

namespace Pattern

/-- The second pattern is the first one with one thing changed, somewhere inside: a group without
flags is replaced by what is in it, a sequence in a sequence by its parts, a sequence or a choice
of a single part by that part, or a repetition prefers many or few as it likes. -/
inductive Regroups : Pattern σ → Pattern σ → Prop where
  | group {kind : GroupKind} (noFlags : ∀ flags, kind = .plain flags → flags = [])
      (body : Pattern σ) : Regroups (.group kind body) body
  /-- A sequence without parts has to stay: it is built as an edge of its own. -/
  | splice (before : List (Pattern σ)) (first : Pattern σ) (inner after : List (Pattern σ)) :
      Regroups (.concat (before ++ .concat (first :: inner) :: after))
        (.concat (before ++ first :: inner ++ after))
  | onlyPart (p : Pattern σ) : Regroups (.concat [p]) p
  | onlyBranch (p : Pattern σ) : Regroups (.alternation [p]) p
  | greed (q : Quantifier) (greedy greedy' : Bool) (body : Pattern σ) :
      Regroups (.repetition q greedy body) (.repetition q greedy' body)
  | inGroup (kind : GroupKind) {p p' : Pattern σ} (step : Regroups p p') :
      Regroups (.group kind p) (.group kind p')
  | inRepetition (q : Quantifier) (greedy : Bool) {p p' : Pattern σ} (step : Regroups p p') :
      Regroups (.repetition q greedy p) (.repetition q greedy p')
  | inConcat (before after : List (Pattern σ)) {p p' : Pattern σ} (step : Regroups p p') :
      Regroups (.concat (before ++ p :: after)) (.concat (before ++ p' :: after))
  | inAlternation (before after : List (Pattern σ)) {p p' : Pattern σ} (step : Regroups p p') :
      Regroups (.alternation (before ++ p :: after)) (.alternation (before ++ p' :: after))

end Pattern

namespace Fragment

section Build

variable {α β : Type} {b : Build σ α} {f g : α → Build σ β} {t : Session}

/-- What is done with a result matters only for the results that there are. -/
theorem run_bind_congr (h : ∀ a u, Yields b t a u → (f a).run.run u = (g a).run.run u) :
    (b >>= f).run.run t = (b >>= g).run.run t := by
  rw [Outcome.run_bind, Outcome.run_bind]
  cases hRun : b.run.run t with
  | mk result u =>
      cases result with
      | error fault => rfl
      | ok a => exact h a u hRun

end Build

variable [Symbol σ]

theorem ofPatterns_append (ps qs : List (Pattern σ)) :
    ofPatterns (ps ++ qs) = (do return (← ofPatterns ps) ++ (← ofPatterns qs)) := by
  simp only [ofPatterns_eq_mapM, List.mapM_append]

/-- Patterns that can be followed to the end are followed one after another. -/
theorem builtAll_of_yields {ps : List (Pattern σ)} {t u : Session} {xs : List (Fragment σ)}
    (h : Yields (ofPatterns ps) t xs u) : BuiltAll (ps.map Pattern.language) t xs u := by
  cases hFirst : Pattern.firstUnsupported? ps with
  | some feature =>
      obtain ⟨v, hRun, -⟩ := stops_ofPatterns ps hFirst t
      cases hRun.symm.trans h
  | none =>
      have hAll : ∀ p ∈ ps, Builds t.id (ofPattern p) p.language := fun p hp =>
        builds_ofPattern (Pattern.supported_of_first_none ps hFirst p hp) t.id
      obtain ⟨ys, v, hYields, all⟩ := exists_builtAll_mapM hAll t rfl
      rw [ofPatterns_eq_mapM] at h
      obtain ⟨rfl, rfl⟩ := hYields.unique h
      exact all

/-- A sequence is built from what is built for its two parts. -/
theorem ofPattern_concat_append (ps qs : List (Pattern σ)) :
    ofPattern (.concat (ps ++ qs)) = (do
      let xs ← ofPatterns ps
      let ys ← ofPatterns qs
      concatAll (xs ++ ys)) := by
  rw [ofPattern, ofPatterns_append]
  simp only [bind_assoc, pure_bind]

/-- A sequence that stands in a sequence may be spliced into it: concatenating its fragments
beforehand takes no number and makes no difference. -/
theorem ofPattern_splice (before : List (Pattern σ)) (first : Pattern σ)
    (inner after : List (Pattern σ)) :
    ofPattern (.concat (before ++ .concat (first :: inner) :: after)) =
      ofPattern (.concat (before ++ first :: inner ++ after)) := by
  have hNested : ofPatterns (.concat (first :: inner) :: after) = (do
      let z ← concatAll (← ofPatterns (first :: inner))
      return z :: (← ofPatterns after)) := by
    rw [ofPatterns, ofPattern, bind_assoc]
  funext t
  rw [List.append_assoc, ofPattern_concat_append, ofPattern_concat_append, hNested,
    ofPatterns_append]
  simp only [bind_assoc, pure_bind]
  apply run_bind_congr
  intro xs u hBefore
  apply run_bind_congr
  intro ys v hInner
  -- what is built for the inner patterns is concatenated without taking a number
  cases builtAll_of_yields hInner with
  | cons built rest =>
      rw [built.concatAll_eq rest, pure_bind]
      apply run_bind_congr
      intro zs w hAfter
      have hSplice := (builtAll_of_yields hBefore).concatAll_splice built rest
        (builtAll_of_yields hAfter)
      rw [hSplice, List.append_assoc]

theorem unionPatterns_append (ps qs : List (Pattern σ)) (x : Fragment σ) :
    unionPatterns x (ps ++ qs) = (do unionPatterns (← unionPatterns x ps) qs) := by
  induction ps generalizing x with
  | nil => rw [List.nil_append, unionPatterns, pure_bind]
  | cons p rest ih =>
      rw [List.cons_append, unionPatterns, unionPatterns]
      simp only [ih, bind_assoc]

/-- One step from one way to write a pattern to another does not change what is built. -/
theorem ofPattern_eq_of_regroups {p q : Pattern σ} (h : p.Regroups q) :
    ofPattern p = ofPattern q := by
  induction h with
  | group noFlags body => rw [ofPattern, Pattern.GroupKind.unsupported?_eq_none noFlags]
  | splice before first inner after => exact ofPattern_splice before first inner after
  | onlyPart p => simp [ofPattern, ofPatterns, concatAll]
  | onlyBranch p => simp [ofPattern, unionPatterns]
  | greed q greedy greedy' body => rw [ofPattern, ofPattern]
  | inGroup kind _ ih => rw [ofPattern, ofPattern, ih]
  | inRepetition q greedy _ ih => rw [ofPattern, ofPattern, ih]
  | inConcat before after _ ih =>
      rw [ofPattern_concat_append, ofPattern_concat_append, ofPatterns, ofPatterns, ih]
  | inAlternation before after _ ih =>
      cases before with
      | nil => rw [List.nil_append, List.nil_append, ofPattern, ofPattern, ih]
      | cons first others =>
          rw [List.cons_append, List.cons_append, ofPattern, ofPattern]
          simp only [unionPatterns_append, unionPatterns, ih]

theorem ofPattern_eq_of_eqvGen {p q : Pattern σ} (h : Relation.EqvGen Pattern.Regroups p q) :
    ofPattern p = ofPattern q := by
  induction h with
  | rel p q step => exact ofPattern_eq_of_regroups step
  | refl p => rfl
  | symm p q _ ih => exact ih.symm
  | trans p q r _ _ first second => exact first.trans second

/-- Two ways to write a pattern, between which any number of such steps lead, forwards or
backwards and anywhere in the pattern, are treated alike by two sessions in which the same
number comes next. Both take as many numbers; either the pattern cannot be followed in both, for
the same reason, or the two fragments have the same start and final state, the same edges in the
same order and the same alphabet. -/
theorem ofPattern_regroups {p q : Pattern σ} (h : Relation.EqvGen Pattern.Regroups p q)
    (t t' : Session) (hNext : t.next = t'.next) :
    ∃ n, ((ofPattern p).run.run t).2 = { t with next := t.next + n } ∧
      ((ofPattern q).run.run t').2 = { t' with next := t'.next + n } ∧
      ((∃ f, ((ofPattern p).run.run t).1 = .error f ∧ ((ofPattern q).run.run t').1 = .error f) ∨
        ∃ x y, ((ofPattern p).run.run t).1 = .ok x ∧ ((ofPattern q).run.run t').1 = .ok y ∧
          x.start = y.start ∧ x.final = y.final ∧ x.graph = y.graph ∧
          x.alphabet = y.alphabet) := by
  have hRun := run_ofPattern_eq p t
  have hRun' := run_ofPattern_eq p t'
  rw [← ofPattern_eq_of_eqvGen h]
  refine ⟨_, congrArg Prod.snd hRun, congrArg Prod.snd hRun', ?_⟩
  rw [congrArg Prod.fst hRun, congrArg Prod.fst hRun', ← hNext]
  cases hResult : ((ofPattern p).run.run (Session.new 0)).1 with
  | error f =>
      have hFault := relocate_of_ofPattern_error hResult
      exact Or.inl ⟨f, by rw [relocated, hFault], by rw [relocated, hFault]⟩
  | ok x => exact Or.inr ⟨_, _, rfl, rfl, rfl, rfl, rfl, rfl⟩

/-- What is built for `a(?:b*?c)` in one session is built for `ab*c` in another: the group goes,
then its sequence is spliced, then the star turns greedy. -/
theorem ofPattern_regroups_nested :
    ∃ x y, (ofPattern (.concat [.literal 'a', .group (.plain []) (.concat
        [.repetition .zeroOrMore false (.literal 'b'), .literal 'c'])])).run.run ⟨0, 3⟩ =
          (.ok x, ⟨0, 11⟩) ∧
      (ofPattern (.concat [.literal 'a', .repetition .zeroOrMore true (.literal 'b'),
        .literal 'c'])).run.run ⟨1, 3⟩ = (.ok y, ⟨1, 11⟩) ∧
      x.start = y.start ∧ x.final = y.final ∧ x.graph = y.graph ∧ x.alphabet = y.alphabet := by
  have hGroup : (Pattern.concat [.literal 'a', .group (.plain []) (.concat
      [.repetition .zeroOrMore false (.literal 'b'), .literal 'c'])]).Regroups _ :=
    .inConcat [.literal 'a'] [] (.group (fun flags h => (Pattern.GroupKind.plain.inj h).symm) _)
  have hSplice := Pattern.Regroups.splice [.literal 'a']
    (.repetition .zeroOrMore false (.literal 'b')) [.literal 'c'] []
  have hGreed := Pattern.Regroups.inConcat [.literal 'a'] [.literal 'c']
    (.greed .zeroOrMore false true (.literal 'b'))
  have hSteps := (Relation.EqvGen.rel _ _ hGroup).trans _ _ _
    ((Relation.EqvGen.rel _ _ hSplice).trans _ _ _ (.rel _ _ hGreed))
  obtain ⟨n, -, -, hResults⟩ := ofPattern_regroups hSteps ⟨0, 3⟩ ⟨1, 3⟩ rfl
  rcases hResults with ⟨f, hFails, -⟩ | ⟨x, y, hx, hy, hSame⟩
  · cases hFails
  · exact ⟨x, y, Prod.ext hx rfl, Prod.ext hy rfl, hSame⟩

end Fragment

end FiniteAutomata
