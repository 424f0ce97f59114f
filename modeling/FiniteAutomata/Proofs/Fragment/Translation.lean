import FiniteAutomata.Proofs.Fragment.Relocate
import FiniteAutomata.Proofs.Fragment.Unsupported

/-! Building elsewhere. What is built for a pattern depends on a session only through the
number that comes next: from another number on the same is built, moved as a whole, and as
many numbers are taken, whether the pattern can be followed to its end or not. -/
namespace FiniteAutomata.Fragment

variable {σ : Type}

section Relocates

variable {α β γ δ : Type} {r : Offset}

/-- Begun in a moved session, the second work ends with the result of the first one, moved,
and the session has moved along. -/
def Relocates (r : Offset) (move : α → β) (b : Build σ α) (c : Build σ β) : Prop :=
  ∀ t : Session, c.run.run (t.relocate r) =
    (relocated r move (b.run.run t).1, (b.run.run t).2.relocate r)

theorem relocates_pure {move : α → β} (a : α) :
    Relocates r move (pure a : Build σ α) (pure (move a)) := fun _ => rfl

theorem relocates_throw {move : α → β} (f : Fault σ) :
    Relocates r move (throw f : Build σ α) (throw (f.relocate r)) := fun _ => rfl

theorem relocates_liftExcept {move : α → β} {e : Except (Fault σ) α} {e' : Except (Fault σ) β}
    (h : e' = relocated r move e) :
    Relocates r move (liftExcept e : Build σ α) (liftExcept e') := by
  intro t
  rw [h]
  cases e <;> rfl

theorem Relocates.bind {move : α → β} {send : γ → δ} {b : Build σ α} {c : Build σ β}
    {f : α → Build σ γ} {g : β → Build σ δ} (first : Relocates r move b c)
    (rest : ∀ a, Relocates r send (f a) (g (move a))) : Relocates r send (b >>= f) (c >>= g) := by
  intro t
  rw [Outcome.run_bind, Outcome.run_bind, first t]
  cases hRun : b.run.run t with
  | mk result u =>
      cases result with
      | error fault => rfl
      | ok a => exact rest a u

theorem relocates_mapM {move : γ → δ} {send : α → β} {f : α → Build σ γ} {g : β → Build σ δ}
    (h : ∀ a, Relocates r move (f a) (g (send a))) (l : List α) :
    Relocates r (List.map move) (l.mapM f) ((l.map send).mapM g) := by
  induction l with
  | nil => exact relocates_pure []
  | cons a rest ih =>
      rw [List.map_cons, List.mapM_cons, List.mapM_cons]
      exact (h a).bind fun b => ih.bind fun others => relocates_pure (b :: others)

theorem relocates_foldlM {move : γ → δ} {send : α → β} {f : γ → α → Build σ γ}
    {g : δ → β → Build σ δ} (h : ∀ c a, Relocates r move (f c a) (g (move c) (send a)))
    (l : List α) (c : γ) :
    Relocates r move (l.foldlM f c) ((l.map send).foldlM g (move c)) := by
  induction l generalizing c with
  | nil => exact relocates_pure c
  | cons a rest ih =>
      rw [List.map_cons, List.foldlM_cons, List.foldlM_cons]
      exact (h c a).bind ih

end Relocates

variable [Symbol σ]

section Combinators

variable (r : Offset)

/-- Work that takes two numbers for new states. -/
theorem relocates_of_pair {r : Offset} {b c : Build σ (Fragment σ)}
    {f g : Nat → State → State → Fragment σ}
    (hb : ∀ t, Yields b t (f t.id t.next (t.next + 1)) { t with next := t.next + 1 + 1 })
    (hc : ∀ t, Yields c t (g t.id t.next (t.next + 1)) { t with next := t.next + 1 + 1 })
    (h : ∀ id s u, g (id + r.session) (s + r.state) (u + r.state) = (f id s u).relocate r) :
    Relocates r (relocate r) b c := by
  intro t
  have hNext : ∀ n, t.next + r.state + n = t.next + n + r.state := Nat.add_right_comm _ _
  have hLater : c.run.run (t.relocate r) = (.ok (g (t.id + r.session) (t.next + r.state)
    (t.next + r.state + 1)), ⟨t.id + r.session, t.next + r.state + 2⟩) := hc (t.relocate r)
  rw [hLater, hNext, hNext, h, show b.run.run t = _ from hb t]
  rfl

theorem relocates_ofLabel (label : Label σ) :
    Relocates r (relocate r) (liftM (ofLabel label) : Build σ (Fragment σ))
      (liftM (ofLabel label)) :=
  relocates_of_pair (f := fun id s u => ofEdge id s u label)
    (g := fun id s u => ofEdge id s u label) (fun _ => rfl) (fun _ => rfl)
    fun id s u => (relocate_ofEdge r id s u label).symm

theorem relocates_closure (x : Fragment σ) :
    Relocates r (relocate r) (liftM x.closure : Build σ (Fragment σ))
      (liftM (x.relocate r).closure) :=
  relocates_of_pair (f := fun _ => x.closureBetween) (g := fun _ => (x.relocate r).closureBetween)
    (fun _ => rfl) (fun _ => rfl) fun _ => closureBetween_relocate r x

theorem relocates_union (x y : Fragment σ) :
    Relocates r (relocate r) (x.union y) ((x.relocate r).union (y.relocate r)) :=
  (relocates_liftExcept (merge_relocate r x y)).bind fun both =>
    relocates_of_pair (f := fun _ => both.unionBetween y)
      (g := fun _ => (both.relocate r).unionBetween (y.relocate r)) (fun _ => rfl) (fun _ => rfl)
      fun _ => unionBetween_relocate r both y

/-- A replica takes its numbers in the order in which states are mentioned, which is the same
elsewhere. -/
theorem relocates_replicate (x : Fragment σ) :
    Relocates r (relocate r) (liftM x.replicate : Build σ (Fragment σ))
      (liftM (x.relocate r).replicate) := by
  intro t
  have hNames : ∀ s, t.next + r.state + (x.relocate r).mentioned.idxOf (s + r.state) =
      t.next + x.mentioned.idxOf s + r.state := by
    intro s
    rw [mentioned_relocate, idxOf_map fun _ _ => Nat.add_right_cancel, Nat.add_right_comm]
  have hNext : t.next + r.state + (x.relocate r).mentioned.length =
      t.next + x.mentioned.length + r.state := by
    rw [mentioned_relocate, List.length_map, Nat.add_right_comm]
  have hCopy : ((x.relocate r).rename fun s =>
      t.next + r.state + (x.relocate r).mentioned.idxOf s) =
        (x.rename fun s => t.next + x.mentioned.idxOf s).relocate r := rename_relocate r x hNames
  have hRun : (liftM (x.relocate r).replicate : Build σ (Fragment σ)).run.run (t.relocate r) =
      (.ok ((x.relocate r).rename fun s => t.next + r.state + (x.relocate r).mentioned.idxOf s),
        ⟨t.id + r.session, t.next + r.state + (x.relocate r).mentioned.length⟩) :=
    yields_replicate (x.relocate r) (t.relocate r)
  rw [hRun, hCopy, hNext, yields_replicate x t]
  rfl

theorem relocates_concatAll (xs : List (Fragment σ)) :
    Relocates r (relocate r) (concatAll xs) (concatAll (xs.map (relocate r))) := by
  cases xs with
  | nil => exact relocates_ofLabel r .epsilon
  | cons x rest =>
      exact relocates_foldlM (fun x y => relocates_liftExcept (concat_relocate r x y)) rest x

theorem relocates_optionalCopy (x : Fragment σ) :
    Relocates r (relocate r) x.optionalCopy (x.relocate r).optionalCopy :=
  (relocates_replicate r x).bind fun copy =>
    (relocates_ofLabel r .epsilon).bind fun empty => relocates_union r copy empty

theorem relocates_closedCopy (x : Fragment σ) :
    Relocates r (relocate r) x.closedCopy (x.relocate r).closedCopy :=
  (relocates_replicate r x).bind fun copy => relocates_closure r copy

/-- Copies made one after another. -/
theorem relocates_copies {r : Offset} {f : Fragment σ → Build σ (Fragment σ)}
    (hf : ∀ x, Relocates r (relocate r) (f x) (f (x.relocate r))) (n : Nat) (x : Fragment σ) :
    Relocates r (List.map (relocate r)) ((List.replicate n x).mapM f)
      ((List.replicate n (x.relocate r)).mapM f) := by
  have hAll := relocates_mapM hf (List.replicate n x)
  rwa [List.map_replicate] at hAll

theorem relocates_repeatCounted (x : Fragment σ) (least : Nat) (most : Option Nat) :
    Relocates r (relocate r) (x.repeatCounted least most)
      ((x.relocate r).repeatCounted least most) := by
  have hNeeded := relocates_copies (f := fun x => liftM x.replicate) (relocates_replicate r) least x
  cases most with
  | none =>
      rw [repeatCounted_none, repeatCounted_none]
      apply hNeeded.bind
      intro needed
      apply (relocates_closedCopy r x).bind
      intro closed
      have hAll := relocates_concatAll r (needed ++ [closed])
      rwa [List.map_append, List.map_singleton] at hAll
  | some most =>
      rw [repeatCounted_some, repeatCounted_some]
      have hFurther := relocates_copies (relocates_optionalCopy r) (most - least) x
      apply hNeeded.bind
      intro needed
      apply hFurther.bind
      intro further
      have hAll := relocates_concatAll r (needed ++ further)
      rwa [List.map_append] at hAll

theorem relocates_quantify (x : Fragment σ) (q : Pattern.Quantifier) :
    Relocates r (relocate r) (x.quantify q) ((x.relocate r).quantify q) := by
  by_cases hStar : q = .zeroOrMore
  · subst hStar
    exact relocates_closure r x
  · rw [quantify_eq_repeatCounted x hStar, quantify_eq_repeatCounted (x.relocate r) hStar]
    exact relocates_repeatCounted r x _ _

end Combinators

section Patterns

variable (r : Offset)

mutual

/-- What is built for a pattern in a moved session is what is built in the session itself,
moved. -/
theorem relocates_ofPattern : (p : Pattern σ) →
    Relocates r (relocate r) (ofPattern p) (ofPattern p)
  | .empty => by
      rw [ofPattern]
      exact relocates_ofLabel r .epsilon
  | .literal a => by
      rw [ofPattern]
      exact relocates_ofLabel r (.symbol a)
  | .dot | .assertion _ | .charClass _ | .flags _ => by
      rw [ofPattern]
      exact relocates_throw _
  | .group kind body => by
      rw [ofPattern]
      cases kind.unsupported? with
      | some feature => exact relocates_throw _
      | none => exact relocates_ofPattern body
  | .repetition q _ body => by
      rw [ofPattern]
      exact (relocates_ofPattern body).bind fun x => relocates_quantify r x q
  | .concat parts => by
      rw [ofPattern]
      exact (relocates_ofPatterns parts).bind (relocates_concatAll r)
  | .alternation [] => by
      rw [ofPattern]
      exact relocates_ofLabel r .epsilon
  | .alternation (p :: rest) => by
      rw [ofPattern]
      exact (relocates_ofPattern p).bind (relocates_unionPatterns rest)

theorem relocates_ofPatterns : (ps : List (Pattern σ)) →
    Relocates r (List.map (relocate r)) (ofPatterns ps) (ofPatterns ps)
  | [] => by
      rw [ofPatterns]
      exact relocates_pure []
  | p :: rest => by
      rw [ofPatterns]
      exact (relocates_ofPattern p).bind fun x =>
        (relocates_ofPatterns rest).bind fun xs => relocates_pure (x :: xs)

theorem relocates_unionPatterns : (ps : List (Pattern σ)) → (x : Fragment σ) →
    Relocates r (relocate r) (unionPatterns x ps) (unionPatterns (x.relocate r) ps)
  | [], x => by
      rw [unionPatterns, unionPatterns]
      exact relocates_pure x
  | p :: rest, x => by
      rw [unionPatterns, unionPatterns]
      exact (relocates_ofPattern p).bind fun y =>
        (relocates_union r x y).bind (relocates_unionPatterns rest)

end

end Patterns

/-- One fragment is the other with its states renamed, vertices and edges in the same
order. -/
structure IsImage (f : State → State) (x y : Fragment σ) : Prop where
  start_eq : y.start = f x.start
  final_eq : y.final = f x.final
  rows_eq : y.graph.rows = x.graph.rows.map fun row => (f row.1, row.2.map (Arrow.rename f))
  alphabet_eq : y.alphabet = x.alphabet

/-- Where a fragment has been moved to is the image of where else it has been moved to. -/
theorem isImage_relocate (r r' : Offset) (x : Fragment σ) :
    IsImage (fun s => s - r.state + r'.state) (x.relocate r) (x.relocate r') where
  start_eq := by simp [relocate]
  final_eq := by simp [relocate]
  rows_eq := by
    simp [relocate, Graph.rows_shift, Graph.shiftArrow, Arrow.rename, Function.comp_def]
  alphabet_eq := rfl

/-- Any session is a new one, moved, so building goes everywhere as it goes in a new
session. -/
theorem run_ofPattern_eq (p : Pattern σ) (t : Session) :
    (ofPattern p).run.run t =
      (relocated ⟨t.id, t.next⟩ (relocate ⟨t.id, t.next⟩)
          ((ofPattern p).run.run (Session.new 0)).1,
        { t with next := t.next + ((ofPattern p).run.run (Session.new 0)).2.next }) := by
  have hSession : t = (Session.new 0).relocate ⟨t.id, t.next⟩ := by
    simp [Session.relocate, Session.new, State.first]
  have hId : ((ofPattern p).run.run (Session.new 0)).2.id = 0 :=
    (makes_ofPattern p (Session.new 0)).same_session
  have hRun := relocates_ofPattern ⟨t.id, t.next⟩ p (Session.new 0)
  rw [← hSession, Session.relocate, hId, Nat.zero_add, Nat.add_comm] at hRun
  exact hRun

/-- Building fails only for what is not supported, and says so wherever it is begun. -/
theorem relocate_of_ofPattern_error {p : Pattern σ} {t : Session} {f : Fault σ}
    (h : ((ofPattern p).run.run t).1 = .error f) (r : Offset) : f.relocate r = f := by
  rcases stops_or_builds p t with ⟨feature, u, hRun, -⟩ | ⟨x, u, hYields, -⟩
  · rw [hRun] at h
    cases h
    rfl
  · rw [show (ofPattern p).run.run t = _ from hYields] at h
    cases h

/-- Two sessions treat a pattern alike. Both take as many numbers for it; either it cannot be
followed in both, for the same reason, or the two fragments are made of new numbers and are
images of each other: the one number that comes next makes all the difference. -/
theorem ofPattern_translates (p : Pattern σ) (t t' : Session) :
    ∃ n, ((ofPattern p).run.run t).2 = { t with next := t.next + n } ∧
      ((ofPattern p).run.run t').2 = { t' with next := t'.next + n } ∧
      ((∃ f, ((ofPattern p).run.run t).1 = .error f ∧ ((ofPattern p).run.run t').1 = .error f) ∨
        ∃ x y, ((ofPattern p).run.run t).1 = .ok x ∧ ((ofPattern p).run.run t').1 = .ok y ∧
          (∀ s, x.Mentions s → t.next ≤ s) ∧ IsImage (fun s => s - t.next + t'.next) x y) := by
  have hRun := run_ofPattern_eq p t
  have hRun' := run_ofPattern_eq p t'
  refine ⟨_, congrArg Prod.snd hRun, congrArg Prod.snd hRun', ?_⟩
  cases hResult : ((ofPattern p).run.run (Session.new 0)).1 with
  | error f =>
      rw [hResult, relocated, relocate_of_ofPattern_error hResult] at hRun hRun'
      exact Or.inl ⟨f, congrArg Prod.fst hRun, congrArg Prod.fst hRun'⟩
  | ok x =>
      rw [hResult] at hRun hRun'
      refine Or.inr ⟨_, _, congrArg Prod.fst hRun, congrArg Prod.fst hRun', fun s hs => ?_,
        isImage_relocate ⟨t.id, t.next⟩ ⟨t'.id, t'.next⟩ x⟩
      exact ((makes_ofPattern p t).origin _ _ s hRun hs).resolve_right id

end FiniteAutomata.Fragment
