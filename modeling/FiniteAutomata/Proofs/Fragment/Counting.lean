import FiniteAutomata.Proofs.Fragment.Fresh

/-! Building with machine counters. Work that ends while all numbers that were counted fit into
a register has gone as it goes with numbers without end: no counter ever came to the point where
the ways of counting part. -/
namespace FiniteAutomata

open Counting

section CountsAlike

variable {S ε α β : Type} {room : S → Prop}

/-- Work that uses up room and never gives it back, and that goes the same way with every exact
counter as long as it leaves room when numbers have no end. -/
structure CountsAlike (room : S → Prop) (b : Counting → ExceptT ε (StateM S) α) : Prop where
  room_of : ∀ s, room ((b unbounded).run.run s).2 → room s
  agrees : ∀ (c : Counting), @Exact c → ∀ s, room ((b unbounded).run.run s).2 →
    (b c).run.run s = (b unbounded).run.run s

/-- Work that counts nothing. -/
theorem countsAlike_of_room {b : ExceptT ε (StateM S) α}
    (h : ∀ s, room (b.run.run s).2 → room s) : CountsAlike room fun _ => b :=
  ⟨h, fun _ _ _ _ => rfl⟩

theorem countsAlike_pure (a : α) :
    CountsAlike room fun _ => (pure a : ExceptT ε (StateM S) α) :=
  countsAlike_of_room fun _ h => h

theorem countsAlike_throw (e : ε) :
    CountsAlike room fun _ => (throw e : ExceptT ε (StateM S) α) :=
  countsAlike_of_room fun _ h => h

theorem countsAlike_liftExcept (e : Except ε α) :
    CountsAlike room fun _ => (liftExcept e : ExceptT ε (StateM S) α) :=
  countsAlike_of_room fun s h => by cases e <;> exact h

/-- The later part of the work leaves room only if the earlier part did. -/
theorem CountsAlike.bind {b : Counting → ExceptT ε (StateM S) α}
    {f : Counting → α → ExceptT ε (StateM S) β} (first : CountsAlike room b)
    (rest : ∀ a, CountsAlike room fun c => f c a) : CountsAlike room fun c => b c >>= f c := by
  have hBoth : ∀ s, room (((b unbounded) >>= f unbounded).run.run s).2 →
      room ((b unbounded).run.run s).2 := by
    intro s hRoom
    rw [Outcome.run_bind] at hRoom
    generalize (b unbounded).run.run s = outcome at hRoom ⊢
    obtain ⟨_ | a, u⟩ := outcome
    · exact hRoom
    · exact (rest a).room_of u hRoom
  constructor
  · exact fun s hRoom => first.room_of s (hBoth s hRoom)
  · intro c hExact s hRoom
    have hFirst := first.agrees c hExact s (hBoth s hRoom)
    rw [Outcome.run_bind] at hRoom ⊢
    rw [Outcome.run_bind, hFirst]
    generalize (b unbounded).run.run s = outcome at hRoom ⊢
    obtain ⟨_ | a, u⟩ := outcome
    · rfl
    · exact (rest a).agrees c hExact u hRoom

theorem countsAlike_mapM {f : Counting → α → ExceptT ε (StateM S) β}
    (h : ∀ a, CountsAlike room fun c => f c a) (l : List α) :
    CountsAlike room fun c => l.mapM (f c) := by
  induction l with
  | nil => exact countsAlike_pure []
  | cons a rest ih =>
      simp only [List.mapM_cons]
      exact (h a).bind fun b => ih.bind fun others => countsAlike_pure (b :: others)

theorem countsAlike_foldlM {f : Counting → β → α → ExceptT ε (StateM S) β}
    (h : ∀ b a, CountsAlike room fun c => f c b a) (l : List α) (b : β) :
    CountsAlike room fun c => l.foldlM (f c) b := by
  induction l generalizing b with
  | nil => exact countsAlike_pure b
  | cons a rest ih =>
      simp only [List.foldlM_cons]
      exact (h b a).bind ih

/-- Handing out a number takes it. -/
theorem countsAlike_fresh :
    CountsAlike Session.HasRoom fun _ =>
      (liftM Session.fresh : ExceptT ε (StateM Session) State) := by
  constructor
  · exact fun t hRoom => Nat.le_of_succ_le hRoom
  · intro c hExact t hRoom
    have hRun : (liftM (@Session.fresh c) : ExceptT ε (StateM Session) State).run.run t =
        (.ok t.next, { t with next := c.succ t.next }) := rfl
    rw [hRun, hExact.succ_eq t.next hRoom]
    rfl

end CountsAlike

namespace Fragment

variable {σ : Type} [Symbol σ]

section Numbers

variable [Counting] [Exact]

/-- Two numbers that fit into a register are the next two. -/
theorem succ_pair {s : State} (h : s + 2 ≤ greatest) :
    Counting.succ s = s + 1 ∧ Counting.succ (s + 1) = s + 2 :=
  ⟨Exact.succ_eq s (Nat.lt_of_succ_lt h), Exact.succ_eq (s + 1) h⟩

theorem reserve_eq_of_lt {s : State} (h : s < greatest) (t : Session) :
    t.reserve s = @Session.reserve unbounded t s := by
  unfold Session.reserve
  rw [Exact.succ_eq s h]
  rfl

/-- Kept clear of numbers below the greatest, a session is where it is without end. -/
theorem reserve_foldl_eq_of_lt {l : List State} (h : ∀ s ∈ l, s < greatest) (t : Session) :
    l.foldl Session.reserve t = l.foldl (@Session.reserve unbounded) t := by
  induction l generalizing t with
  | nil => rfl
  | cons s rest ih =>
      obtain ⟨hs, hRest⟩ := List.forall_mem_cons.mp h
      rw [List.foldl_cons, List.foldl_cons, reserve_eq_of_lt hs]
      exact ih hRest _

end Numbers

section Combinators

/-- Work that takes two numbers. -/
theorem countsAlike_of_pair {b : Counting → Build σ (Fragment σ)}
    {f : Nat → State → State → Fragment σ}
    (h : ∀ (c : Counting) t, (b c).run.run t =
      (.ok (f t.id t.next (c.succ t.next)), ⟨t.id, c.succ (c.succ t.next)⟩)) :
    CountsAlike Session.HasRoom b := by
  constructor
  · intro t hRoom
    rw [h] at hRoom
    exact (Nat.le_add_right t.next 2).trans hRoom
  · intro c hExact t hRoom
    rw [h] at hRoom ⊢
    obtain ⟨hNext, hLater⟩ := succ_pair hRoom
    rw [h, hNext, hLater]
    rfl

theorem countsAlike_ofLabel (label : Label σ) :
    CountsAlike Session.HasRoom fun _ => (liftM (ofLabel label) : Build σ (Fragment σ)) :=
  countsAlike_of_pair (f := fun id s u => ofEdge id s u label) fun _ _ => rfl

theorem countsAlike_closure (x : Fragment σ) :
    CountsAlike Session.HasRoom fun _ => (liftM x.closure : Build σ (Fragment σ)) :=
  countsAlike_of_pair (f := fun _ => x.closureBetween) fun _ _ => rfl

theorem countsAlike_union (x y : Fragment σ) :
    CountsAlike Session.HasRoom fun _ => x.union y :=
  (countsAlike_liftExcept (x.merge y)).bind fun both =>
    countsAlike_of_pair (f := fun _ => both.unionBetween y) fun _ _ => rfl

section Room

variable [Counting] [Exact] {x y : Fragment σ} {t : Session}

theorem run_closure_of_room (h : t.next + 2 ≤ greatest) :
    x.closure.run t = (@closure _ _ unbounded x).run t := by
  obtain ⟨hNext, hLater⟩ := succ_pair h
  have hRun : x.closure.run t = (x.closureBetween t.next (Counting.succ t.next),
      { t with next := Counting.succ (Counting.succ t.next) }) := rfl
  rw [hRun, hNext, hLater]
  rfl

theorem run_union_of_room (h : t.next + 2 ≤ greatest) :
    (x.union y).run.run t = (@union _ _ unbounded x y).run.run t := by
  refine (countsAlike_union x y).agrees _ ‹_› t ?_
  unfold union
  cases x.merge y with
  | error f => exact (Nat.le_add_right t.next 2).trans h
  | ok both => exact h

/-- A replica takes as many numbers as the fragment mentions states, each ahead of the next
number by where its state is mentioned first. -/
theorem run_replicate_of_room (h : t.next + x.mentioned.length ≤ greatest) :
    x.replicate.run t = (@replicate _ _ unbounded x).run t := by
  have hName : ∀ s, ahead t.next (x.mentioned.idxOf s) = t.next + x.mentioned.idxOf s := fun s =>
    ahead_eq ((Nat.add_le_add_left List.idxOf_le_length t.next).trans h)
  have hRun : x.replicate.run t = (x.rename fun s => ahead t.next (x.mentioned.idxOf s),
      { t with next := ahead t.next x.mentioned.length }) := rfl
  rw [hRun, ahead_eq h, funext hName, run_replicate]

end Room

theorem countsAlike_replicate (x : Fragment σ) :
    CountsAlike Session.HasRoom fun _ => (liftM x.replicate : Build σ (Fragment σ)) := by
  have hEnd : ∀ t, ((liftM (@replicate _ _ unbounded x) : Build σ (Fragment σ)).run.run t).2 =
      { t with next := t.next + x.mentioned.length } := fun t =>
    congrArg Prod.snd (yields_replicate x t)
  constructor
  · intro t hRoom
    rw [hEnd] at hRoom
    exact (Nat.le_add_right t.next x.mentioned.length).trans hRoom
  · intro c hExact t hRoom
    rw [hEnd] at hRoom
    have hRun : (liftM (@replicate _ _ c x) : Build σ (Fragment σ)).run.run t =
        (.ok (x.replicate.run t).1, (x.replicate.run t).2) := rfl
    rw [hRun, run_replicate_of_room hRoom]
    rfl

theorem countsAlike_ofParts (graph : Graph State (Label σ)) (start final : State)
    (alphabet : SortedSet σ) :
    CountsAlike Session.HasRoom fun _ => ofParts graph start final alphabet := by
  constructor
  · intro t hRoom
    rw [@run_ofParts _ _ unbounded] at hRoom
    split at hRoom
    next => exact hRoom
    next => exact (reserve_foldl graph.vertices t).2.1.trans hRoom
  · intro c hExact t hRoom
    rw [@run_ofParts _ _ unbounded] at hRoom ⊢
    rw [run_ofParts]
    split at hRoom
    next => rfl
    next =>
      have hBelow := (reserve_foldl graph.vertices t).2.2
      rw [reserve_foldl_eq_of_lt fun s hs => (hBelow s hs).trans_le hRoom]

theorem countsAlike_concatAll (xs : List (Fragment σ)) :
    CountsAlike Session.HasRoom fun _ => concatAll xs := by
  cases xs with
  | nil => exact countsAlike_ofLabel .epsilon
  | cons x rest =>
      exact countsAlike_foldlM (f := fun _ x y => liftExcept (x.concat y))
        (fun x y => countsAlike_liftExcept (x.concat y)) rest x

theorem countsAlike_optionalCopy (x : Fragment σ) :
    CountsAlike Session.HasRoom fun _ => x.optionalCopy :=
  (countsAlike_replicate x).bind fun copy =>
    (countsAlike_ofLabel .epsilon).bind fun empty => countsAlike_union copy empty

theorem countsAlike_closedCopy (x : Fragment σ) :
    CountsAlike Session.HasRoom fun _ => x.closedCopy :=
  (countsAlike_replicate x).bind countsAlike_closure

theorem countsAlike_repeatCounted (x : Fragment σ) (least : Nat) (most : Option Nat) :
    CountsAlike Session.HasRoom fun _ => x.repeatCounted least most := by
  have hNeeded := countsAlike_mapM countsAlike_replicate (List.replicate least x)
  apply hNeeded.bind
  intro needed
  cases most with
  | none =>
      exact (countsAlike_closedCopy x).bind fun closed =>
        countsAlike_concatAll (needed ++ [closed])
  | some most =>
      exact (countsAlike_mapM countsAlike_optionalCopy (List.replicate (most - least) x)).bind
        fun further => countsAlike_concatAll (needed ++ further)

theorem countsAlike_quantify (x : Fragment σ) (q : Pattern.Quantifier) :
    CountsAlike Session.HasRoom fun _ => x.quantify q := by
  by_cases hStar : q = .zeroOrMore
  · subst hStar
    exact countsAlike_closure x
  · have hCounted : ∀ _ : Counting, x.quantify q = x.repeatCounted q.bounds.1 q.bounds.2 :=
      fun _ => quantify_eq_repeatCounted x hStar
    simp only [hCounted]
    exact countsAlike_repeatCounted x _ _

end Combinators

section Patterns

mutual

/-- A pattern is followed alike by all exact counters. -/
theorem countsAlike_ofPattern : (p : Pattern σ) →
    CountsAlike Session.HasRoom fun _ => ofPattern p
  | .empty => by
      simp only [ofPattern]
      exact countsAlike_ofLabel .epsilon
  | .literal a => by
      simp only [ofPattern]
      exact countsAlike_ofLabel (.symbol a)
  | .dot | .assertion _ | .charClass _ | .flags _ => by
      simp only [ofPattern]
      exact countsAlike_throw _
  | .group kind body => by
      simp only [ofPattern]
      cases kind.unsupported? with
      | some feature => exact countsAlike_throw _
      | none => exact countsAlike_ofPattern body
  | .repetition q _ body => by
      simp only [ofPattern]
      exact (countsAlike_ofPattern body).bind fun x => countsAlike_quantify x q
  | .concat parts => by
      simp only [ofPattern]
      exact (countsAlike_ofPatterns parts).bind countsAlike_concatAll
  | .alternation [] => by
      simp only [ofPattern]
      exact countsAlike_ofLabel .epsilon
  | .alternation (p :: rest) => by
      simp only [ofPattern]
      exact (countsAlike_ofPattern p).bind (countsAlike_unionPatterns rest)

theorem countsAlike_ofPatterns : (ps : List (Pattern σ)) →
    CountsAlike Session.HasRoom fun _ => ofPatterns ps
  | [] => by
      simp only [ofPatterns]
      exact countsAlike_pure []
  | p :: rest => by
      simp only [ofPatterns]
      exact (countsAlike_ofPattern p).bind fun x =>
        (countsAlike_ofPatterns rest).bind fun xs => countsAlike_pure (x :: xs)

theorem countsAlike_unionPatterns : (ps : List (Pattern σ)) → (x : Fragment σ) →
    CountsAlike Session.HasRoom fun _ => unionPatterns x ps
  | [], x => by
      simp only [unionPatterns]
      exact countsAlike_pure x
  | p :: rest, x => by
      simp only [unionPatterns]
      exact (countsAlike_ofPattern p).bind fun y =>
        (countsAlike_union x y).bind (countsAlike_unionPatterns rest)

end

end Patterns

end Fragment

end FiniteAutomata
