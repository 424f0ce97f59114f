import FiniteAutomata.Proofs.Fragment.Count
import FiniteAutomata.Proofs.Fragment.Unsupported
import FiniteAutomata.Proofs.Pattern.Size

/-! What is built for a pattern has exactly the size that the pattern says: no vertex and no
edge is lost or made twice, however deep concatenations, unions and copies are nested. Numbers
are counted where they are handed out, so the states that a concatenation drops and the operand
of a counted repetition keep theirs. -/
namespace FiniteAutomata.Fragment

open Pattern (Size)

variable {σ : Type} [Symbol σ]

/-- The fragment was built between two moments of a session and has a given size. -/
structure Sized (s : Size) (t : Session) (x : Fragment σ) (u : Session) : Prop where
  built : ∃ l, Built l t x u
  size_eq : x.graph.size = s.vertices
  edgeCount_eq : x.graph.edgeCount = s.edges
  next_eq : u.next = t.next + s.numbers

/-- The fragments were built one after another and have given sizes. -/
structure SizedAll (ss : List Size) (t : Session) (xs : List (Fragment σ)) (u : Session) :
    Prop where
  built : ∃ ls, BuiltAll ls t xs u
  sizes_eq : (xs.map fun x => x.graph.size) = ss.map Size.vertices
  edgeCounts_eq : (xs.map fun x => x.graph.edgeCount) = ss.map Size.edges
  next_eq : u.next = t.next + (ss.map Size.numbers).sum

/-- The work always yields a fragment of a given size. -/
def BuildsSized (id : Nat) (b : Build σ (Fragment σ)) (s : Size) : Prop :=
  ∀ t : Session, t.id = id → ∃ x u, Yields b t x u ∧ Sized s t x u

variable {a s : Size} {ss : List Size} {t u v w : Session} {x y : Fragment σ}
  {xs ys : List (Fragment σ)}

/-- What the work yields is what it is known to build. -/
theorem Yields.built {b : Build σ (Fragment σ)} {l : Language σ} (h : Yields b u x v)
    (hSome : ∃ y w, Yields b u y w ∧ Built l t y w) : Built l t x v := by
  obtain ⟨y, w, hYields, built⟩ := hSome
  obtain ⟨rfl, rfl⟩ := h.unique hYields
  exact built

section Parts

theorem Sized.same_session (h : Sized s t x u) : u.id = t.id := by
  obtain ⟨l, built⟩ := h.built
  exact built.same_session

theorem Sized.id_eq (h : Sized s t x u) : u.id = x.session := by
  obtain ⟨l, built⟩ := h.built
  exact built.same_session.trans built.session_eq.symm

theorem buildsSized_ofLabel (id : Nat) (label : Label σ) :
    BuildsSized id (liftM (ofLabel label) : Build σ (Fragment σ)) .edge := by
  intro t ht
  have hYields : Yields (liftM (ofLabel label) : Build σ (Fragment σ)) t
    (ofEdge t.id t.next (t.next + 1) label) { t with next := t.next + 1 + 1 } := yields_lift _ t
  have built := hYields.built (builds_ofLabel id label t ht)
  exact ⟨_, _, hYields, ⟨_, built⟩, size_ofEdge t.id built.recognizes.start_ne_final label,
    edgeCount_ofEdge .., rfl⟩

theorem Sized.closure (h : Sized s t x u) :
    ∃ y v, Yields (liftM x.closure : Build σ (Fragment σ)) u y v ∧ Sized s.starred t y v := by
  obtain ⟨l, built⟩ := h.built
  have hYields : Yields (liftM x.closure : Build σ (Fragment σ)) u
    (x.closureBetween u.next (u.next + 1)) { u with next := u.next + 1 + 1 } := yields_lift _ u
  have builtLater := hYields.built built.closure
  have hNew := built.belongs.not_mem_pair
  refine ⟨_, _, hYields, ⟨_, builtLater⟩, ?_, ?_, ?_⟩
  · rw [size_closureBetween built.recognizes.wellFormed hNew.1 hNew.2
      builtLater.recognizes.start_ne_final, h.size_eq]
    rfl
  · rw [edgeCount_closureBetween, h.edgeCount_eq]
    rfl
  · simp [h.next_eq, Size.starred, Nat.add_assoc]

theorem Sized.union (left : Sized a t x u) (right : Sized s u y v) :
    ∃ z w, Yields (x.union y) v z w ∧ Sized (.asChoice [a, s]) t z w := by
  obtain ⟨l, builtLeft⟩ := left.built
  obtain ⟨m, builtRight⟩ := right.built
  have hApart := builtLeft.apart builtRight
  have hYields := yields_union (builtLeft.same_session_eq builtRight) hApart v
  have built := hYields.built (builtLeft.union builtRight)
  have hLeft := (builtLeft.belongs.mono builtRight.same_session builtRight.next_le).not_mem_pair
  have hRight := builtRight.belongs.not_mem_pair
  refine ⟨_, _, hYields, ⟨_, built⟩, ?_, ?_, ?_⟩
  · rw [size_unionBetween builtLeft.recognizes.wellFormed builtRight.recognizes.wellFormed hApart
      ⟨hLeft.1, hRight.1⟩ ⟨hLeft.2, hRight.2⟩ built.recognizes.start_ne_final, left.size_eq,
      right.size_eq]
    rfl
  · rw [edgeCount_unionBetween hApart, left.edgeCount_eq, right.edgeCount_eq]
    rfl
  · simp [left.next_eq, right.next_eq, Size.asChoice, Nat.add_assoc]

/-- A replica takes a number for each vertex. -/
theorem buildsSized_replicate (h : Sized s t x u) :
    BuildsSized x.session (liftM x.replicate : Build σ (Fragment σ)) s.copy := by
  intro v hv
  obtain ⟨l, built⟩ := h.built
  have wf := built.recognizes.wellFormed
  have hYields : Yields (liftM x.replicate : Build σ (Fragment σ)) v
    (x.rename fun p => v.next + x.mentioned.idxOf p)
    { v with next := v.next + x.mentioned.length } := yields_replicate x v
  refine ⟨_, _, hYields, ⟨_, hYields.built (builds_replicate built.recognizes v hv)⟩, ?_, ?_, ?_⟩
  · rw [size_rename wf (replica_injective wf v.next), h.size_eq]
    rfl
  · rw [edgeCount_rename, h.edgeCount_eq]
    rfl
  · rw [wf.length_mentioned, h.size_eq]
    rfl

theorem buildsSized_closedCopy (h : Sized s t x u) :
    BuildsSized x.session x.closedCopy s.closedCopy := by
  intro v hv
  obtain ⟨copy, w, hCopy, sizedCopy⟩ := buildsSized_replicate h v hv
  obtain ⟨z, w', hClosure, sized⟩ := sizedCopy.closure
  exact ⟨z, w', hCopy.bind hClosure, sized⟩

theorem buildsSized_optionalCopy (h : Sized s t x u) :
    BuildsSized x.session x.optionalCopy s.optionalCopy := by
  intro v hv
  obtain ⟨copy, w, hCopy, sizedCopy⟩ := buildsSized_replicate h v hv
  obtain ⟨e, w', hEmpty, sizedEmpty⟩ :=
    buildsSized_ofLabel x.session (.epsilon : Label σ) w (sizedCopy.same_session.trans hv)
  obtain ⟨z, z', hUnion, sized⟩ := sizedCopy.union sizedEmpty
  exact ⟨z, z', hCopy.bind (hEmpty.bind hUnion), sized⟩

end Parts

section Lists

theorem SizedAll.same_session (all : SizedAll ss t xs u) : u.id = t.id := by
  obtain ⟨ls, built⟩ := all.built
  exact built.same_session

theorem SizedAll.nil (t : Session) : SizedAll [] t ([] : List (Fragment σ)) t :=
  ⟨⟨[], .nil t⟩, rfl, rfl, rfl⟩

theorem SizedAll.cons (first : Sized s t x u) (later : SizedAll ss u xs v) :
    SizedAll (s :: ss) t (x :: xs) v := by
  obtain ⟨l, built⟩ := first.built
  obtain ⟨ls, all⟩ := later.built
  refine ⟨⟨l :: ls, .cons built all⟩, ?_, ?_, ?_⟩
  · simp [first.size_eq, later.sizes_eq]
  · simp [first.edgeCount_eq, later.edgeCounts_eq]
  · simp [first.next_eq, later.next_eq, Nat.add_assoc]

theorem SizedAll.append {rs : List Size} (left : SizedAll ss t xs u)
    (right : SizedAll rs u ys v) : SizedAll (ss ++ rs) t (xs ++ ys) v := by
  obtain ⟨ls, front⟩ := left.built
  obtain ⟨ms, back⟩ := right.built
  refine ⟨⟨ls ++ ms, front.append back⟩, ?_, ?_, ?_⟩
  · simp [left.sizes_eq, right.sizes_eq]
  · simp [left.edgeCounts_eq, right.edgeCounts_eq]
  · simp [left.next_eq, right.next_eq, Nat.add_assoc]

/-- The concatenation of fragments built one after another takes numbers only if there are no
fragments. -/
theorem SizedAll.concatAll (all : SizedAll ss t xs u) :
    ∃ z v, Yields (concatAll xs) u z v ∧ Sized (.inSeries ss) t z v := by
  obtain ⟨ls, builtAll⟩ := all.built
  have hSizes := all.sizes_eq
  have hSum := congrArg List.sum hSizes
  have hEdges := congrArg List.sum all.edgeCounts_eq
  cases builtAll with
  | nil =>
      obtain rfl : ss = [] := by simpa using hSizes.symm
      exact buildsSized_ofLabel t.id .epsilon t rfl
  | @cons _ _ _ _ _ _ rest first later =>
      cases ss with
      | nil => cases hSizes
      | cons s others =>
          have hLength : rest.length = others.length := by
            simpa using congrArg List.length hSizes
          have hRow := first.size_foldl later
          have hRowEdges := first.edgeCount_foldl later
          simp only [List.map_cons, List.sum_cons] at hSum hEdges
          refine ⟨_, u, ?_, ⟨_, first.foldl later⟩, ?_, ?_, all.next_eq⟩
          · rw [first.concatAll_eq later]
            exact yields_pure _ u
          · simp only [Size.inSeries, List.map_cons, List.sum_cons, List.length_cons]
            omega
          · rw [hRowEdges, hEdges]
            rfl

/-- Work done for each item of a list yields fragments of the given sizes. -/
theorem exists_sizedAll_mapM {α : Type} {id : Nat} {f : α → Build σ (Fragment σ)} {g : α → Size}
    {items : List α} (h : ∀ a ∈ items, BuildsSized id (f a) (g a)) (t : Session) (ht : t.id = id) :
    ∃ xs u, Yields (items.mapM f) t xs u ∧ SizedAll (items.map g) t xs u :=
  exists_yields_mapM (Q := fun items => SizedAll (items.map g))
    (fun sized => sized.same_session) .nil .cons h t ht

/-- Copies made one after another. -/
theorem exists_sizedCopies {id : Nat} {f : Fragment σ → Build σ (Fragment σ)}
    (h : BuildsSized id (f x) s) (n : Nat) (t : Session) (ht : t.id = id) :
    ∃ xs u, Yields ((List.replicate n x).mapM f) t xs u ∧
      SizedAll (List.replicate n s) t xs u := by
  have hAll : ∀ y ∈ List.replicate n x, BuildsSized id (f y) s :=
    List.forall_mem_replicate.mpr (Or.inr h)
  obtain ⟨xs, u, hYields, all⟩ := exists_sizedAll_mapM hAll t ht
  rw [List.map_replicate] at all
  exact ⟨xs, u, hYields, all⟩

end Lists

section Repetition

/-- What follows the copies that a counted repetition needs. -/
def furtherCopies (s : Size) (least : Nat) : Option Nat → List Size
  | none => [s.closedCopy]
  | some most => List.replicate (most - least) s.optionalCopy

theorem buildsSized_repeatCounted (h : Sized s t x u) (least : Nat) (most : Option Nat) :
    BuildsSized x.session (x.repeatCounted least most)
      (.inSeries (List.replicate least s.copy ++ furtherCopies s least most)) := by
  intro v hv
  obtain ⟨needed, w, hNeeded, sizedNeeded⟩ :=
    exists_sizedCopies (f := fun x => liftM x.replicate) (buildsSized_replicate h) least v hv
  have hw : w.id = x.session := sizedNeeded.same_session.trans hv
  cases most with
  | none =>
      obtain ⟨closed, w', hClosed, sizedClosed⟩ := buildsSized_closedCopy h w hw
      obtain ⟨z, z', hConcat, sized⟩ :=
        (sizedNeeded.append (.cons sizedClosed (.nil w'))).concatAll
      rw [repeatCounted_none]
      exact ⟨z, z', hNeeded.bind (hClosed.bind hConcat), sized⟩
  | some most =>
      obtain ⟨optional, w', hOptional, sizedOptional⟩ :=
        exists_sizedCopies (buildsSized_optionalCopy h) (most - least) w hw
      obtain ⟨z, z', hConcat, sized⟩ := (sizedNeeded.append sizedOptional).concatAll
      rw [repeatCounted_some]
      exact ⟨z, z', hNeeded.bind (hOptional.bind hConcat), sized⟩

/-- The bounds of an operator say which copies it asks for. -/
theorem repeated_eq_inCopies (s : Size) {q : Pattern.Quantifier} (h : q ≠ .zeroOrMore) :
    s.repeated q =
      s.inCopies (List.replicate q.bounds.1 s.copy ++ furtherCopies s q.bounds.1 q.bounds.2) := by
  cases q with
  | zeroOrMore => exact False.elim (h rfl)
  | zeroOrOne | oneOrMore | atLeast | bounded => rfl
  | exactly n => simp [Size.repeated, Pattern.Quantifier.bounds, furtherCopies]

theorem Sized.quantify (h : Sized s t x u) (q : Pattern.Quantifier) :
    ∃ z v, Yields (x.quantify q) u z v ∧ Sized (s.repeated q) t z v := by
  by_cases hStar : q = .zeroOrMore
  · subst hStar
    exact h.closure
  · obtain ⟨z, v, hYields, later⟩ :=
      buildsSized_repeatCounted h q.bounds.1 q.bounds.2 u h.id_eq
    obtain ⟨l, built⟩ := h.built
    obtain ⟨m, builtLater⟩ := later.built
    rw [quantify_eq_repeatCounted x hStar, repeated_eq_inCopies s hStar]
    refine ⟨z, v, hYields, ⟨m, builtLater.mono built.same_session built.next_le⟩, later.size_eq,
      later.edgeCount_eq, ?_⟩
    rw [later.next_eq, h.next_eq, Nat.add_assoc]
    rfl

end Repetition

section Patterns

/-- The union of a fragment with fragments for the patterns of a list. -/
theorem Sized.unionPatterns {branches : List (Pattern σ)} (h : Sized s t x u)
    (hAll : ∀ p ∈ branches, ∀ id, BuildsSized id (ofPattern p) p.size) :
    ∃ z v, Yields (unionPatterns x branches) u z v ∧
      Sized (.asChoice (s :: Pattern.sizes branches)) t z v := by
  induction branches generalizing s x u with
  | nil =>
      rw [Fragment.unionPatterns, Pattern.sizes, Size.asChoice_singleton]
      exact ⟨x, u, yields_pure x u, h⟩
  | cons p rest ih =>
      obtain ⟨y, v, hBranch, branch⟩ := hAll p List.mem_cons_self u.id u rfl
      obtain ⟨z, w, hUnion, both⟩ := h.union branch
      obtain ⟨z', w', hRest, sized⟩ := ih both fun q hq => hAll q (List.mem_cons_of_mem _ hq)
      rw [Size.asChoice_cons_cons] at sized
      rw [Fragment.unionPatterns, Pattern.sizes]
      exact ⟨z', w', hBranch.bind (hUnion.bind hRest), sized⟩

theorem buildsSized_ofPattern {p : Pattern σ} (hp : p.Supported) (id : Nat) :
    BuildsSized id (ofPattern p) p.size := by
  induction hp generalizing id with
  | empty =>
      rw [ofPattern, Pattern.size]
      exact buildsSized_ofLabel id .epsilon
  | literal a =>
      rw [ofPattern, Pattern.size]
      exact buildsSized_ofLabel id (.symbol a)
  | group noFlags _ ih =>
      rw [ofPattern, Pattern.size, Pattern.GroupKind.unsupported?_eq_none noFlags]
      exact ih id
  | repetition q greedy _ ih =>
      intro t ht
      obtain ⟨x, u, hBody, sized⟩ := ih id t ht
      obtain ⟨z, v, hRepeat, sizedAll⟩ := sized.quantify q
      rw [ofPattern, Pattern.size]
      exact ⟨z, v, hBody.bind hRepeat, sizedAll⟩
  | concat _ ih =>
      intro t ht
      obtain ⟨xs, u, hParts, all⟩ := exists_sizedAll_mapM (fun p hp => ih p hp id) t ht
      obtain ⟨z, v, hConcat, sized⟩ := all.concatAll
      rw [ofPattern, ofPatterns_eq_mapM, Pattern.size, Pattern.sizes_eq_map]
      exact ⟨z, v, hParts.bind hConcat, sized⟩
  | @alternation branches _ ih =>
      cases branches with
      | nil =>
          rw [ofPattern, Pattern.size]
          exact buildsSized_ofLabel id .epsilon
      | cons p rest =>
          intro t ht
          obtain ⟨x, u, hFirst, sized⟩ := ih p List.mem_cons_self id t ht
          obtain ⟨z, v, hUnion, sizedAll⟩ :=
            sized.unionPatterns fun q hq => ih q (List.mem_cons_of_mem _ hq)
          rw [ofPattern, Pattern.size]
          exact ⟨z, v, hFirst.bind hUnion, sizedAll⟩

/-- A supported pattern says how large its fragment is: building it succeeds in every session,
with exactly as many vertices and edges as the pattern comes to, parallel edges counted one by
one, and with as many numbers taken. -/
theorem ofPattern_size {p : Pattern σ} (hp : p.Supported) (t : Session) :
    ∃ x u, (ofPattern p).run.run t = (.ok x, u) ∧ x.graph.size = p.size.vertices ∧
      x.graph.edgeCount = p.size.edges ∧ u.next = t.next + p.size.numbers := by
  obtain ⟨x, u, hYields, sized⟩ := buildsSized_ofPattern hp t.id t rfl
  exact ⟨x, u, hYields, sized.size_eq, sized.edgeCount_eq, sized.next_eq⟩

/-- For `(a|b){1,2}` six states and six edges are copied twice, once with a way around: fifteen
vertices and seventeen edges. Twenty-two numbers are taken. -/
theorem ofPattern_size_choice_twice :
    ∃ x u, (ofPattern (.repetition (.bounded 1 2) true
        (.group .indexed (.alternation [.literal 'a', .literal 'b'])))).run.run
          (Session.new 0) = (.ok x, u) ∧
      x.graph.size = 15 ∧ x.graph.edgeCount = 17 ∧ u.next = 22 := by
  have hSupported : (Pattern.repetition (.bounded 1 2) true
      (.group .indexed (.alternation [.literal 'a', .literal 'b']))).Supported :=
    Pattern.supported_of_none _ rfl
  exact ofPattern_size hSupported (Session.new 0)

end Patterns

end FiniteAutomata.Fragment
