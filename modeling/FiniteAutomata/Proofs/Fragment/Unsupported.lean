import FiniteAutomata.Proofs.Fragment.Fresh

/-! Patterns that no fragment can follow. Building stops at the first thing in the
pattern that is not supported, and the numbers that were taken until then stay taken. -/
namespace FiniteAutomata

variable {σ : Type}

namespace Pattern

mutual

/-- The first thing in a pattern, from the left and from the outside, that no fragment
can follow. -/
def unsupported? : Pattern σ → Option Feature
  | .dot => some .dot
  | .assertion kind => some (.assertion kind)
  | .charClass text => some (.charClass text)
  | .flags directive => some (.flagDirective directive)
  | .group kind body => kind.unsupported?.or body.unsupported?
  | .repetition _ _ body => body.unsupported?
  | .concat parts => firstUnsupported? parts
  | .alternation branches => firstUnsupported? branches
  | .empty => none
  | .literal _ => none

/-- The first such thing in the patterns of a list. -/
def firstUnsupported? : List (Pattern σ) → Option Feature
  | [] => none
  | p :: rest => p.unsupported?.or (firstUnsupported? rest)

end

theorem GroupKind.flags_eq_nil {kind : GroupKind} (h : kind.unsupported? = none) :
    ∀ flags, kind = .plain flags → flags = [] := by
  rintro flags rfl
  cases flags with
  | nil => rfl
  | cons item items => cases h

/-- What a pattern asks for by itself, apart from what is inside it, that no fragment can
follow. A group without flags asks for nothing, nor does anything that only puts patterns
together. -/
inductive AsksFor : Pattern σ → Feature → Prop where
  | dot : AsksFor .dot .dot
  | assertion (kind : Assertion) : AsksFor (.assertion kind) (.assertion kind)
  | charClass (text : String) : AsksFor (.charClass text) (.charClass text)
  | flags (directive : FlagDirective) : AsksFor (.flags directive) (.flagDirective directive)
  | group (item : Located FlagItem) (items : List (Located FlagItem)) (body : Pattern σ) :
      AsksFor (.group (.plain (item :: items)) body) (.groupFlags (item :: items))

/-- What a pattern asks for by itself, computed. -/
def feature? : Pattern σ → Option Feature
  | .dot => some .dot
  | .assertion kind => some (.assertion kind)
  | .charClass text => some (.charClass text)
  | .flags directive => some (.flagDirective directive)
  | .group kind _ => kind.unsupported?
  | _ => none

theorem feature?_eq_some_iff {p : Pattern σ} {feature : Feature} :
    p.feature? = some feature ↔ p.AsksFor feature := by
  constructor
  · intro h
    cases p with
    | dot | assertion | charClass | flags =>
        cases h
        constructor
    | group kind body =>
        rcases kind with _ | _ | _ | ⟨item, items⟩ <;> cases h
        exact .group item items body
    | empty | literal | repetition | concat | alternation => cases h
  · rintro ⟨⟩ <;> rfl

mutual

/-- A pattern with everything inside it, from the left and each thing before what is inside
of it. -/
def parts : Pattern σ → List (Pattern σ)
  | .group kind body => .group kind body :: body.parts
  | .repetition q greedy body => .repetition q greedy body :: body.parts
  | .concat ps => .concat ps :: allParts ps
  | .alternation ps => .alternation ps :: allParts ps
  | p => [p]

/-- The parts of the patterns of a list, one pattern after another. -/
def allParts : List (Pattern σ) → List (Pattern σ)
  | [] => []
  | p :: rest => p.parts ++ allParts rest

end

mutual

theorem unsupported?_eq_findSome? : (p : Pattern σ) →
    p.unsupported? = p.parts.findSome? feature?
  | .empty | .literal _ | .dot | .assertion _ | .charClass _ | .flags _ => by
      simp [unsupported?, parts, feature?]
  | .group kind body => by
      rw [unsupported?, parts, List.findSome?_cons, unsupported?_eq_findSome? body, feature?]
      cases kind.unsupported? <;> rfl
  | .repetition q greedy body => by
      rw [unsupported?, parts, unsupported?_eq_findSome? body]
      rfl
  | .concat ps => by
      rw [unsupported?, parts, firstUnsupported?_eq_findSome? ps]
      rfl
  | .alternation ps => by
      rw [unsupported?, parts, firstUnsupported?_eq_findSome? ps]
      rfl

theorem firstUnsupported?_eq_findSome? : (ps : List (Pattern σ)) →
    firstUnsupported? ps = (allParts ps).findSome? feature?
  | [] => by
      rw [firstUnsupported?, allParts, List.findSome?_nil]
  | p :: rest => by
      rw [firstUnsupported?, allParts, List.findSome?_append, unsupported?_eq_findSome? p,
        firstUnsupported?_eq_findSome? rest]

end

theorem unsupported?_eq_none_iff {p : Pattern σ} :
    p.unsupported? = none ↔ ∀ q ∈ p.parts, ∀ feature, ¬ q.AsksFor feature := by
  rw [unsupported?_eq_findSome?, List.findSome?_eq_none_iff]
  simp only [← feature?_eq_some_iff, Option.eq_none_iff_forall_ne_some, ne_eq]

/-- Something in a pattern is the first that no fragment can follow. -/
theorem unsupported?_eq_some_iff {p : Pattern σ} {feature : Feature} :
    p.unsupported? = some feature ↔ ∃ before q after, p.parts = before ++ q :: after ∧
      q.AsksFor feature ∧ ∀ r ∈ before, ∀ other, ¬ r.AsksFor other := by
  simp only [unsupported?_eq_findSome?, List.findSome?_eq_some_iff, ← feature?_eq_some_iff,
    Option.eq_none_iff_forall_ne_some, ne_eq]

mutual

/-- A pattern is supported if nothing in it is not. -/
theorem supported_of_none : (p : Pattern σ) → p.unsupported? = none → p.Supported
  | .empty, _ => .empty
  | .literal a, _ => .literal a
  | .group kind body, h => by
      rw [unsupported?, Option.or_eq_none_iff] at h
      exact .group (GroupKind.flags_eq_nil h.1) (supported_of_none body h.2)
  | .repetition q greedy body, h => by
      rw [unsupported?] at h
      exact .repetition q greedy (supported_of_none body h)
  | .concat parts, h => by
      rw [unsupported?] at h
      exact .concat (supported_of_first_none parts h)
  | .alternation branches, h => by
      rw [unsupported?] at h
      exact .alternation (supported_of_first_none branches h)
  | .dot, h | .assertion _, h | .charClass _, h | .flags _, h => by
      rw [unsupported?] at h
      cases h

theorem supported_of_first_none : (ps : List (Pattern σ)) → firstUnsupported? ps = none →
    ∀ p ∈ ps, p.Supported
  | [], _ => fun _ hp => nomatch hp
  | p :: rest, h => by
      rw [firstUnsupported?, Option.or_eq_none_iff] at h
      exact List.forall_mem_cons.mpr
        ⟨supported_of_none p h.1, supported_of_first_none rest h.2⟩

end

end Pattern

namespace Fragment

section Stops

variable {α β : Type}

/-- Started in the session `t`, the work fails for want of `feature`. The session stays
the same, and no number is taken back. -/
def Stops (b : Build σ α) (t : Session) (feature : Pattern.Feature) : Prop :=
  ∃ u, b.run.run t = (.error (.unsupported feature), u) ∧ u.id = t.id ∧ t.next ≤ u.next

theorem stops_throw (t : Session) (feature : Pattern.Feature) :
    Stops (throw (.unsupported feature) : Build σ α) t feature :=
  ⟨t, rfl, rfl, Nat.le_refl _⟩

variable {b : Build σ α} {f : α → Build σ β} {t u : Session} {feature : Pattern.Feature}

theorem Stops.bind (h : Stops b t feature) (f : α → Build σ β) : Stops (b >>= f) t feature := by
  obtain ⟨u, hRun, hId, hNext⟩ := h
  refine ⟨u, ?_, hId, hNext⟩
  rw [ExceptT.run_bind, StateT.run_bind, hRun]
  rfl

theorem Stops.after {a : α} (first : Yields b t a u) (hId : u.id = t.id)
    (hNext : t.next ≤ u.next) (rest : Stops (f a) u feature) : Stops (b >>= f) t feature := by
  obtain ⟨v, hRun, hId', hNext'⟩ := rest
  refine ⟨v, ?_, hId'.trans hId, hNext.trans hNext'⟩
  rw [ExceptT.run_bind, StateT.run_bind, show b.run.run t = _ from first]
  exact hRun

end Stops

variable [Symbol σ]

theorem Built.belongs {l : Language σ} {t u : Session} {x : Fragment σ} (built : Built l t x u) :
    x.Belongs u where
  session_eq := built.session_eq.trans built.same_session.symm
  rooted := built.recognizes.wellFormed.rooted
  below s hs := (built.between s (built.recognizes.wellFormed.mentions_iff.mp hs)).2

/-- What is supported is built, and the work goes on with the next pattern. -/
theorem stops_bind_ofPattern {α : Type} {p : Pattern σ} {f : Fragment σ → Build σ α}
    {next : Option Pattern.Feature} {t : Session} {feature : Pattern.Feature}
    (h : p.unsupported?.or next = some feature)
    (hFirst : p.unsupported? = some feature → Stops (ofPattern p) t feature)
    (hNext : next = some feature → ∀ x u, Built p.language t x u → Stops (f x) u feature) :
    Stops (ofPattern p >>= f) t feature := by
  cases hHead : p.unsupported? with
  | some other =>
      rw [hHead, Option.some_or] at h
      exact (hFirst (hHead.trans h)).bind f
  | none =>
      rw [hHead, Option.none_or] at h
      obtain ⟨x, u, hYields, built⟩ :=
        builds_ofPattern (Pattern.supported_of_none p hHead) t.id t rfl
      exact (hNext h x u built).after hYields built.same_session built.next_le

mutual

/-- Building stops at the first thing that is not supported. -/
theorem stops_ofPattern {feature : Pattern.Feature} : (p : Pattern σ) →
    p.unsupported? = some feature → ∀ t, Stops (ofPattern p) t feature
  | .empty, h | .literal _, h => by
      rw [Pattern.unsupported?] at h
      cases h
  | .dot, h | .assertion _, h | .charClass _, h | .flags _, h => by
      rw [Pattern.unsupported?] at h
      cases h
      rw [ofPattern]
      exact fun t => stops_throw t _
  | .group kind body, h => by
      rw [Pattern.unsupported?] at h
      rw [ofPattern]
      cases hKind : kind.unsupported? with
      | some other =>
          rw [hKind, Option.some_or] at h
          cases h
          exact fun t => stops_throw t feature
      | none =>
          rw [hKind, Option.none_or] at h
          exact stops_ofPattern body h
  | .repetition q greedy body, h => by
      rw [Pattern.unsupported?] at h
      rw [ofPattern]
      exact fun t => (stops_ofPattern body h t).bind _
  | .concat parts, h => by
      rw [Pattern.unsupported?] at h
      rw [ofPattern]
      exact fun t => (stops_ofPatterns parts h t).bind _
  | .alternation [], h => by
      rw [Pattern.unsupported?, Pattern.firstUnsupported?] at h
      cases h
  | .alternation (p :: rest), h => by
      rw [Pattern.unsupported?, Pattern.firstUnsupported?] at h
      rw [ofPattern]
      exact fun t => stops_bind_ofPattern h (fun hp => stops_ofPattern p hp t)
        fun hRest x u built => stops_unionPatterns rest hRest _ t x u built

theorem stops_ofPatterns {feature : Pattern.Feature} : (ps : List (Pattern σ)) →
    Pattern.firstUnsupported? ps = some feature → ∀ t, Stops (ofPatterns ps) t feature
  | [], h => nomatch h
  | p :: rest, h => by
      rw [Pattern.firstUnsupported?] at h
      rw [ofPatterns]
      exact fun t => stops_bind_ofPattern h (fun hp => stops_ofPattern p hp t)
        fun hRest x u _ => (stops_ofPatterns rest hRest u).bind _

theorem stops_unionPatterns {feature : Pattern.Feature} : (ps : List (Pattern σ)) →
    Pattern.firstUnsupported? ps = some feature → ∀ l t x u, Built l t x u →
    Stops (unionPatterns x ps) u feature
  | [], h => nomatch h
  | p :: rest, h => by
      rw [Pattern.firstUnsupported?] at h
      intro l t x u built
      rw [unionPatterns]
      refine stops_bind_ofPattern h (fun hp => stops_ofPattern p hp u) fun hRest y v branch => ?_
      obtain ⟨z, w, hUnion, both⟩ := built.union branch
      have hx := built.belongs.mono branch.same_session branch.next_le
      obtain ⟨hId, hNext⟩ := (makes_union hx branch.belongs).grows hUnion
      exact (stops_unionPatterns rest hRest _ t z w both).after hUnion hId hNext

end

/-- Following a pattern stops for want of something, or it comes to the end. -/
theorem stops_or_builds (p : Pattern σ) (t : Session) :
    (∃ feature, Stops (ofPattern p) t feature) ∨
      ∃ x u, Yields (ofPattern p) t x u ∧ Built p.language t x u := by
  cases h : p.unsupported? with
  | some feature => exact Or.inl ⟨feature, stops_ofPattern p h t⟩
  | none => exact Or.inr (builds_ofPattern (Pattern.supported_of_none p h) t.id t rfl)

/-- Whatever a pattern says, following it takes new numbers only. -/
theorem makes_ofPattern (p : Pattern σ) (t : Session) :
    Makes (ofPattern p) t fun _ => False := by
  rcases stops_or_builds p t with ⟨feature, u, hRun, hId, hNext⟩ | ⟨x, u, hYields, built⟩
  · exact makes_of_error hRun hId hNext
  · refine makes_of_yields hYields built.same_session built.next_le built.session_eq
      built.belongs.rooted fun s hs => ⟨built.belongs.below s hs, Or.inl ?_⟩
    exact (built.between s (built.recognizes.wellFormed.mentions_iff.mp hs)).1

/-- Following a pattern fails exactly if something in it cannot be followed, however deep it
is and however often it may be repeated. The failure then names the first such thing; no
concatenation and no union that is made on the way is refused. -/
theorem ofPattern_fails_iff (p : Pattern σ) (t : Session) :
    ((∃ f u, (ofPattern p).run.run t = (.error f, u)) ↔
      ∃ q ∈ p.parts, ∃ feature, q.AsksFor feature) ∧
    ∀ f u, (ofPattern p).run.run t = (.error f, u) → f.category = .feature ∧
      ∃ before q after feature, p.parts = before ++ q :: after ∧ q.AsksFor feature ∧
        (∀ r ∈ before, ∀ other, ¬ r.AsksFor other) ∧ f = .unsupported feature := by
  cases h : p.unsupported? with
  | some feature =>
      obtain ⟨u, hRun, -⟩ := stops_ofPattern p h t
      obtain ⟨before, q, after, hParts, hAsks, hBefore⟩ := Pattern.unsupported?_eq_some_iff.mp h
      have hMem : q ∈ p.parts := by simp [hParts]
      refine ⟨⟨fun _ => ⟨q, hMem, feature, hAsks⟩, fun _ => ⟨_, u, hRun⟩⟩, fun f v hFails => ?_⟩
      cases hRun.symm.trans hFails
      exact ⟨rfl, before, q, after, feature, hParts, hAsks, hBefore, rfl⟩
  | none =>
      have hNone := Pattern.unsupported?_eq_none_iff.mp h
      obtain ⟨x, u, hYields, -⟩ := builds_ofPattern (Pattern.supported_of_none p h) t.id t rfl
      have hNever : ∀ f v, (ofPattern p).run.run t ≠ (.error f, v) := fun f v hFails =>
        nomatch congrArg Prod.fst (hYields.symm.trans hFails)
      refine ⟨⟨fun ⟨f, v, hFails⟩ => (hNever f v hFails).elim, ?_⟩, ?_⟩
      · exact fun ⟨q, hMem, feature, hAsks⟩ => (hNone q hMem feature hAsks).elim
      · exact fun f v hFails => (hNever f v hFails).elim

/-- What is repeated zero times must be supported, too, and the first fault counts. -/
example : ((ofPattern (.concat [.literal 'a', .repetition (.exactly 0) true .dot,
    .charClass "[b]"])).run.run ⟨0, 0⟩).1 = .error (.unsupported .dot) := by rfl

end Fragment

end FiniteAutomata
