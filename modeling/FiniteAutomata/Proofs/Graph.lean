import FiniteAutomata.Graph
import FiniteAutomata.Ordered.Set

/-! Graphs as relations. A graph is described by its vertices and by the triples
of source, weight and target that it joins; the lemmas say what each operation
does to both, whatever order and multiplicity the edges have. -/
namespace FiniteAutomata.Graph

variable {V W : Type} [Ord V] [DecidableEq V]

/-- An edge with weight `w` leads from `s` to `t`. -/
def Joins (g : Graph V W) (s : V) (w : W) (t : V) : Prop := ⟨t, w⟩ ∈ g.arrows s

theorem arrows_eq_of_arrows? {g : Graph V W} {v : V} {l : List (Arrow V W)}
    (h : g.arrows? v = some l) : g.arrows v = l := by
  rw [arrows, h, Option.getD_some]

theorem arrows?_of_mem {g : Graph V W} {v : V} (h : v ∈ g) : g.arrows? v = some (g.arrows v) := by
  obtain ⟨l, hl⟩ := Option.isSome_iff_exists.mp (mem_iff.mp h)
  rw [hl, arrows_eq_of_arrows? hl]

theorem arrows?_of_not_mem {g : Graph V W} {v : V} (h : v ∉ g) : g.arrows? v = none :=
  Option.not_isSome_iff_eq_none.mp (fun hSome => h (mem_iff.mpr hSome))

theorem mem_of_arrows? {g : Graph V W} {v : V} {l : List (Arrow V W)}
    (h : g.arrows? v = some l) : v ∈ g := by
  rw [mem_iff, h, Option.isSome_some]

theorem joins_of_arrows? {g : Graph V W} {v : V} {l : List (Arrow V W)} {a : Arrow V W}
    (h : g.arrows? v = some l) (ha : a ∈ l) : g.Joins v a.weight a.target := by
  rw [Joins, arrows_eq_of_arrows? h]
  exact ha

theorem mem_of_joins {g : Graph V W} {s t : V} {w : W} (h : g.Joins s w t) : s ∈ g := by
  apply Decidable.byContradiction
  intro hNone
  rw [Joins, arrows, arrows?_of_not_mem hNone] at h
  cases h

theorem arrows_eq_nil {g : Graph V W} {v : V} (h : v ∉ g) : g.arrows v = [] := by
  rw [arrows, arrows?_of_not_mem h, Option.getD_none]

theorem not_mem_empty (v : V) : v ∉ (empty : Graph V W) := fun h => by
  cases h

theorem not_joins_empty (s t : V) (w : W) : ¬ (empty : Graph V W).Joins s w t := List.not_mem_nil

theorem mem_remove {g : Graph V W} {v s : V} : s ∈ g.remove v ↔ s ≠ v ∧ s ∈ g :=
  Multigraph.mem_remove

theorem arrows_remove (g : Graph V W) (v u : V) :
    (g.remove v).arrows u = if u = v then [] else g.arrows u := by
  rw [arrows, arrows?_remove]
  split <;> rfl

theorem joins_remove {g : Graph V W} {v s t : V} {w : W} :
    (g.remove v).Joins s w t ↔ s ≠ v ∧ g.Joins s w t := by
  rw [Joins, Joins, arrows_remove]
  split
  next h => simp [h]
  next h => simp [h]

variable [Std.TransOrd V]

/-- A graph is known from its vertices and from the edges of each place. -/
theorem ext_arrows {g h : Graph V W} (hMem : ∀ v, v ∈ g ↔ v ∈ h)
    (hArrows : ∀ v, g.arrows v = h.arrows v) : g = h := by
  apply ext
  intro v
  by_cases hv : v ∈ g
  · rw [arrows?_of_mem hv, arrows?_of_mem ((hMem v).mp hv), hArrows]
  · rw [arrows?_of_not_mem hv, arrows?_of_not_mem (mt (hMem v).mpr hv)]

omit [DecidableEq V] [Std.TransOrd V] in
/-- The vertices as a set. -/
def vertexSet (g : Graph V W) : SortedSet V :=
  ⟨g.vertices, List.pairwise_map.mpr g.adjacency.sorted⟩

omit [DecidableEq V] in
theorem nodup_vertices (g : Graph V W) : g.vertices.Nodup := g.vertexSet.nodup

omit [DecidableEq V] in
theorem nodup_rows (g : Graph V W) : g.rows.Nodup := by
  have hVertices : (g.rows.map Prod.fst).Nodup := g.vertices_eq ▸ g.nodup_vertices
  exact (List.pairwise_map.mp hVertices).imp fun hNe hEq => hNe (congrArg Prod.fst hEq)

/-- The vertices are known from their order and from what they are. -/
theorem vertices_eq_of_ascending {g : Graph V W} {l : List V}
    (hSorted : l.Pairwise fun a b => compare a b = .lt) (hMem : ∀ v, v ∈ g ↔ v ∈ l) :
    g.vertices = l := by
  have hEq : g.vertexSet = ⟨l, hSorted⟩ := SortedSet.ext fun v => mem_vertices.trans (hMem v)
  exact congrArg SortedSet.toList hEq

/-- A renaming that keeps the vertices apart keeps their rows apart. -/
theorem filter_rows_eq_singleton {U : Type} [DecidableEq U] {f : V → U} {g : Graph V W}
    (hInj : ∀ s ∈ g, ∀ t ∈ g, f s = f t → s = t) {v : V} (hv : v ∈ g) :
    (g.rows.filter fun row => f row.1 = f v) = [(v, g.arrows v)] := by
  obtain ⟨before, after, hRows⟩ := List.append_of_mem (mem_rows_iff.mpr (arrows?_of_mem hv))
  have hNodup : ((v, g.arrows v) :: (before ++ after)).Nodup := by
    rw [← List.perm_middle.nodup_iff, ← hRows]
    exact g.nodup_rows
  have hOther : ∀ row ∈ before ++ after, ¬ f row.1 = f v := by
    intro ⟨s, arrows⟩ hRow hName
    have hMem : (s, arrows) ∈ g.rows :=
      hRows ▸ List.perm_middle.mem_iff.mpr (List.mem_cons_of_mem _ hRow)
    have hArrows := mem_rows_iff.mp hMem
    -- A row with this name is the row of `v`, and no row occurs twice.
    obtain rfl := hInj s (mem_of_arrows? hArrows) v hv hName
    obtain rfl := arrows_eq_of_arrows? hArrows
    exact (List.nodup_cons.mp hNodup).1 hRow
  have hBefore : (before.filter fun row => f row.1 = f v) = [] := by
    simp only [List.filter_eq_nil_iff, decide_eq_true_iff]
    exact fun row hRow => hOther row (List.mem_append_left after hRow)
  have hAfter : (after.filter fun row => f row.1 = f v) = [] := by
    simp only [List.filter_eq_nil_iff, decide_eq_true_iff]
    exact fun row hRow => hOther row (List.mem_append_right before hRow)
  rw [hRows, List.filter_append, hBefore, List.filter_cons_of_pos (by simp), hAfter]
  rfl

omit [Ord V] [DecidableEq V] [Std.TransOrd V] in
theorem mem_edgesFrom_iff {v : V} {l : List (Arrow V W)} {e : Edge V W} :
    e ∈ edgesFrom v l ↔ e.source = v ∧ ⟨e.target, e.weight⟩ ∈ l := by
  rw [edgesFrom, List.mem_map]
  constructor
  · rintro ⟨a, ha, rfl⟩
    exact ⟨rfl, ha⟩
  · rintro ⟨rfl, ha⟩
    exact ⟨_, ha, rfl⟩

theorem mem_edges_iff {g : Graph V W} {e : Edge V W} :
    e ∈ g.edges ↔ g.Joins e.source e.weight e.target := by
  rw [edges_eq, List.mem_flatMap]
  constructor
  · intro hSome
    obtain ⟨⟨v, l⟩, hRow, hEdge⟩ := hSome
    obtain ⟨rfl, ha⟩ := mem_edgesFrom_iff.mp hEdge
    exact joins_of_arrows? (mem_rows_iff.mp hRow) ha
  · intro h
    refine ⟨(e.source, g.arrows e.source), ?_, mem_edgesFrom_iff.mpr ⟨rfl, h⟩⟩
    exact mem_rows_iff.mpr (arrows?_of_mem (mem_of_joins h))

variable [Std.LawfulEqOrd V]

theorem mem_addVertex {g : Graph V W} {v s : V} : s ∈ g.addVertex v ↔ s = v ∨ s ∈ g :=
  Multigraph.mem_enter

theorem mem_addEdge {g : Graph V W} {source target v : V} {w : W} :
    v ∈ g.addEdge source target w ↔ v = source ∨ v = target ∨ v ∈ g :=
  Multigraph.mem_addEdge

theorem arrows_addEdge (g : Graph V W) (source target v : V) (w : W) :
    (g.addEdge source target w).arrows v =
      if v = source then g.arrows source ++ [⟨target, w⟩] else g.arrows v := by
  rw [arrows, arrows?_addEdge]
  split
  next => rfl
  next =>
    split
    next h => rw [h, Option.getD_some]
    next => rfl

theorem joins_addEdge {g : Graph V W} {source target s t : V} {w x : W} :
    (g.addEdge source target w).Joins s x t ↔
      g.Joins s x t ∨ s = source ∧ x = w ∧ t = target := by
  rw [Joins, Joins, arrows_addEdge]
  split
  next h =>
    subst h
    simp only [List.mem_append, List.mem_singleton, Arrow.mk.injEq, true_and]
    rw [and_comm (a := t = target)]
  next h => simp [h]

theorem addArrows_cons (g : Graph V W) (source : V) (a : Arrow V W) (l : List (Arrow V W)) :
    g.addArrows source (a :: l) = (g.addEdge source a.target a.weight).addArrows source l := rfl

theorem arrows_addArrows (g : Graph V W) (source v : V) (l : List (Arrow V W)) :
    (g.addArrows source l).arrows v =
      if v = source then g.arrows source ++ l else g.arrows v := by
  induction l generalizing g with
  | nil =>
      rw [List.append_nil]
      split
      next h => rw [h]; rfl
      next => rfl
  | cons a rest ih =>
      rw [addArrows_cons, ih, arrows_addEdge, arrows_addEdge]
      split
      next => rw [if_pos rfl, List.append_assoc, List.singleton_append]
      next => rfl

theorem joins_addArrows {g : Graph V W} {source s t : V} {w : W} {l : List (Arrow V W)} :
    (g.addArrows source l).Joins s w t ↔ g.Joins s w t ∨ s = source ∧ ⟨t, w⟩ ∈ l := by
  rw [Joins, Joins, arrows_addArrows]
  split
  next h => simp [h, List.mem_append]
  next h => simp [h]

theorem mem_addArrows {g : Graph V W} {source v : V} {l : List (Arrow V W)} :
    v ∈ g.addArrows source l ↔
      v ∈ g ∨ (v = source ∧ l ≠ []) ∨ ∃ a ∈ l, v = a.target := by
  induction l generalizing g with
  | nil => simp [addArrows]
  | cons a rest ih =>
      rw [addArrows_cons, ih, mem_addEdge]
      by_cases hSource : v = source
      · simp [hSource]
      · simp [hSource, or_assoc, or_left_comm]

section Absorb

variable {g h : Graph V W}

theorem mem_absorb {v : V} : v ∈ g.absorb h ↔ v ∈ g ∨ v ∈ h := Multigraph.mem_absorb

/-- Without a common vertex no edge is lost. -/
theorem arrows_absorb_left {v : V} (hApart : v ∉ h) : (g.absorb h).arrows v = g.arrows v := by
  rw [arrows, arrows?_absorb, arrows?_of_not_mem hApart, Option.none_or, arrows]

theorem arrows_absorb_right {v : V} (hMem : v ∈ h) : (g.absorb h).arrows v = h.arrows v := by
  rw [arrows, arrows?_absorb, arrows?_of_mem hMem, Option.some_or, Option.getD_some]

theorem arrows_absorb (hApart : ∀ v ∈ g, v ∉ h) (v : V) :
    (g.absorb h).arrows v = g.arrows v ++ h.arrows v := by
  by_cases hv : v ∈ h
  · rw [arrows_absorb_right hv, arrows_eq_nil fun hLeft => hApart v hLeft hv, List.nil_append]
  · rw [arrows_absorb_left hv, arrows_eq_nil hv, List.append_nil]

theorem joins_absorb (hApart : ∀ v ∈ g, v ∉ h) {s t : V} {w : W} :
    (g.absorb h).Joins s w t ↔ g.Joins s w t ∨ h.Joins s w t := by
  rw [Joins, arrows_absorb hApart, List.mem_append, Joins, Joins]

end Absorb

end FiniteAutomata.Graph
